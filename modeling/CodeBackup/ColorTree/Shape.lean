import Mathlib

/-!
# Coloured binary trees and their contexts

A `Shape` is a binary tree whose nodes carry a colour and a label. A `Path`
is the way from a node up to the root: one `Frame` per ancestor, innermost
first, with the side the path comes from and the other subtree. `plug` puts a
subtree back. The in-order labels of `plug k t` are `before k`, those of `t`,
then `after k`; every statement about order, rotation and enumeration is one
about these lists.

`rebalance` is the red-black insertion repair on contexts. It keeps the
in-order labels (`rebalance_toList`).
-/

namespace CodeBackup.ColorTree

inductive Color where
  | red
  | black
  deriving DecidableEq, Repr

/-- A binary tree with a colour and a label at every node. -/
inductive Shape (α : Type) where
  | nil
  | node (color : Color) (left : Shape α) (label : α) (right : Shape α)
  deriving DecidableEq, Repr

/-- Which child of its parent a subtree is. -/
inductive Side where
  | left
  | right
  deriving DecidableEq, Repr

/-- The other side. -/
def Side.flip : Side → Side
  | left => right
  | right => left

@[simp] theorem Side.flip_flip (s : Side) : s.flip.flip = s := by cases s <;> rfl

theorem Side.eq_flip_of_ne {s s' : Side} (h : s ≠ s') : s' = s.flip := by
  cases s <;> cases s' <;> first | rfl | exact absurd rfl h

/-- One step of a path: the parent, and the subtree on its other side. -/
structure Frame (α : Type) where
  side : Side
  color : Color
  label : α
  sibling : Shape α
  deriving DecidableEq, Repr

/-- The way up from a subtree to the root, innermost frame first. -/
abbrev Path (α : Type) := List (Frame α)

variable {α : Type}

namespace Shape

/-- In-order labels. -/
def toList : Shape α → List α
  | nil => []
  | node _ l a r => l.toList ++ a :: r.toList

def root? : Shape α → Option α
  | nil => none
  | node _ _ a _ => some a

/-- The same tree with a black root. -/
def blacken : Shape α → Shape α
  | nil => nil
  | node _ l a r => node .black l a r

@[simp] theorem toList_nil : (nil : Shape α).toList = [] := rfl

@[simp] theorem toList_node (c : Color) (l r : Shape α) (a : α) :
    (node c l a r).toList = l.toList ++ a :: r.toList := rfl

@[simp] theorem root?_nil : (nil : Shape α).root? = none := rfl

@[simp] theorem root?_node (c : Color) (l r : Shape α) (a : α) : (node c l a r).root? = some a := rfl

@[simp] theorem blacken_toList (t : Shape α) : t.blacken.toList = t.toList := by cases t <;> rfl

/-- The root, where there is one, is black. -/
def BlackRoot : Shape α → Prop
  | nil => True
  | node c _ _ _ => c = .black

@[simp] theorem blackRoot_blacken (t : Shape α) : t.blacken.BlackRoot := by
  cases t <;> simp [blacken, BlackRoot]

theorem root?_mem {t : Shape α} {a : α} (h : t.root? = some a) : a ∈ t.toList := by
  cases t with
  | nil => cases h
  | node c l b r =>
    obtain rfl : b = a := by simpa using h
    simp

end Shape

namespace Frame

/-- The parent with the subtree `t` on the path's side. -/
def fill (f : Frame α) (t : Shape α) : Shape α :=
  match f.side with
  | .left => .node f.color t f.label f.sibling
  | .right => .node f.color f.sibling f.label t

@[simp] theorem fill_left (c : Color) (a : α) (s t : Shape α) :
    (Frame.mk .left c a s).fill t = .node c t a s := rfl

@[simp] theorem fill_right (c : Color) (a : α) (s t : Shape α) :
    (Frame.mk .right c a s).fill t = .node c s a t := rfl

@[simp] theorem fill_root? (f : Frame α) (t : Shape α) : (f.fill t).root? = some f.label := by
  obtain ⟨side, c, a, s⟩ := f
  cases side <;> rfl

end Frame

/-- A node seen from its other child. -/
theorem Frame.fill_flip (s : Side) (c : Color) (a : α) (t u : Shape α) :
    (Frame.mk s.flip c a t).fill u = (Frame.mk s c a u).fill t := by cases s <;> rfl

/-- The whole tree, `t` being the subtree at the end of the path. -/
def plug : Path α → Shape α → Shape α
  | [], t => t
  | f :: k, t => plug k (f.fill t)

@[simp] theorem plug_nil (t : Shape α) : plug [] t = t := rfl

@[simp] theorem plug_cons (f : Frame α) (k : Path α) (t : Shape α) :
    plug (f :: k) t = plug k (f.fill t) := rfl

theorem plug_append (k k' : Path α) (t : Shape α) : plug (k ++ k') t = plug k' (plug k t) := by
  induction k generalizing t with
  | nil => rfl
  | cons f k ih => exact ih (f.fill t)

namespace Path

/-- Labels that come before the subtree at the end of the path. -/
def before : Path α → List α
  | [] => []
  | f :: k => match f.side with
    | .left => before k
    | .right => before k ++ (f.sibling.toList ++ [f.label])

/-- Labels that come after the subtree at the end of the path. -/
def after : Path α → List α
  | [] => []
  | f :: k => match f.side with
    | .left => f.label :: (f.sibling.toList ++ after k)
    | .right => after k

/-- The parent of the subtree at the end of the path. -/
def parent? (k : Path α) : Option α := k.head?.map Frame.label

@[simp] theorem parent?_nil : parent? ([] : Path α) = none := rfl

@[simp] theorem parent?_cons (f : Frame α) (k : Path α) : parent? (f :: k) = some f.label := rfl

@[simp] theorem before_nil : before ([] : Path α) = [] := rfl
@[simp] theorem after_nil : after ([] : Path α) = [] := rfl

@[simp] theorem before_left (c : Color) (a : α) (s : Shape α) (k : Path α) :
    before (⟨.left, c, a, s⟩ :: k) = before k := rfl

@[simp] theorem before_right (c : Color) (a : α) (s : Shape α) (k : Path α) :
    before (⟨.right, c, a, s⟩ :: k) = before k ++ (s.toList ++ [a]) := rfl

@[simp] theorem after_left (c : Color) (a : α) (s : Shape α) (k : Path α) :
    after (⟨.left, c, a, s⟩ :: k) = a :: (s.toList ++ after k) := rfl

@[simp] theorem after_right (c : Color) (a : α) (s : Shape α) (k : Path α) :
    after (⟨.right, c, a, s⟩ :: k) = after k := rfl

/-- The outermost frame, which is the root of the tree, is black. -/
def BlackRoot : Path α → Prop
  | [] => True
  | [f] => f.color = .black
  | _ :: g :: k => BlackRoot (g :: k)

theorem BlackRoot.tail {f : Frame α} {k : Path α} (h : BlackRoot (f :: k)) : BlackRoot k := by
  cases k with
  | nil => trivial
  | cons g k => exact h

end Path

theorem plug_toList (k : Path α) (t : Shape α) :
    (plug k t).toList = k.before ++ t.toList ++ k.after := by
  induction k generalizing t with
  | nil => simp
  | cons f k ih =>
    obtain ⟨side, c, a, s⟩ := f
    cases side <;> simp [ih]

/-- A tree whose root is not the end of the path has the root of its outermost frame. -/
theorem plug_blackRoot {k : Path α} {t : Shape α} (hk : k ≠ []) :
    (plug k t).BlackRoot ↔ k.BlackRoot := by
  induction k generalizing t with
  | nil => exact absurd rfl hk
  | cons f k ih =>
    cases k with
    | nil =>
      obtain ⟨side, c, a, s⟩ := f
      cases side <;> rfl
    | cons g k => exact ih (by simp)

theorem plug_blackRoot_path {k : Path α} {t : Shape α} (h : (plug k t).BlackRoot) : k.BlackRoot := by
  cases k with
  | nil => trivial
  | cons f k => exact (plug_blackRoot (by simp)).1 h

/-- Every node of a tree is the root of the subtree at the end of some path. -/
theorem exists_plug {t : Shape α} {xs ys : List α} {a : α} (h : t.toList = xs ++ a :: ys) (k₀ : Path α) :
    ∃ k c l r, plug k₀ t = plug k (.node c l a r) ∧
      k.before ++ l.toList = k₀.before ++ xs ∧ r.toList ++ k.after = ys ++ k₀.after := by
  induction t generalizing xs ys k₀ with
  | nil => simp at h
  | node c l b r ihl ihr =>
    rw [Shape.toList_node, List.append_eq_append_iff] at h
    rcases h with ⟨as, rfl, h⟩ | ⟨bs, hl, h⟩
    · cases as with
      | nil =>
        obtain ⟨rfl, rfl⟩ : b = a ∧ r.toList = ys := by simpa using h
        exact ⟨k₀, c, l, r, rfl, by simp, by simp⟩
      | cons d as =>
        obtain ⟨rfl, hr⟩ : b = d ∧ r.toList = as ++ a :: ys := by simpa using h
        obtain ⟨k, c', l', r', e, hb, ha⟩ := ihr hr (⟨.right, c, b, l⟩ :: k₀)
        exact ⟨k, c', l', r', e, by simpa using hb, by simpa using ha⟩
    · cases bs with
      | nil =>
        obtain ⟨rfl, rfl⟩ : a = b ∧ ys = r.toList := by simpa using h
        exact ⟨k₀, c, l, r, rfl, by simp [hl], by simp⟩
      | cons d bs =>
        obtain ⟨rfl, rfl⟩ : a = d ∧ ys = bs ++ b :: r.toList := by simpa using h
        obtain ⟨k, c', l', r', e, hb, ha⟩ := ihl hl (⟨.left, c, b, r⟩ :: k₀)
        exact ⟨k, c', l', r', e, by simpa using hb, by simpa using ha⟩

/-! ## Red-black repair after an insertion -/

/-- The subtree on one side. -/
def Shape.child (t : Shape α) (s : Side) : Shape α :=
  match t, s with
  | .nil, _ => .nil
  | .node _ l _ _, .left => l
  | .node _ _ _ r, .right => r

theorem Shape.eq_fill_child (c : Color) (l r : Shape α) (a : α) (s : Side) :
    node c l a r = (Frame.mk s c a ((node c l a r).child s.flip)).fill ((node c l a r).child s) := by
  cases s <;> rfl

/-- The repair at a red parent `f` whose sibling side is black: the subtree `t` has a red
root, `g` is the grandparent. An inner `t` is first rotated to the outside. -/
def rotateUp (f g : Frame α) (t : Shape α) : Shape α :=
  if f.side = g.side then
    (Frame.mk g.side .black f.label
      ((Frame.mk g.side .red g.label g.sibling).fill f.sibling)).fill t
  else match t with
    | .nil => g.fill (f.fill .nil)
    | .node c l x r =>
      let t := Shape.node c l x r
      (Frame.mk g.side .black x ((Frame.mk g.side .red g.label g.sibling).fill (t.child g.side.flip))).fill
        ((Frame.mk g.side f.color f.label (t.child g.side)).fill f.sibling)

/-- The subtree has a red root. -/
def Shape.isRed : Shape α → Bool
  | .node .red _ _ _ => true
  | _ => false

/-- The whole tree after the repair that starts at a red subtree `t` with path `k`. -/
def rebalance : Path α → Shape α → Shape α
  | f :: g :: k, t =>
    if f.color = .red then
      if g.sibling.isRed then
        rebalance k ({ g with color := .red, sibling := g.sibling.blacken }.fill
          ({ f with color := .black }.fill t))
      else plug k (rotateUp f g t)
    else plug (f :: g :: k) t
  | k, t => plug k t

theorem rotateUp_toList (f g : Frame α) (t : Shape α) :
    (rotateUp f g t).toList = (g.fill (f.fill t)).toList := by
  obtain ⟨fs, fc, fa, fsib⟩ := f
  obtain ⟨gs, gc, ga, gsib⟩ := g
  cases gs <;> cases fs <;> cases t <;> simp [rotateUp, Shape.child, Side.flip]

theorem plug_congr {k : Path α} {t t' : Shape α} (h : t.toList = t'.toList) :
    (plug k t).toList = (plug k t').toList := by
  simp only [plug_toList, h]

/-- **The repair keeps the in-order labels.** -/
theorem rebalance_toList (k : Path α) (t : Shape α) : (rebalance k t).toList = (plug k t).toList := by
  fun_induction rebalance k t with
  | case1 f g k t hf hg ih =>
    rw [ih]
    apply plug_congr
    obtain ⟨fs, fc, fa, fsib⟩ := f
    obtain ⟨gs, gc, ga, gsib⟩ := g
    cases fs <;> cases gs <;> simp
  | case2 f g k t hf hg => exact plug_congr (rotateUp_toList f g t)
  | case3 f g k t hf => rfl
  | case4 k t h => rfl

/-! ## Search -/

section Search

variable {κ : Type} (cmp : κ → κ → Ordering) (key : α → κ)

/-- The labels are in strictly increasing order of their keys. -/
def Sorted (l : List α) : Prop := l.Pairwise fun a b => cmp (key a) (key b) = .lt

/-- A label with a new key, in its place. -/
theorem Sorted.insert {cmp : κ → κ → Ordering} {key key' : α → κ} {xs ys : List α} {a : α} {x : κ}
    (h : Sorted cmp key (xs ++ ys)) (hx : ∀ b ∈ xs, cmp (key b) x = .lt)
    (hy : ∀ b ∈ ys, cmp x (key b) = .lt) (self : key' a = x)
    (other : ∀ b ∈ xs ++ ys, key' b = key b) : Sorted cmp key' (xs ++ a :: ys) := by
  have h' : Sorted cmp key' (xs ++ ys) :=
    List.Pairwise.imp_of_mem (fun ha hb hab => by rwa [other _ ha, other _ hb]) h
  obtain ⟨left, right, across⟩ := List.pairwise_append.1 h'
  refine List.pairwise_append.2 ⟨left, List.pairwise_cons.2 ⟨fun b hb => ?_, right⟩, fun b hb c hc => ?_⟩
  · rw [self, other b (by simp [hb])]
    exact hy b hb
  · rcases List.mem_cons.1 hc with rfl | hc
    · rw [self, other b (by simp [hb])]
      exact hx b hb
    · exact across b hb c hc

/-- Where the descent for the key `x` ends: the path taken and the subtree there,
empty or with the key at its root. -/
def seek (x : κ) : Path α → Shape α → Path α × Shape α
  | k, .nil => (k, .nil)
  | k, .node c l a r =>
    match cmp x (key a) with
    | .lt => seek x (⟨.left, c, a, r⟩ :: k) l
    | .gt => seek x (⟨.right, c, a, l⟩ :: k) r
    | .eq => (k, .node c l a r)

theorem seek_plug (x : κ) (k : Path α) (t : Shape α) :
    plug (seek cmp key x k t).1 (seek cmp key x k t).2 = plug k t := by
  fun_induction seek cmp key x k t <;> simp_all

/-- A descent that ends at a node ends at one with the key. -/
theorem seek_node {x : κ} {k k' : Path α} {t : Shape α} {c : Color} {l r : Shape α} {a : α}
    (h : seek cmp key x k t = (k', .node c l a r)) : cmp x (key a) = .eq := by
  fun_induction seek cmp key x k t with
  | case1 k => simp at h
  | case2 k c' l' b r' hb ih => exact ih h
  | case3 k c' l' b r' hb ih => exact ih h
  | case4 k c' l' b r' hb =>
    simp only [Prod.mk.injEq, Shape.node.injEq] at h
    rw [← h.2.2.2.1]
    exact hb

variable [Std.TransCmp cmp]

/-- **Search.** A descent through a sorted tree that ends at an empty subtree has
every smaller key before it and every larger key after it. -/
theorem seek_nil {x : κ} {k k' : Path α} {t : Shape α} (sorted : Sorted cmp key (plug k t).toList)
    (hb : ∀ a ∈ k.before, cmp (key a) x = .lt) (ha : ∀ a ∈ k.after, cmp x (key a) = .lt)
    (h : seek cmp key x k t = (k', .nil)) :
    (∀ a ∈ k'.before, cmp (key a) x = .lt) ∧ ∀ a ∈ k'.after, cmp x (key a) = .lt := by
  fun_induction seek cmp key x k t with
  | case1 k =>
    obtain rfl : k = k' := by simpa using h
    exact ⟨hb, ha⟩
  | case2 k c l b r hcmp ih =>
    apply ih sorted hb ?_ h
    have hs : ∀ a ∈ r.toList, cmp (key b) (key a) = .lt := by
      simp only [Sorted, plug_toList, Shape.toList_node, List.append_assoc, List.cons_append,
        List.pairwise_append, List.pairwise_cons, List.mem_append] at sorted
      exact fun a h => sorted.2.1.2.1.1 a (Or.inl h)
    intro a h
    simp only [Path.after_left, List.mem_cons, List.mem_append] at h
    rcases h with rfl | h | h
    · exact hcmp
    · exact Std.TransCmp.lt_trans hcmp (hs a h)
    · exact ha a h
  | case3 k c l b r hcmp ih =>
    apply ih sorted ?_ ha h
    have hlt : cmp (key b) x = .lt := Std.OrientedCmp.lt_of_gt hcmp
    have hs : ∀ a ∈ l.toList, cmp (key a) (key b) = .lt := by
      simp only [Sorted, plug_toList, Shape.toList_node, List.append_assoc, List.cons_append,
        List.pairwise_append, List.pairwise_cons, List.mem_append, List.mem_cons] at sorted
      exact fun a h => sorted.2.1.2.2 a h b (Or.inl rfl)
    intro a h
    simp only [Path.before_right, List.mem_append, List.mem_singleton] at h
    rcases h with h | h | rfl
    · exact hb a h
    · exact Std.TransCmp.lt_trans (hs a h) hlt
    · exact hlt
  | case4 k c l b r hcmp => simp at h

end Search

end CodeBackup.ColorTree
