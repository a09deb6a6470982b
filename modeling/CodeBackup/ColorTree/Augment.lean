import CodeBackup.ColorTree.Balance

/-!
# Augmented trees

Each node of an augmented tree keeps a value that is computed from the node and
the values of its children, such as the largest end of the intervals below it
(`Shape.Augmented`). A change of the tree leaves the values wrong on the way
from one place up to the root, and at most at the root of a subtree beside that
way (`Shape.Focus`): the repairs of an insertion (`rebalance_focus`) and of a
removal (`Repaired.focus`) rotate nowhere else.
-/

namespace CodeBackup.ColorTree

variable {α β : Type}

section

variable (f : α → Option β → Option β → β) (a : α → β)

namespace Shape

/-- The value of every node is computed from those of its children. -/
def Augmented : Shape α → Prop
  | .nil => True
  | .node _ l p r => l.Augmented ∧ r.Augmented ∧ a p = f p (l.root?.map a) (r.root?.map a)

/-- The values are right, except at the root. -/
def Nearly : Shape α → Prop
  | .nil => True
  | .node _ l _ r => l.Augmented f a ∧ r.Augmented f a

/-- From a subtree with `P` on, the values may be wrong on the way up, and at the roots of the subtrees beside it. -/
inductive Focus (P : Shape α → Prop) : Shape α → Prop where
  | here {t : Shape α} : P t → Focus P t
  | fill {g : Frame α} {t : Shape α} : Focus P t → g.sibling.Nearly f a → Focus P (g.fill t)

/-- The way up starts at `q`. -/
structure Starts (q : α) (t : Shape α) : Prop where
  root : t.root? = some q
  nearly : t.Nearly f a

end Shape

/-- The values beside the path are right. -/
def Path.Augmented (k : Path α) : Prop := ∀ g ∈ k, g.sibling.Augmented f a

/-- The values beside the path are right, except at the roots. -/
def Path.Nearly (k : Path α) : Prop := ∀ g ∈ k, g.sibling.Nearly f a

end

variable {f : α → Option β → Option β → β} {a : α → β}

namespace Shape

theorem Augmented.nearly {t : Shape α} (h : t.Augmented f a) : t.Nearly f a := by
  cases t with
  | nil => trivial
  | node c l p r => exact ⟨h.1, h.2.1⟩

theorem Augmented.blacken {t : Shape α} (h : t.Augmented f a) : t.blacken.Augmented f a := by
  cases t with
  | nil => trivial
  | node c l p r => exact h

theorem Nearly.blacken {t : Shape α} (h : t.Nearly f a) : t.blacken.Nearly f a := by
  cases t with
  | nil => trivial
  | node c l p r => exact h

theorem fill_nearly {g : Frame α} {t : Shape α} : (g.fill t).Nearly f a ↔ t.Augmented f a ∧ g.sibling.Augmented f a := by
  obtain ⟨s, c, p, sib⟩ := g
  cases s with
  | left => exact Iff.rfl
  | right => exact and_comm

/-- The colours do not count. -/
theorem fill_augmented {g g' : Frame α} {t : Shape α} (side : g'.side = g.side) (label : g'.label = g.label)
    (sibling : g'.sibling.Augmented f a) (root : g'.sibling.root? = g.sibling.root?) (h : (g.fill t).Augmented f a) :
    (g'.fill t).Augmented f a := by
  obtain ⟨s, c, p, sib⟩ := g
  obtain ⟨s', c', p', sib'⟩ := g'
  obtain rfl : s' = s := side
  obtain rfl : p' = p := label
  simp only at sibling root
  cases s' with
  | left => exact ⟨h.1, sibling, by rw [root]; exact h.2.2⟩
  | right => exact ⟨sibling, h.2.1, by rw [root]; exact h.2.2⟩

/-- Values elsewhere do not count. -/
theorem Augmented.congr {a' : α → β} {t : Shape α} (h : t.Augmented f a) (same : ∀ p ∈ t.toList, a' p = a p) :
    t.Augmented f a' := by
  induction t with
  | nil => trivial
  | node c l p r ihl ihr =>
    have root : ∀ u : Shape α, (∀ q ∈ u.toList, a' q = a q) → u.root?.map a' = u.root?.map a := fun u hu =>
      Option.map_congr fun q hq => hu q (root?_mem hq)
    have left : ∀ q ∈ l.toList, a' q = a q := fun q hq => same q (by simp [hq])
    have right : ∀ q ∈ r.toList, a' q = a q := fun q hq => same q (by simp [hq])
    exact ⟨ihl h.1 left, ihr h.2.1 right, by rw [root l left, root r right, same p (by simp), h.2.2]⟩

theorem Nearly.congr {a' : α → β} {t : Shape α} (h : t.Nearly f a) (same : ∀ p ∈ t.toList, a' p = a p) :
    t.Nearly f a' := by
  cases t with
  | nil => trivial
  | node c l p r =>
    exact ⟨h.1.congr fun q hq => same q (by simp [hq]), h.2.congr fun q hq => same q (by simp [hq])⟩

/-- The value of the root is computed again. -/
theorem Nearly.update [DecidableEq α] {c : Color} {l r : Shape α} {p : α} (h : (node c l p r).Nearly f a)
    (left : p ∉ l.toList) (right : p ∉ r.toList) :
    (node c l p r).Augmented f (Function.update a p (f p (l.root?.map a) (r.root?.map a))) := by
  have apart : ∀ {u : Shape α} {b : β}, p ∉ u.toList → ∀ q ∈ u.toList, Function.update a p b q = a q :=
    fun hu q hq => Function.update_of_ne (fun (e : q = p) => hu (e ▸ hq)) _ _
  have root : ∀ {u : Shape α} {b : β}, p ∉ u.toList → u.root?.map (Function.update a p b) = u.root?.map a :=
    fun hu => Option.map_congr fun q hq => apart hu q (root?_mem hq)
  exact ⟨h.1.congr (apart left), h.2.congr (apart right), by rw [Function.update_self, root left, root right]⟩

/-! ## The way up -/

namespace Focus

variable {P : Shape α → Prop} {t : Shape α}

theorem plug {k : Path α} (h : Focus f a P t) (beside : Path.Nearly f a k) : Focus f a P (ColorTree.plug k t) := by
  induction k generalizing t with
  | nil => exact h
  | cons g k ih => exact ih (h.fill (beside g (by simp))) fun g' hg => beside g' (by simp [hg])

theorem blacken (h : Focus f a P t) (color : ∀ u, P u → P u.blacken) : Focus f a P t.blacken := by
  cases h with
  | here h => exact .here (color t h)
  | @fill g t h beside =>
    obtain ⟨s, c, p, sib⟩ := g
    rw [Frame.blacken_fill]
    exact h.fill (g := ⟨s, .black, p, sib⟩) beside

/-- The subtree, and the path to it. -/
theorem exists_plug (h : Focus f a P t) : ∃ k u, t = ColorTree.plug k u ∧ Path.Nearly f a k ∧ P u := by
  induction h with
  | @here t h => exact ⟨[], t, rfl, by simp [Path.Nearly], h⟩
  | @fill g t _ beside ih =>
    obtain ⟨k, u, rfl, nearly, hu⟩ := ih
    refine ⟨k ++ [g], u, (plug_append k [g] u).symm, fun g' hg => ?_, hu⟩
    rcases List.mem_append.1 hg with hg | hg
    · exact nearly g' hg
    · rw [List.mem_singleton.1 hg]
      exact beside

end Focus

theorem Starts.blacken {q : α} {t : Shape α} (h : t.Starts f a q) : t.blacken.Starts f a q := by
  refine ⟨?_, h.nearly.blacken⟩
  cases t with
  | nil => exact h.root
  | node c l p r => exact h.root

end Shape

theorem Path.Augmented.nearly {k : Path α} (h : Path.Augmented f a k) : Path.Nearly f a k := fun g hg => (h g hg).nearly

theorem plug_augmented {k : Path α} {t : Shape α} (h : (plug k t).Augmented f a) :
    t.Augmented f a ∧ Path.Augmented f a k := by
  induction k generalizing t with
  | nil => exact ⟨h, by simp [Path.Augmented]⟩
  | cons g k ih =>
    obtain ⟨whole, beside⟩ := ih h
    obtain ⟨ht, hg⟩ := Shape.fill_nearly.1 whole.nearly
    refine ⟨ht, fun g' mem => ?_⟩
    rcases List.mem_cons.1 mem with rfl | mem
    · exact hg
    · exact beside g' mem

/-! ## The repair of an insertion -/

/-- The new leaf, or a node that has come up over others and is linked to one on its left. -/
inductive Shape.Linked (f : α → Option β → Option β → β) (a : α → β) (p : α) : Shape α → Prop where
  | leaf {c : Color} : Linked f a p (.node c .nil p .nil)
  | above {c : Color} {l r : Shape α} : l ≠ .nil → l.Nearly f a → r.Nearly f a → Linked f a p (.node c l p r)

theorem Shape.Linked.blacken {p : α} {t : Shape α} (h : t.Linked f a p) : t.blacken.Linked f a p := by
  cases h with
  | leaf => exact .leaf
  | above some_ left right => exact .above some_ left right

/-- The new leaf with the nodes above it that the repair has passed. -/
inductive Shape.Grown (f : α → Option β → Option β → β) (a : α → β) (p : α) : Shape α → Prop where
  | leaf {c : Color} : Grown f a p (.node c .nil p .nil)
  | fill {g : Frame α} {t : Shape α} : Grown f a p t → g.sibling.Augmented f a → Grown f a p (g.fill t)

theorem Shape.Grown.focus {p : α} {t : Shape α} (h : t.Grown f a p) : t.Focus f a (Shape.Linked f a p) := by
  induction h with
  | leaf => exact .here .leaf
  | fill _ beside ih => exact ih.fill beside.nearly

theorem rotateUp_inner {s : Side} {uc gc c : Color} {x y q : α} {usib gsib near far : Shape α} :
    rotateUp ⟨s.flip, uc, x, usib⟩ ⟨s, gc, y, gsib⟩ ((Frame.mk s c q far).fill near) =
      (Frame.mk s .black q ((Frame.mk s .red y gsib).fill far)).fill ((Frame.mk s uc x near).fill usib) := by
  cases s <;> rfl

/-- The rotations end the repair above the leaf, with the grandparent beside the way up. -/
theorem Shape.Grown.rotateUp {p : α} {t : Shape α} (h : t.Grown f a p) {u g : Frame α}
    (hu : u.sibling.Augmented f a) (hg : g.sibling.Augmented f a) :
    (rotateUp u g t).Focus f a (Shape.Linked f a p) := by
  obtain ⟨us, uc, x, usib⟩ := u
  obtain ⟨s, gc, y, gsib⟩ := g
  simp only at hu hg
  by_cases side : us = s
  · subst side
    simp only [ColorTree.rotateUp, if_true]
    exact h.focus.fill (g := ⟨us, .black, x, _⟩) (Shape.fill_nearly.2 ⟨hu, hg⟩)
  · obtain rfl := Side.eq_flip_of_ne (Ne.symm side)
    cases h with
    | @leaf c =>
      -- the leaf comes up over both, and has a child on each side
      have view : Shape.node c .nil p .nil = (Frame.mk s c p .nil).fill .nil := by cases s <;> rfl
      rw [view, rotateUp_inner]
      have down : ((Frame.mk s uc x .nil).fill usib).Nearly f a := Shape.fill_nearly.2 ⟨hu, trivial⟩
      have up : ((Frame.mk s .red y gsib).fill .nil).Nearly f a := Shape.fill_nearly.2 ⟨trivial, hg⟩
      apply Shape.Focus.here
      cases s with
      | left => exact .above (by simp) down up
      | right => exact .above (by simp) up down
    | @fill w t h beside =>
      obtain ⟨ws, wc, q, wsib⟩ := w
      simp only at beside
      by_cases near : ws = s
      · subst near
        rw [rotateUp_inner, ← Frame.fill_flip ws uc]
        exact (h.focus.fill (g := ⟨ws.flip, uc, x, usib⟩) hu.nearly).fill (g := ⟨ws, .black, q, _⟩)
          (Shape.fill_nearly.2 ⟨beside, hg⟩)
      · obtain rfl := Side.eq_flip_of_ne (Ne.symm near)
        rw [Frame.fill_flip s wc, rotateUp_inner, ← Frame.fill_flip s .black]
        exact (h.focus.fill (g := ⟨s, .red, y, gsib⟩) hg.nearly).fill (g := ⟨s.flip, .black, q, _⟩)
          (Shape.fill_nearly.2 ⟨hu, beside⟩)

/-- **After the repair of an insertion** the values are right, except on the way from the new leaf up. -/
theorem rebalance_focus {p : α} {k : Path α} {t : Shape α} (h : t.Grown f a p) (beside : Path.Augmented f a k) :
    (rebalance k t).Focus f a (Shape.Linked f a p) := by
  fun_induction rebalance k t with
  | case1 u g k t hu hg ih =>
    have hu : u.sibling.Augmented f a := beside u (by simp)
    have hg : g.sibling.Augmented f a := beside g (by simp)
    exact ih (.fill (.fill h hu) hg.blacken) fun g' mem => beside g' (by simp [mem])
  | case2 u g k t hu hg =>
    exact (h.rotateUp (beside u (by simp)) (beside g (by simp))).plug fun g' mem => (beside g' (by simp [mem])).nearly
  | case3 u g k t hu => exact h.focus.plug beside.nearly
  | case4 k t _ => exact h.focus.plug beside.nearly

/-! ## The repair of a removal -/

/-- **The repair of a removal** leaves the values right, except on the way from `P` up, if that is so once the subtree at
the end of the path has a parent again, or is itself the end of the repair. -/
theorem Repaired.focus {P : Shape α → Prop} {K : Path α} {t t' : Shape α} (h : Repaired K t t')
    (color : ∀ u, P u → P u.blacken) (beside : Path.Augmented f a K)
    (last : t.isRed ∨ K = [] → t.blacken.Focus f a P)
    (first : ∀ (g : Frame α) k (g' : Frame α), K = g :: k → g'.label = g.label → g'.sibling.Augmented f a →
      (g'.fill t).Focus f a P) : t'.Focus f a P := by
  induction h with
  | red red => exact (last (.inl red)).plug beside.nearly
  | root => exact last (.inr rfl)
  | @up s c p o inner outer t t' k _ ih =>
    have sib := beside ⟨s, c, p, _⟩ List.mem_cons_self
    have sib' : ((Frame.mk s .red o outer).fill inner).Augmented f a :=
      Shape.fill_augmented (g := ⟨s, .black, o, outer⟩) rfl rfl (Shape.fill_nearly.1 sib.nearly).2 rfl sib
    have whole := first _ k ⟨s, c, p, (Frame.mk s .red o outer).fill inner⟩ rfl rfl sib'
    exact ih (fun g mem => beside g (List.mem_cons_of_mem _ mem)) (fun _ => whole.blacken color)
      fun g k g' _ _ hg => whole.fill hg.nearly
  | @outer s c p o inner outer t k =>
    have sib := beside ⟨s, c, p, _⟩ List.mem_cons_self
    obtain ⟨near, far⟩ := Shape.fill_nearly.1 sib.nearly
    refine (Shape.Focus.plug ?_ fun g mem => (beside g (List.mem_cons_of_mem _ mem)).nearly).blacken color
    exact (first _ k ⟨s, .black, p, inner⟩ rfl rfl near).fill (g := ⟨s, c, o, _⟩) far.blacken.nearly
  | @inner s c p o i near far outer t k =>
    have sib := beside ⟨s, c, p, _⟩ List.mem_cons_self
    obtain ⟨middle, side⟩ := Shape.fill_nearly.1 sib.nearly
    obtain ⟨hnear, hfar⟩ := Shape.fill_nearly.1 middle.nearly
    refine (Shape.Focus.plug ?_ fun g mem => (beside g (List.mem_cons_of_mem _ mem)).nearly).blacken color
    -- the sibling is now a child of the node that has come up, beside the way
    exact (first _ k ⟨s, .black, p, near⟩ rfl rfl hnear).fill (g := ⟨s, c, i, _⟩) (Shape.fill_nearly.2 ⟨hfar, side⟩)
  | @turn s c p o inner outer t t' k _ ih =>
    have sib := beside ⟨s, c, p, _⟩ List.mem_cons_self
    obtain ⟨near, far⟩ := Shape.fill_nearly.1 sib.nearly
    refine ih (fun g mem => ?_) (fun end_ => last (end_.imp_right fun e => by cases e)) ?_
    · rcases List.mem_cons.1 mem with rfl | mem
      · exact near
      · rcases List.mem_cons.1 mem with rfl | mem
        · exact far
        · exact beside g (List.mem_cons_of_mem _ mem)
    · rintro _ _ g' ⟨⟩ label hg
      exact first ⟨s, c, p, _⟩ k g' rfl label hg

/-- **After a removal** the values are right, except on the way up from what took the place of the removed node, or from
the parent if nothing did. -/
theorem removed_focus {k : Path α} {u t' : Shape α} (hu : u.Augmented f a) (beside : Path.Augmented f a k)
    (repaired : t' = plug k u ∨ Repaired k u t') {q : α} (start : u.root?.or (Path.parent? k) = some q) :
    t'.Focus f a (Shape.Starts f a q) := by
  have color : ∀ v : Shape α, v.Starts f a q → v.blacken.Starts f a q := fun v => Shape.Starts.blacken
  cases u with
  | node c l p r =>
    obtain rfl : p = q := by simpa using start
    have here : (Shape.node c l p r).Focus f a (Shape.Starts f a p) := .here ⟨rfl, hu.nearly⟩
    rcases repaired with rfl | repaired
    · exact here.plug beside.nearly
    · exact repaired.focus color beside (fun _ => here.blacken color) fun g k g' _ _ hg => here.fill hg.nearly
  | nil =>
    have parent : ∀ g : Frame α, g.label = q → g.sibling.Augmented f a → (g.fill .nil).Focus f a (Shape.Starts f a q) :=
      fun g label hg => .here ⟨by rw [Frame.fill_root?, label], Shape.fill_nearly.2 ⟨trivial, hg⟩⟩
    cases k with
    | nil => cases start
    | cons g k =>
      have label : g.label = q := by simpa using start
      rcases repaired with rfl | repaired
      · exact (parent g label (beside g (by simp))).plug (k := k) fun g' mem => (beside g' (by simp [mem])).nearly
      · refine repaired.focus color beside (by simp [Shape.isRed]) ?_
        rintro _ _ g' ⟨⟩ label' hg
        exact parent g' (label'.trans label) hg

end CodeBackup.ColorTree
