import CodeBackup.Rbtree.Erase
import CodeBackup.Rbtree.Relink

/-!
# Removal of any node

A node with two children is not taken out itself: its successor, the first node
on its right, leaves its own place (`Rep.splice`) and takes over the links and
the colour of the removed one (`Replaced`). The code does both at once
(`Rep.eraseTwo_relink`). The repair starts at the place that has been vacated
(`Rep.remove_at`), so `rb_erase` removes any address from the in-order list
(`Rep.remove`).
-/

namespace CodeBackup.ColorTree

variable {α : Type}

/-- The path runs down left sides only. -/
def Path.Leftmost (k : Path α) : Prop := ∀ f ∈ k, f.side = .left

/-- The first node of a tree is at the end of a path of left sides, with nothing on its own left. -/
theorem exists_leftmost {t : Shape α} {a : α} (first : t.toList.head? = some a) :
    ∃ k c r, Path.Leftmost k ∧ t = plug k (.node c .nil a r) := by
  induction t with
  | nil => simp at first
  | node c l b r ihl _ =>
    cases l with
    | nil =>
      obtain rfl : b = a := by simpa using first
      exact ⟨[], c, r, nofun, rfl⟩
    | node cl ll bl rl =>
      obtain ⟨k, c', r', left, e⟩ := ihl (by simpa [List.head?_append] using first)
      refine ⟨k ++ [⟨.left, c, b, r⟩], c', r', fun f hf => ?_, by rw [plug_append, ← e]; rfl⟩
      rcases List.mem_append.1 hf with hf | hf
      · exact left f hf
      · rw [List.mem_singleton.1 hf]

/-- Which place the removal of a node with the path `k` and the children `l` and `r` empties, and what stands there
afterwards: its own, or the place of its successor, which takes over that of the node. -/
inductive Vacated (k : Path α) (c : Color) : Shape α → Shape α → Path α → Shape α → Prop where
  | left {r : Shape α} : Vacated k c .nil r k r
  | right {l : Shape α} : l ≠ .nil → Vacated k c l .nil k l
  | successor {l rm : Shape α} {k₂ : Path α} {cm : Color} {m : α} : l ≠ .nil → Path.Leftmost k₂ →
      Vacated k c l (plug k₂ (.node cm .nil m rm)) (k₂ ++ ⟨.right, c, m, l⟩ :: k) rm

theorem exists_vacated (k : Path α) (c : Color) (l r : Shape α) : ∃ K u, Vacated k c l r K u := by
  by_cases left : l = .nil
  · exact ⟨k, r, left ▸ .left⟩
  · cases r with
    | nil => exact ⟨k, l, .right left⟩
    | node cr rl b rr =>
      obtain ⟨m, first⟩ : ∃ m, (Shape.node cr rl b rr).toList.head? = some m := by
        cases e : (Shape.node cr rl b rr).toList with
        | nil => simp at e
        | cons m _ => exact ⟨m, rfl⟩
      obtain ⟨k₂, cm, rm, down, e⟩ := exists_leftmost first
      rw [e]
      exact ⟨_, rm, .successor left down⟩

theorem Path.Leftmost.before {k : Path α} (h : Path.Leftmost k) : Path.before k = [] := by
  induction k with
  | nil => rfl
  | cons f k ih =>
    obtain ⟨side, c, a, s⟩ := f
    obtain rfl : side = .left := h ⟨side, c, a, s⟩ (by simp)
    exact ih fun g hg => h g (by simp [hg])

/-- The removed node is all that is missing. -/
theorem Vacated.toList {k K : Path α} {c : Color} {l r u : Shape α} (h : Vacated k c l r K u) :
    (plug K u).toList = k.before ++ l.toList ++ (r.toList ++ k.after) := by
  cases h with
  | left => simp [plug_toList]
  | right => simp [plug_toList]
  | successor _ down => simp [plug_append, plug_toList, down.before]

/-- The root of a tree does not depend on what stands at the end of a path that is not empty. -/
theorem plug_root?_congr (f : Frame α) (k : Path α) (t t' : Shape α) :
    (plug (f :: k) t).root? = (plug (f :: k) t').root? := by
  induction k generalizing f t t' with
  | nil => simp
  | cons g k ih => exact ih g (f.fill t) (f.fill t')

/-- The balance of the ancestors does not depend on their labels. -/
theorem Path.Balanced.relabel {k k' : Path α} {s : Side} {c : Color} {a b : α} {sib : Shape α} {n : Nat}
    (h : Path.Balanced (k' ++ ⟨s, c, a, sib⟩ :: k) n) : Path.Balanced (k' ++ ⟨s, c, b, sib⟩ :: k) n := by
  induction k' generalizing n with
  | nil => exact h
  | cons f k' ih =>
    obtain ⟨fs, fc, fa, fsib⟩ := f
    cases fc with
    | black => exact ⟨h.1, ih h.2⟩
    | red =>
      refine ⟨h.1, h.2.1, ?_, ih h.2.2.2⟩
      have parent : Path.redParent (k' ++ ⟨s, c, a, sib⟩ :: k) = false := h.2.2.1
      cases k' <;> exact parent

theorem Path.BlackRoot.relabel {k k' : Path α} {s : Side} {c : Color} {a b : α} {sib : Shape α}
    (h : Path.BlackRoot (k' ++ ⟨s, c, a, sib⟩ :: k)) : Path.BlackRoot (k' ++ ⟨s, c, b, sib⟩ :: k) := by
  induction k' with
  | nil =>
    cases k with
    | nil => exact h
    | cons g k => exact h
  | cons f k' ih =>
    cases k' with
    | nil => exact ih h.tail
    | cons g k' => exact ih h.tail

/-- The root of a tree in memory has its parent pointer. -/
theorem Shape.At.root_parent {h : Rbtree.Ptr → Option Rbtree.RbNode} {parent : Option Rbtree.Ptr}
    {t : Shape Rbtree.Ptr} (at_ : t.At h parent) {p : Rbtree.Ptr} (hp : t.root? = some p) :
    ∃ n, h p = some n ∧ n.rbParent = parent := by
  cases t with
  | nil => cases hp
  | node c l q r =>
    obtain rfl : q = p := by simpa using hp
    exact ⟨_, at_.1, rfl⟩

end CodeBackup.ColorTree

namespace CodeBackup.Rbtree

open C C.Outcome ColorTree

namespace Rep

variable {t : RbTree} {k : Path Ptr} {c cm : Color} {l rm : Shape Ptr} {p m : Ptr}

/-- A pointer from outside does not point into a tree, and one into a tree not out of it. -/
theorem apart_of (S : Shape Ptr) : (∀ u, u ∉ Path.labels k → Path.parent? k ≠ some u) ∧
    ∀ u, u ∉ S.toList → S.root? ≠ some u :=
  ⟨fun _ hu e => hu (Path.parent?_mem e), fun _ hu e => hu (Shape.root?_mem e)⟩

/-! ## The successor is the right child -/

section

variable (h : Rep t (plug k (.node c l p (.node cm .nil m rm)))) {q : Ptr} (hq : l.root? = some q)

include h hq

/-- The pointers are apart. -/
theorem around_child : Around (Path.parent? k) rm.root? p m q := by
  obtain ⟨pl, pr, pk, -, nr, -, lr, lk, rk⟩ := h.node_apart
  simp only [Shape.toList_node, Shape.toList_nil, List.nil_append, List.mem_cons, not_or, List.nodup_cons,
    List.disjoint_left] at pr nr lr rk
  have hql := Shape.root?_mem hq
  obtain ⟨outside, notRoot⟩ := apart_of (k := k) rm
  exact {
    op := outside p pk
    om := outside m (rk m (.inl rfl))
    oq := outside q (lk q hql)
    xo := fun u hu => notRoot u fun e => rk u (.inr e) (Path.parent?_mem hu)
    xp := notRoot p pr.2
    xm := notRoot m nr.1
    xq := notRoot q (lr hql).2
    pm := pr.1
    pq := fun e => pl (e ▸ hql)
    mq := fun e => (lr hql).1 e.symm }

/-- **The successor is the right child.** -/
theorem eraseTwo_child : ∃ t', t'.next = t.next ∧ Rep t' (plug k (.node c l m rm)) ∧
    rbErase p t = if cm = .black then rbEraseColor rm.root? (some m) t' else .ok t' := by
  have view : Rep t (plug (⟨.right, c, p, l⟩ :: k) ((Frame.mk .right cm m .nil).fill rm)) := h
  have around := h.around_child hq
  obtain ⟨hk, hp, hl, hm, -, hrm⟩ := h.node_of
  obtain ⟨pl, pr, -, -, nr, -, lr, -, rk⟩ := h.node_apart
  rw [Shape.root?_node, hq] at hp
  have hm : t.heap m = some ⟨some p, cm, rm.root?, none⟩ := hm
  -- the tree without the successor
  obtain ⟨t₁, t₂, run₁, run₂, next₂, h₂⟩ := view.splice
  obtain rfl := Outcome.unique run₁ (RbTree.adopt_of (fun u hu => hrm.isSome (Shape.root?_mem hu)) _)
  obtain rfl := Outcome.unique run₂ (RbTree.hang_of
    (by rintro u ⟨⟩; rw [RbTree.adopt_isSome, hp]; rfl) _)
  have h₂ : Rep (t.spliced p m rm.root?) (plug k (.node c l p rm)) := h₂
  refine ⟨_, ?_, ?_, around.rbErase hp hm (fun u hu => hk.parent_isSome hu) (hl.isSome (Shape.root?_mem hq))⟩
  · rfl
  refine h₂.replaced ?_ (view.bound m (mem_plug.2 (.inl (by simp)))) ?_
  · simp only [Shape.toList_node, Shape.toList_nil, List.nil_append, List.mem_cons, not_or, List.nodup_cons,
      List.disjoint_left] at pr nr lr rk
    rw [mem_plug, Shape.toList_node, List.mem_append, List.mem_cons]
    have := rk m (.inl rfl)
    have := fun e => (lr e).1 rfl
    tauto
  · rw [hq]
    exact around.replaced hm fun u hu => hrm.root_parent hu

end

/-! ## The successor is further down -/

section

variable {fc : Color} {a b : Ptr} {fsib : Shape Ptr} {k₂ : Path Ptr}
  (h : Rep t (plug k (.node c l p (plug (⟨.left, fc, a, fsib⟩ :: k₂) (.node cm .nil m rm))))) {q : Ptr}
  (hq : l.root? = some q) (hb : (plug (⟨.left, fc, a, fsib⟩ :: k₂) (.node cm .nil m rm)).root? = some b)

include h hb

/-- The search for the successor ends at it. -/
theorem descend_deep (left : Path.Leftmost k₂) : descend .left (t.next + 1) b t = .ok m := by
  obtain ⟨u, down, hu⟩ : ∃ u, descend .left (t.next + 1) b t = .ok u ∧
      (plug (⟨.left, fc, a, fsib⟩ :: k₂) (.node cm .nil m rm)).toList.head? = some u := by
    generalize plug (⟨.left, fc, a, fsib⟩ :: k₂) (.node cm .nil m rm) = r at h hb
    cases r with
    | nil => cases hb
    | node cr lr' b' rr =>
      obtain rfl : b' = b := by simpa using hb
      have hr' : Rep t (plug (⟨.right, c, p, l⟩ :: k) (.node cr lr' b' rr)) := h
      refine hr'.descend_left ?_
      have := hr'.subtree_length_le
      simp only [Shape.toList_node, List.length_append] at this
      omega
  obtain rfl : m = u := by
    rw [plug_toList, Path.before_left, left.before] at hu
    simpa using hu
  exact down

include hq

/-- The pointers are apart. -/
theorem below_deep : Below (Path.parent? k) rm.root? p m q a b := by
  obtain ⟨pl, pr, pk, -, nr, -, lr, lk, rk⟩ := h.node_apart
  obtain ⟨hn, -, hd⟩ := plug_nodup.1 nr
  simp only [Shape.toList_node, Shape.toList_nil, List.nil_append, List.mem_cons, List.nodup_cons,
    List.disjoint_left] at hn hd
  rw [List.disjoint_left] at lr
  -- all but `q` are in the right subtree of `p`, and `a` and `b` on the way down to `m`
  have mem : ∀ u, u = m ∨ u ∈ rm.toList ∨ u ∈ Path.labels (⟨.left, fc, a, fsib⟩ :: k₂) →
      u ∈ (plug (⟨.left, fc, a, fsib⟩ :: k₂) (.node cm .nil m rm)).toList := by
    intro u hu
    rw [mem_plug, Shape.toList_node]
    simp only [Shape.toList_nil, List.nil_append, List.mem_cons]
    tauto
  have ha : a ∈ Path.labels (⟨.left, fc, a, fsib⟩ :: k₂) := Path.mem_labels_cons.2 (.inl rfl)
  obtain ⟨b', hb', bmem⟩ := plug_root?_mem ⟨.left, fc, a, fsib⟩ k₂ (.node cm .nil m rm)
  obtain rfl : b' = b := Option.some.inj (hb'.symm.trans hb)
  have hql := Shape.root?_mem hq
  have down : ∀ u ∈ Path.labels (⟨.left, fc, a, fsib⟩ :: k₂),
      Path.parent? k ≠ some u ∧ rm.root? ≠ some u ∧ p ≠ u ∧ m ≠ u ∧ q ≠ u := by
    intro u hu
    have inside := mem u (.inr (.inr hu))
    refine ⟨(apart_of rm).1 u (rk u inside), (apart_of (k := k) rm).2 u fun e => hd (.inr e) hu,
      fun e => pr (e ▸ inside), fun e => hd (.inl rfl) (e ▸ hu), fun e => lr hql (e ▸ inside)⟩
  obtain ⟨oa, xa, pa, ma, qa⟩ := down a ha
  obtain ⟨ob, xb, pb, mb, qb⟩ := down b' bmem
  obtain ⟨outside, notRoot⟩ := apart_of (k := k) rm
  exact {
    op := outside p pk
    om := outside m (rk m (mem m (.inl rfl)))
    oq := outside q (lk q hql)
    xo := fun u hu => notRoot u fun e => rk u (mem u (.inr (.inl e))) (Path.parent?_mem hu)
    xp := notRoot p fun e => pr (mem p (.inr (.inl e)))
    xm := notRoot m hn.1
    xq := notRoot q fun e => lr hql (mem q (.inr (.inl e)))
    pm := fun e => pr (e ▸ mem m (.inl rfl))
    pq := fun e => pl (e ▸ hql)
    mq := fun e => lr hql (e ▸ mem m (.inl rfl))
    oa, ob, xa, xb, pa, pb, ma, mb, qa, qb }

/-- **The successor is further down.** -/
theorem eraseTwo_deep (left : Path.Leftmost k₂) :
    ∃ t', t'.next = t.next ∧ Rep t' (plug k (.node c l m (plug (⟨.left, fc, a, fsib⟩ :: k₂) rm))) ∧
      rbErase p t = if cm = .black then rbEraseColor rm.root? (some a) t' else .ok t' := by
  have view : Rep t
      (plug (⟨.left, fc, a, fsib⟩ :: (k₂ ++ ⟨.right, c, p, l⟩ :: k)) ((Frame.mk .right cm m .nil).fill rm)) := by
    rw [← List.cons_append, plug_append]
    exact h
  have below := h.below_deep hq hb
  have down := h.descend_deep hb left
  obtain ⟨hk, hp, hl, hr⟩ := h.node_of
  obtain ⟨-, pr, -, -, nr, -, lr, -, rk⟩ := h.node_apart
  obtain ⟨hn, -, hd⟩ := plug_nodup.1 nr
  rw [hb, hq] at hp
  have hm : t.heap m = some ⟨some a, cm, rm.root?, none⟩ := view.heap_self
  have ha : t.heap a = some ⟨Path.parent? (k₂ ++ ⟨.right, c, p, l⟩ :: k), fc, fsib.root?, some m⟩ := view.heap_parent
  have hrm : rm.At t.heap (some m) := (Frame.fill_at _ _ |>.1 view.node_of.2).2.1
  have hx : ∀ u, rm.root? = some u → (t.heap u).isSome := fun u hu => hrm.isSome (Shape.root?_mem hu)
  have sa : (t.heap a).isSome := by rw [ha]; rfl
  have sb : (t.heap b).isSome := hr.isSome (Shape.root?_mem hb)
  -- the tree without the successor
  obtain ⟨t₁, t₂, run₁, run₂, next₂, h₂⟩ := view.splice
  obtain rfl := Outcome.unique run₁ (RbTree.adopt_of hx _)
  obtain rfl := Outcome.unique run₂ (RbTree.hang_of
    (by rintro u ⟨⟩; rwa [RbTree.adopt_isSome]) _)
  rw [← List.cons_append, plug_append] at h₂
  have h₂ : Rep (t.spliced a m rm.root?) (plug k (.node c l p (plug (⟨.left, fc, a, fsib⟩ :: k₂) rm))) := h₂
  refine ⟨_, ?_, ?_, below.rbErase hp hm down (fun u hu => hk.parent_isSome hu) (hl.isSome (Shape.root?_mem hq)) sa
    sb hx⟩
  · rfl
  refine h₂.replaced ?_ (view.bound m (mem_plug.2 (.inl (by simp)))) ?_
  · simp only [Shape.toList_node, Shape.toList_nil, List.nil_append, List.mem_cons, List.nodup_cons,
      List.disjoint_left] at hn hd lr
    have mr : m ∈ (plug (⟨.left, fc, a, fsib⟩ :: k₂) (.node cm .nil m rm)).toList := mem_plug.2 (.inl (by simp))
    rw [mem_plug, Shape.toList_node, List.mem_append, List.mem_cons, mem_plug]
    have := rk m mr
    have := fun e => lr e mr
    have := below.pm
    have := hd (.inl rfl)
    have := hn.1
    tauto
  · rw [hq, (plug_root?_congr ⟨.left, fc, a, fsib⟩ k₂ rm (.node cm .nil m rm)).trans hb]
    exact below.replaced hm ha rfl

end

/-- The links after the removal of a node with two children: the successor, of colour `cm`, stands in its place, and
`rm` where the successor was. -/
theorem eraseTwo_relink {k₂ : Path Ptr} (left : Path.Leftmost k₂)
    (h : Rep t (plug k (.node c l p (plug k₂ (.node cm .nil m rm))))) (some_ : l ≠ .nil) :
    ∃ t', t'.next = t.next ∧ Rep t' (plug (k₂ ++ ⟨.right, c, m, l⟩ :: k) rm) ∧
      rbErase p t = if cm = .black then rbEraseColor rm.root? (Path.parent? (k₂ ++ ⟨.right, c, m, l⟩ :: k)) t'
        else .ok t' := by
  obtain ⟨q, hq⟩ : ∃ q, l.root? = some q := by
    obtain ⟨cl, q, sib, u, rfl⟩ := Shape.exists_fill some_ .left
    exact ⟨q, Frame.fill_root? _ _⟩
  rw [plug_append]
  cases k₂ with
  | nil => exact h.eraseTwo_child hq
  | cons f k₂ =>
    obtain ⟨side, fc, a, fsib⟩ := f
    obtain rfl : side = .left := left ⟨side, fc, a, fsib⟩ (by simp)
    obtain ⟨b, hb, -⟩ := plug_root?_mem ⟨.left, fc, a, fsib⟩ k₂ (.node cm .nil m rm)
    exact h.eraseTwo_deep hq hb fun g hg => left g (by simp [hg])

/-- **`rb_erase`** of a node empties a place and repairs the tree from there. -/
theorem remove_at {r u : Shape Ptr} {K : Path Ptr} (h : Rep t (plug k (.node c l p r)))
    (rb : (plug k (.node c l p r)).RedBlack) (vacated : Vacated k c l r K u) :
    ∃ t' T', rbErase p t = .ok t' ∧ t'.next = t.next ∧ Rep t' T' ∧ T'.toList = (plug K u).toList ∧ T'.RedBlack ∧
      (T' = plug K u ∨ Repaired K u T') := by
  obtain ⟨n, bal, hk, -⟩ := plug_balanced.1 rb.balanced
  have root := plug_blackRoot_path rb.black
  cases vacated with
  | left =>
    obtain ⟨t₂, next, h₂, run⟩ := Rep.erase_splice (s := .right) (u := r) h
    obtain ⟨t', T', run', next', rest⟩ := h₂.eraseColor_after (s := .right) root hk bal run
    exact ⟨t', T', run', next'.trans next, rest⟩
  | right =>
    obtain ⟨t₂, next, h₂, run⟩ := Rep.erase_splice (s := .left) (u := l) h
    obtain ⟨t', T', run', next', rest⟩ := h₂.eraseColor_after (s := .left) root hk bal run
    exact ⟨t', T', run', next'.trans next, rest⟩
  | @successor _ _ k₂ cm m some_ down =>
    obtain ⟨t₂, next, h₂, run⟩ := eraseTwo_relink down h some_
    -- the ancestors of the successor are balanced, whichever address is among them
    have whole : (plug (k₂ ++ ⟨.right, c, p, l⟩ :: k) (.node cm .nil m u)).RedBlack := by
      rw [plug_append]
      exact rb
    obtain ⟨n, bal, hk, -⟩ := plug_balanced.1 whole.balanced
    obtain ⟨t', T', run', next', rest⟩ :=
      h₂.eraseColor_after (s := .right) (plug_blackRoot_path whole.black).relabel hk.relabel bal run
    exact ⟨t', T', run', next'.trans next, rest⟩

/-- **`rb_erase`** of any node takes its address out of the in-order list, and leaves a red-black tree. -/
theorem remove {T : Shape Ptr} (h : Rep t T) (rb : T.RedBlack) {xs ys : List Ptr} (order : T.toList = xs ++ p :: ys) :
    ∃ t' T', rbErase p t = .ok t' ∧ t'.next = t.next ∧ Rep t' T' ∧ T'.toList = xs ++ ys ∧ T'.RedBlack := by
  obtain ⟨k, c, l, r, e, before, after⟩ := exists_plug order []
  obtain rfl : T = plug k (.node c l p r) := e
  simp only [Path.before_nil, Path.after_nil, List.nil_append, List.append_nil] at before after
  subst before after
  obtain ⟨K, u, vacated⟩ := exists_vacated k c l r
  obtain ⟨t', T', run, next, h', order', rb', -⟩ := h.remove_at rb vacated
  exact ⟨t', T', run, next, h', order'.trans vacated.toList, rb'⟩

end Rep

end CodeBackup.Rbtree
