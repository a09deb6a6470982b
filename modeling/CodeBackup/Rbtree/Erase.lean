import CodeBackup.ColorTree.Balance
import CodeBackup.Rbtree.Walk

/-!
# Removal

`rb_erase` on a tree in memory, for a node with at most one child: the child
takes its place (`Rep.splice`), and if the node was black the repair loop of
`__rb_erase_color` runs. The loop reads the sibling of a place and its children
through pointers; they are there because the tree is balanced. A turn of it
mends the tree, or goes on one place further up (`Rep.eraseColorLoop`), so the
removal takes one address out of the in-order list and leaves a red-black tree
(`Rep.erase`).
-/

namespace CodeBackup.Rbtree

open C C.Outcome ColorTree

/-- The root of a tree is one of the ancestors of a place that is not the root. -/
theorem plug_root?_mem (f : Frame Ptr) (k : Path Ptr) (T : Shape Ptr) :
    ∃ q, (plug (f :: k) T).root? = some q ∧ q ∈ Path.labels (f :: k) := by
  induction k generalizing f T with
  | nil => exact ⟨f.label, by simp, Path.mem_labels_cons.2 (.inl rfl)⟩
  | cons g k ih =>
    obtain ⟨q, hq, mem⟩ := ih g (f.fill T)
    exact ⟨q, hq, Path.mem_labels_cons.2 (.inr (.inr mem))⟩

namespace Rep

variable {t : RbTree} {k : Path Ptr}

/-! ## The child takes the place of the node -/

/-- A tree without an address that is not one of its own. -/
theorem forget {T : Shape Ptr} (h : Rep t T) {p : Ptr} (hp : p ∉ T.toList) :
    Rep { t with heap := Function.update t.heap p none } T where
  root := h.root
  at_ := h.at_.congr fun q hq => by
    have ne : q ≠ p := fun e => hp (e ▸ hq)
    simp [ne]
  nodup := h.nodup
  bound := h.bound

/-- **A node with one child at most** is taken out. -/
theorem splice {s : Side} {c : Color} {p : Ptr} {u : Shape Ptr}
    (h : Rep t (plug k ((Frame.mk s c p .nil).fill u))) :
    ∃ t₁ t₂, t.setParentOf u.root? (Path.parent? k) = .ok t₁ ∧
      t₁.replaceChild .left (Path.parent? k) p u.root? = .ok t₂ ∧ t₂.next = t.next ∧ Rep t₂ (plug k u) := by
  obtain ⟨hk, hT⟩ := h.node_of
  obtain ⟨hp, hu, -⟩ := Frame.fill_at _ _ |>.1 hT
  obtain ⟨hn, hkn, hd⟩ := plug_nodup.1 h.nodup
  simp only [Frame.fill_nodup, Frame.mem_fill, List.disjoint_left, Shape.toList_nil, List.not_mem_nil,
    not_false_eq_true, or_false] at hn hd
  obtain ⟨pu, -, nu, -⟩ := hn
  have dp : p ∉ Path.labels k := hd (.inl rfl)
  have du : ∀ q ∈ u.toList, q ∉ Path.labels k := fun q hq => hd (.inr hq)
  have uRoot : ∀ q ∈ Path.labels k, u.root? ≠ some q := fun q hq e => du q (Shape.root?_mem e) hq
  have kParent : ∀ q ∈ u.toList, Path.parent? k ≠ some q := fun q hq e => du q hq (Path.parent?_mem e)
  obtain ⟨t₁, run₁, e₁⟩ : ∃ t₁, t.setParentOf u.root? (Path.parent? k) = .ok t₁ ∧
      t₁ = t.upd u.root? fun n => { n with rbParent := Path.parent? k } :=
    ⟨_, RbTree.setParentOf_of (fun q hq => hu.isSome (Shape.root?_mem hq)) _, rfl⟩
  obtain ⟨t₂, run₂, e₂⟩ : ∃ t₂, t₁.replaceChild .left (Path.parent? k) p u.root? = .ok t₂ ∧
      t₂ = (t₁.upd (Path.parent? k) fun n => n.setChild (if n.child .left = some p then .left else Side.left.flip)
        u.root?).setRoot (if Path.parent? k = none then u.root? else t₁.root) :=
    ⟨_, RbTree.replaceChild_of (fun q hq => by rw [e₁, RbTree.upd_isSome]; exact hk.parent_isSome hq) _ _, rfl⟩
  have hk₂ : Path.At t₂.heap t₂.root k u.root? := by
    refine hk.rehang hkn (fun e => ?_) (fun e => ?_) (fun f k' e => ?_) fun q hq hne => ?_
    · subst e
      simp [e₂]
    · obtain ⟨f, k', rfl⟩ := List.exists_cons_of_ne_nil e
      simp [e₂, e₁]
    · subst e
      obtain ⟨hf, -, -⟩ := hk
      have own : u.root? ≠ some f.label := uRoot _ (Path.mem_labels_cons.2 (.inl rfl))
      have sibling : f.sibling.root? ≠ some p := fun e => dp (Path.mem_labels_cons.2 (.inr (.inl (Shape.root?_mem e))))
      have hf : t.heap f.label = some (f.record (Path.parent? k') (some p)) := by
        rw [hf, Frame.fill_root?]
      have record := congrArg some (Frame.record_setChild f (Path.parent? k') (some p) u.root?)
      rw [e₂, RbTree.setRoot_heap, e₁]
      simp only [RbTree.upd_heap, Path.parent?_cons, if_true, own, if_false, hf, Option.map_some, f.record_side sibling]
      exact record
    · rw [e₂, RbTree.setRoot_heap, RbTree.upd_heap, if_neg hne, e₁, RbTree.upd_heap, if_neg (uRoot q hq)]
  have hu₂ : u.At t₂.heap (Path.parent? k) := by
    refine hu.reparent nu (fun q n hq hn => ?_) fun q hq hne => ?_
    · have mem : q ∈ u.toList := Shape.root?_mem hq
      rw [e₂, RbTree.setRoot_heap, RbTree.upd_heap, if_neg (kParent q mem), e₁, RbTree.upd_heap, if_pos hq, hn]
      rfl
    · rw [e₂, RbTree.setRoot_heap, RbTree.upd_heap, if_neg (kParent q hq), e₁, RbTree.upd_heap, if_neg hne]
  have next : t₂.next = t.next := by simp [e₂, e₁]
  refine ⟨t₁, t₂, run₁, run₂, next, ((plug_at k u).2 ⟨hk₂, hu₂⟩).1, ((plug_at k u).2 ⟨hk₂, hu₂⟩).2, ?_, ?_⟩
  · exact plug_nodup.2 ⟨nu, hkn, fun q hq => du q hq⟩
  · intro q hq
    rw [next]
    apply h.bound q
    rw [mem_plug] at hq ⊢
    exact hq.imp_left fun hq => Frame.mem_fill _ |>.2 (.inr (.inl hq))

/-! ## One turn of the repair loop -/

section

variable {s : Side} {c : Color} {p o : Ptr} {inner outer T : Shape Ptr}

/-- The parent of the place, and the sibling. -/
theorem heap_sibling {co : Color} (h : Rep t (plug (⟨s, c, p, (Frame.mk s co o outer).fill inner⟩ :: k) T)) :
    t.heap p = some ((Frame.mk s c p ((Frame.mk s co o outer).fill inner)).record (Path.parent? k) T.root?) ∧
      t.heap o = some ((Frame.mk s co o outer).record (some p) inner.root?) := by
  refine ⟨h.heap_parent, ?_⟩
  have view : Rep t (plug (⟨s, co, o, outer⟩ :: ⟨s.flip, c, p, T⟩ :: k) inner) := h.sibling
  exact view.heap_parent

/-- The colour of the sibling changes. -/
theorem setColor_sibling {co : Color} (h : Rep t (plug (⟨s, c, p, (Frame.mk s co o outer).fill inner⟩ :: k) T))
    (co' : Color) : ∃ t', t.setColor o co' = .ok t' ∧ t'.next = t.next ∧
      Rep t' (plug (⟨s, c, p, (Frame.mk s co' o outer).fill inner⟩ :: k) T) := by
  have view : Rep t (plug (⟨s, co, o, outer⟩ :: ⟨s.flip, c, p, T⟩ :: k) inner) := h.sibling
  obtain ⟨t', run, next, h'⟩ := view.setColor_parent co'
  have h' : Rep t' (plug (⟨s.flip, c, p, T⟩ :: k) ((Frame.mk s co' o outer).fill inner)) := h'
  refine ⟨t', run, next, ?_⟩
  have := h'.sibling
  rwa [Side.flip_flip] at this

/-- The outer child of the sibling becomes black. -/
theorem setBlack_outer {co : Color} (h : Rep t (plug (⟨s, c, p, (Frame.mk s co o outer).fill inner⟩ :: k) T))
    {q : Ptr} (hq : outer.root? = some q) : ∃ t', t.setColor q .black = .ok t' ∧ t'.next = t.next ∧
      Rep t' (plug (⟨s, c, p, (Frame.mk s co o outer.blacken).fill inner⟩ :: k) T) := by
  have view : Rep t (plug (⟨s, co, o, outer⟩ :: ⟨s.flip, c, p, T⟩ :: k) inner) := h.sibling
  obtain ⟨t', run, next, h'⟩ := view.sibling.setBlack hq
  have h' := h'.sibling
  simp only [Side.flip_flip] at h'
  have h' : Rep t' (plug (⟨s.flip, c, p, T⟩ :: k) ((Frame.mk s co o outer.blacken).fill inner)) := h'
  refine ⟨t', run, next, ?_⟩
  have := h'.sibling
  rwa [Side.flip_flip] at this

/-- The colour test of the two children of the sibling. -/
theorem isBlack_sibling {co : Color} (h : Rep t (plug (⟨s, c, p, (Frame.mk s co o outer).fill inner⟩ :: k) T)) :
    t.isBlack inner.root? = .ok (!inner.isRed) ∧ t.isBlack outer.root? = .ok (!outer.isRed) := by
  have view : Rep t (plug (⟨s, co, o, outer⟩ :: ⟨s.flip, c, p, T⟩ :: k) inner) := h.sibling
  exact ⟨by rw [RbTree.isBlack, view.isRed, ok_bind], by rw [RbTree.isBlack, view.sibling.isRed, ok_bind]⟩

/-- The loop finds that the children of the sibling are not both black. -/
theorem isBlack_left_right {co : Color} (h : Rep t (plug (⟨s, c, p, (Frame.mk s co o outer).fill inner⟩ :: k) T))
    (red : inner.isRed ∨ outer.isRed) :
    t.isBlack ((Frame.mk s co o outer).record (some p) inner.root?).rbLeft = .ok false ∨
      (t.isBlack ((Frame.mk s co o outer).record (some p) inner.root?).rbLeft = .ok true ∧
        t.isBlack ((Frame.mk s co o outer).record (some p) inner.root?).rbRight = .ok false) := by
  obtain ⟨bi, bo⟩ := h.isBlack_sibling
  cases s <;> simp only [Frame.record] <;> rw [bi, bo] <;> rcases red with red | red <;>
    cases hi : inner.isRed <;> cases ho : outer.isRed <;> simp_all

/-- A black sibling with black children. -/
theorem eraseColorSide_up (h : Rep t (plug (⟨s, c, p, (Frame.mk s .black o outer).fill inner⟩ :: k) T))
    (hi : inner.isRed = false) (ho : outer.isRed = false) :
    ∃ t', rbEraseColorSide s p t = .ok (.again (some p) (Path.parent? k), t') ∧ t'.next = t.next ∧
      Rep t' (plug k ((Frame.mk s c p ((Frame.mk s .red o outer).fill inner)).fill T)) := by
  obtain ⟨hp, hs⟩ := h.heap_sibling
  obtain ⟨bi, bo⟩ := h.isBlack_sibling
  obtain ⟨t', run, next, h'⟩ := h.setColor_sibling .red
  obtain ⟨hp', -⟩ := h'.heap_sibling
  refine ⟨t', ?_, next, h'⟩
  have other : ((Frame.mk s c p ((Frame.mk s .black o outer).fill inner)).record (Path.parent? k) T.root?).child
      s.flip = some o := (Frame.record_child_flip ⟨s, c, p, _⟩ _ _).trans (Frame.fill_root? _ _)
  rw [hi] at bi
  rw [ho] at bo
  simp only [rbEraseColorSide, RbTree.node_of hp, ok_bind, other, deref_some, RbTree.node_of hs,
    Frame.record_color, reduceCtorEq, if_false]
  cases s <;> simp [Frame.record, bi, bo, run, RbTree.node_of hp']

/-- The steps that end the repair: the sibling takes the place of the parent. -/
theorem mend_steps {co : Color} (h : Rep t (plug (⟨s, c, p, (Frame.mk s co o outer).fill inner⟩ :: k) T))
    (ho : outer.isRed) : ∃ t₁ t₂ t₃ t' q, t.setColor o c = .ok t₁ ∧ t₁.setColor p .black = .ok t₂ ∧
      t₂.heap o = some ((Frame.mk s c o outer).record (some p) inner.root?) ∧ outer.root? = some q ∧
      t₂.setColor q .black = .ok t₃ ∧ rbRotate s p t₃ = .ok t' ∧ t'.next = t.next ∧
      Rep t' (plug k ((Frame.mk s c o outer.blacken).fill ((Frame.mk s .black p inner).fill T))) := by
  obtain ⟨q, hq⟩ : ∃ q, outer.root? = some q := by
    obtain ⟨q, sib, u, rfl⟩ := Shape.exists_fill_red ho .left
    exact ⟨q, rfl⟩
  obtain ⟨t₁, run₁, next₁, h₁⟩ := h.setColor_sibling c
  obtain ⟨t₂, run₂, next₂, h₂⟩ := h₁.setColor_parent .black
  have h₂ : Rep t₂ (plug (⟨s, .black, p, (Frame.mk s c o outer).fill inner⟩ :: k) T) := h₂
  obtain ⟨-, hs₂⟩ := h₂.heap_sibling
  obtain ⟨t₃, run₃, next₃, h₃⟩ := h₂.setBlack_outer hq
  obtain ⟨t', run', next', h'⟩ := Rep.rotate (k := k) h₃
  exact ⟨t₁, t₂, t₃, t', q, run₁, run₂, hs₂, hq, run₃, run', by rw [next', next₃, next₂, next₁], h'⟩

/-- A black sibling whose outer child is red. -/
theorem eraseColorSide_outer (h : Rep t (plug (⟨s, c, p, (Frame.mk s .black o outer).fill inner⟩ :: k) T))
    (ho : outer.isRed) : ∃ t', rbEraseColorSide s p t = .ok (.stop t'.root, t') ∧ t'.next = t.next ∧
      Rep t' (plug k ((Frame.mk s c o outer.blacken).fill ((Frame.mk s .black p inner).fill T))) := by
  obtain ⟨hp, hs⟩ := h.heap_sibling
  obtain ⟨bi, bo⟩ := h.isBlack_sibling
  obtain ⟨t₁, t₂, t₃, t', q, run₁, run₂, hs₂, hq, run₃, run', next, h'⟩ := h.mend_steps ho
  refine ⟨t', ?_, next, h'⟩
  have other : ((Frame.mk s c p ((Frame.mk s .black o outer).fill inner)).record (Path.parent? k) T.root?).child
      s.flip = some o := (Frame.record_child_flip ⟨s, c, p, _⟩ _ _).trans (Frame.fill_root? _ _)
  have far : ∀ co, ((Frame.mk s co o outer).record (some p) inner.root?).child s.flip = outer.root? := fun co =>
    Frame.record_child_flip ⟨s, co, o, outer⟩ _ _
  rw [ho, hq] at bo
  rcases h.isBlack_left_right (.inr ho) with left | ⟨left, right⟩
  · simp only [rbEraseColorSide, RbTree.node_of hp, ok_bind, other, deref_some, RbTree.node_of hs,
      Frame.record_color, reduceCtorEq, if_false, left, Bool.false_eq_true, far, hq, bo, Bool.not_true, run₁, run₂,
      RbTree.node_of hs₂, run₃, run']
  · simp only [rbEraseColorSide, RbTree.node_of hp, ok_bind, other, deref_some, RbTree.node_of hs,
      Frame.record_color, reduceCtorEq, if_false, left, if_true, right, Bool.false_eq_true, far, hq, bo, Bool.not_true,
      run₁, run₂, RbTree.node_of hs₂, run₃, run']

/-- A black sibling whose inner child only is red. -/
theorem eraseColorSide_inner {i : Ptr} {near far : Shape Ptr}
    (h : Rep t (plug (⟨s, c, p, (Frame.mk s .black o outer).fill ((Frame.mk s .red i far).fill near)⟩ :: k) T))
    (ho : outer.isRed = false) : ∃ t', rbEraseColorSide s p t = .ok (.stop t'.root, t') ∧ t'.next = t.next ∧
      Rep t' (plug k ((Frame.mk s c i ((Frame.mk s .black o outer).fill far)).fill
        ((Frame.mk s .black p near).fill T))) := by
  obtain ⟨hp, hs⟩ := h.heap_sibling
  obtain ⟨bi, bo⟩ := h.isBlack_sibling
  -- the inner child comes up over the sibling
  have view : Rep t (plug (⟨s, .black, o, outer⟩ :: ⟨s.flip, c, p, T⟩ :: k) ((Frame.mk s .red i far).fill near)) :=
    h.sibling
  obtain ⟨t₁, run₁, next₁, h₁⟩ := view.setBlack (Frame.fill_root? _ _)
  rw [Frame.blacken_fill] at h₁
  obtain ⟨t₂, run₂, next₂, h₂⟩ := h₁.setColor_parent .red
  have h₂ : Rep t₂ (plug (⟨s.flip, c, p, T⟩ :: k)
      ((Frame.mk s.flip .red o ((Frame.mk s.flip .black i near).fill far)).fill outer)) := by
    rw [Frame.fill_flip s .red o, Frame.fill_flip s .black i]
    exact h₂
  obtain ⟨t₃, run₃, next₃, h₃⟩ := h₂.rotate
  rw [Frame.fill_flip s .red o, Frame.fill_flip s .black i] at h₃
  have h₃ : Rep t₃ (plug (⟨s, c, p, (Frame.mk s .black i ((Frame.mk s .red o outer).fill far)).fill near⟩ :: k) T) := by
    have := h₃.sibling
    rwa [Side.flip_flip] at this
  obtain ⟨hp₃, -⟩ := h₃.heap_sibling
  obtain ⟨t₄, t₅, t₆, t', q, run₄, run₅, hs₅, hq, run₆, run', next, h'⟩ := h₃.mend_steps Frame.isRed_fill_red
  rw [Frame.blacken_fill] at h'
  refine ⟨t', ?_, by rw [next, next₃, next₂, next₁], h'⟩
  have other : ∀ sib : Shape Ptr, ((Frame.mk s c p sib).record (Path.parent? k) T.root?).child s.flip = sib.root? :=
    fun sib => Frame.record_child_flip ⟨s, c, p, sib⟩ _ _
  have inner : ((Frame.mk s .black o outer).record (some p) ((Frame.mk s .red i far).fill near).root?).child s =
      some i := (Frame.record_child ⟨s, .black, o, outer⟩ _ _).trans (Frame.fill_root? _ _)
  have outside : ∀ (co : Color) (q : Ptr) (u : Shape Ptr) (v : Option Ptr),
      ((Frame.mk s co q u).record (some p) v).child s.flip = u.root? := fun co q u v =>
    Frame.record_child_flip ⟨s, co, q, u⟩ _ _
  rw [ho] at bo
  have both := h.isBlack_left_right (.inl Frame.isRed_fill_red)
  rw [Frame.fill_root?] at both hs inner
  rcases both with left | ⟨left, right⟩
  · simp only [rbEraseColorSide, RbTree.node_of hp, ok_bind, other, Frame.fill_root?, deref_some, RbTree.node_of hs,
      Frame.record_color, reduceCtorEq, if_false, left, Bool.false_eq_true, outside, bo, Bool.not_false, if_true,
      inner, run₁, run₂, run₃, RbTree.node_of hp₃, run₄, run₅, RbTree.node_of hs₅, hq, run₆, run']
  · simp only [rbEraseColorSide, RbTree.node_of hp, ok_bind, other, Frame.fill_root?, deref_some, RbTree.node_of hs,
      Frame.record_color, reduceCtorEq, if_false, left, right, Bool.false_eq_true, outside, bo, Bool.not_false, if_true,
      inner, run₁, run₂, run₃, RbTree.node_of hp₃, run₄, run₅, RbTree.node_of hs₅, hq, run₆, run']

/-- A red sibling is rotated up first. -/
theorem eraseColorSide_red {i : Ptr} {near far : Shape Ptr}
    (h : Rep t (plug (⟨s, c, p, (Frame.mk s .red o outer).fill ((Frame.mk s .black i far).fill near)⟩ :: k) T)) :
    ∃ t', rbEraseColorSide s p t = rbEraseColorSide s p t' ∧ t'.next = t.next ∧
      Rep t' (plug (⟨s, .red, p, (Frame.mk s .black i far).fill near⟩ :: ⟨s, .black, o, outer⟩ :: k) T) := by
  obtain ⟨hp, hs⟩ := h.heap_sibling
  obtain ⟨t₁, run₁, next₁, h₁⟩ := h.setColor_sibling .black
  obtain ⟨t₂, run₂, next₂, h₂⟩ := h₁.setColor_parent .red
  obtain ⟨t', run', next', h'⟩ := Rep.rotate (k := k) h₂
  have h' : Rep t' (plug (⟨s, .red, p, (Frame.mk s .black i far).fill near⟩ :: ⟨s, .black, o, outer⟩ :: k) T) := h'
  obtain ⟨hp', hs'⟩ := h'.heap_sibling
  refine ⟨t', ?_, by rw [next', next₂, next₁], h'⟩
  have other : ∀ (co : Color) (sib : Shape Ptr) (u v : Option Ptr),
      ((Frame.mk s co p sib).record u v).child s.flip = sib.root? := fun co sib u v =>
    Frame.record_child_flip ⟨s, co, p, sib⟩ _ _
  simp only at run₂
  rw [rbEraseColorSide, rbEraseColorSide]
  simp only [RbTree.node_of hp, ok_bind, other, Frame.fill_root?, deref_some, RbTree.node_of hs, Frame.record_color,
    if_true, run₁, run₂, run', RbTree.node_of hp', RbTree.node_of hs', reduceCtorEq, if_false]

end

/-! ## The repair loop -/

/-- The loop stops at a red place. -/
theorem eraseColorLoop_red {T : Shape Ptr} (h : Rep t (plug k T)) (red : T.isRed) (parent : Option Ptr) (n : Nat) :
    rbEraseColorLoop (n + 1) T.root? parent t = .ok (T.root?, t) := by
  simp [rbEraseColorLoop, RbTree.isBlack, h.isRed, red]

/-- The place is not the root, and its side is found: the turn decides how the loop goes on. -/
theorem eraseColorLoop_turn {f : Frame Ptr} {T : Shape Ptr} (h : Rep t (plug (f :: k) T)) (black : T.isRed = false)
    (sib : f.sibling ≠ .nil) (n : Nat) :
    (∀ node parent t', rbEraseColorSide f.side f.label t = .ok (.again node parent, t') →
      rbEraseColorLoop (n + 1) T.root? (some f.label) t = rbEraseColorLoop n node parent t') ∧
    ∀ node t', rbEraseColorSide f.side f.label t = .ok (.stop node, t') →
      rbEraseColorLoop (n + 1) T.root? (some f.label) t = .ok (node, t') := by
  have nodup := plug_nodup.1 (show (plug k (f.fill T)).toList.Nodup from h.nodup)
  obtain ⟨r, hr⟩ : ∃ r, f.sibling.root? = some r := by
    obtain ⟨c, a, v, u, e⟩ := Shape.exists_fill sib .left
    exact ⟨a, by rw [e, Frame.fill_root?]⟩
  have apart : f.sibling.root? ≠ T.root? := by
    intro e
    rw [hr] at e
    exact List.disjoint_left.1 (Frame.fill_nodup f |>.1 nodup.1).2.2.2.2 (Shape.root?_mem e.symm) (Shape.root?_mem hr)
  have top : T.root? ≠ t.root := by
    obtain ⟨q, hq, mem⟩ := plug_root?_mem f k T
    rw [h.root, hq]
    intro e
    exact List.disjoint_left.1 (plug_nodup.1 h.nodup).2.2 (Shape.root?_mem e) mem
  have side : (if (f.record (Path.parent? k) T.root?).rbLeft = T.root? then Side.left else .right) = f.side := by
    unfold Frame.record
    cases f.side <;> simp [apart]
  constructor
  · intro node parent t' run
    simp [rbEraseColorLoop, RbTree.isBlack, h.isRed, black, top, RbTree.node_of h.heap_parent, side, run]
  · intro node t' run
    simp [rbEraseColorLoop, RbTree.isBlack, h.isRed, black, top, RbTree.node_of h.heap_parent, side, run]

/-- The order of the labels does not depend on colours. -/
theorem fill_toList (s : Side) (c c' : Color) (p o : Ptr) (inner outer T : Shape Ptr) (co co' : Color) :
    ((Frame.mk s c p ((Frame.mk s co o outer).fill inner)).fill T).toList =
      ((Frame.mk s c' p ((Frame.mk s co' o outer).fill inner)).fill T).toList := by
  cases s <;> simp

/-- A turn of the repair of `T` goes on at the parent, the root of `S`, which is short in turn. -/
structure HandsUp (s : Side) (p : Ptr) (c : Color) (sib : Shape Ptr) (t t' : RbTree) (k : Path Ptr) (T S : Shape Ptr)
    (b : Nat) : Prop where
  run : rbEraseColorSide s p t = .ok (.again (some p) (Path.parent? k), t')
  next : t'.next = t.next
  rep : Rep t' (plug k S)
  order : (plug k S).toList = (plug (⟨s, c, p, sib⟩ :: k) T).toList
  repairs : ∀ T', Repaired k S T' → Repaired (⟨s, c, p, sib⟩ :: k) T T'
  short : S.Short b
  path : Path.Balanced k (b + 1)
  top : S.root? = some p
  red : c = .red → S.isRed

/-- A turn of the repair of `T` mends the tree. -/
structure Mends (s : Side) (p : Ptr) (t t' : RbTree) (K : Path Ptr) (T S : Shape Ptr) : Prop where
  run : rbEraseColorSide s p t = .ok (.stop t'.root, t')
  next : t'.next = t.next
  rep : Rep t' S
  order : S.toList = (plug K T).toList
  repairs : Repaired K T S.blacken
  balanced : ∃ n, S.Balanced n

/-- **A turn of the repair** with a black sibling. -/
theorem eraseColorSide_black {s : Side} {c : Color} {p o : Ptr} {inner outer T : Shape Ptr} {b : Nat}
    (h : Rep t (plug (⟨s, c, p, (Frame.mk s .black o outer).fill inner⟩ :: k) T)) (black : T.isRed = false)
    (short : T.Short b) (hk : Path.Balanced (⟨s, c, p, (Frame.mk s .black o outer).fill inner⟩ :: k) (b + 1)) :
    (∃ t' S b', HandsUp s p c ((Frame.mk s .black o outer).fill inner) t t' k T S b') ∨
      ∃ t' S, Mends s p t t' (⟨s, c, p, (Frame.mk s .black o outer).fill inner⟩ :: k) T S := by
  have height := hk.1
  cases ho : outer.isRed with
  | true =>
    obtain ⟨t', run, next, h'⟩ := h.eraseColorSide_outer ho
    refine .inr ⟨t', _, run, next, h', ?_, .outer, mend_outer short black height ho hk⟩
    apply plug_congr
    cases s <;> simp
  | false =>
    cases hi : inner.isRed with
    | true =>
      obtain ⟨i, far, near, rfl⟩ := Shape.exists_fill_red hi s
      obtain ⟨t', run, next, h'⟩ := h.eraseColorSide_inner ho
      -- the repair is that of the sibling after its rotation
      have height' := turn_inner height ho
      have mended := mend_outer short black height' Frame.isRed_fill_red (hk.sibling height' Frame.isRed_fill_black)
      rw [Frame.blacken_fill] at mended
      refine .inr ⟨t', _, run, next, h', ?_, .inner, mended⟩
      apply plug_congr
      cases s <;> simp
    | false =>
      obtain ⟨t', run, next, h'⟩ := h.eraseColorSide_up hi ho
      refine .inl ⟨t', _, if c = .red then b else b + 1, run, next, h', plug_congr (fill_toList ..), fun _ => .up,
        short_up short black height hi ho, ?_, Frame.fill_root? _ _, ?_⟩
      · cases c with
        | red => exact hk.2.2.2
        | black => exact hk.2
      · rintro rfl
        exact Frame.isRed_fill_red

/-- A red sibling: the turn ends the repair, or the next one finds the parent red. -/
theorem eraseColorLoop_redSibling {s : Side} {c : Color} {p o : Ptr} {inner outer T : Shape Ptr} {b : Nat}
    (h : Rep t (plug (⟨s, c, p, (Frame.mk s .red o outer).fill inner⟩ :: k) T)) (color : T.isRed = false)
    (root : Path.BlackRoot (⟨s, c, p, (Frame.mk s .red o outer).fill inner⟩ :: k))
    (hk : Path.Balanced (⟨s, c, p, (Frame.mk s .red o outer).fill inner⟩ :: k) (b + 1)) (short : T.Short b) (n : Nat) :
    ∃ k' S t', rbEraseColorLoop (n + 2) T.root? (some p) t = .ok (S.root?, t') ∧ t'.next = t.next ∧
      Rep t' (plug k' S) ∧
      (plug k' S).toList = (plug (⟨s, c, p, (Frame.mk s .red o outer).fill inner⟩ :: k) T).toList ∧
      (plug k' S.blacken).RedBlack ∧
      Repaired (⟨s, c, p, (Frame.mk s .red o outer).fill inner⟩ :: k) T (plug k' S.blacken) := by
  have some_ : (Frame.mk s .red o outer).fill inner ≠ .nil := by
    cases s <;> simp
  obtain ⟨again, stop⟩ := h.eraseColorLoop_turn color some_ (n + 1)
  obtain ⟨hi, hk'⟩ := turn_red hk
  obtain ⟨i, far, near, rfl⟩ : ∃ i far near, inner = (Frame.mk s .black i far).fill near := by
    have tall := hk'.1
    obtain ⟨ci, i, far, near, rfl⟩ := Shape.exists_fill (t := inner) (by rintro rfl; cases tall) s
    cases ci with
    | red => simp at hi
    | black => exact ⟨i, far, near, rfl⟩
  obtain ⟨t₀, same, next₀, h₀⟩ := h.eraseColorSide_red
  have order₀ : (plug (⟨s, .red, p, (Frame.mk s .black i far).fill near⟩ :: ⟨s, .black, o, outer⟩ :: k) T).toList =
      (plug (⟨s, c, p, (Frame.mk s .red o outer).fill ((Frame.mk s .black i far).fill near)⟩ :: k) T).toList := by
    show (plug k _).toList = (plug k _).toList
    apply plug_congr
    cases s <;> simp
  rcases h₀.eraseColorSide_black color short hk' with ⟨t₁, S, b', up⟩ | ⟨t₁, S, mends⟩
  · -- the parent is red, so the next turn is the last
    have red := up.red rfl
    have last := up.rep.eraseColorLoop_red red (Path.parent? (⟨s, .black, o, outer⟩ :: k)) n
    rw [up.top] at last
    have root' : Path.BlackRoot (⟨s, .black, o, outer⟩ :: k) := by
      cases k with
      | nil => rfl
      | cons g k => exact root.tail
    refine ⟨_, S, t₁, ?_, by rw [up.next, next₀], up.rep, up.order.trans order₀,
      plug_redBlack root' (Shape.isRed_blacken S) (up.short.of_red red) up.path, .turn (up.repairs _ (.red red))⟩
    rw [again _ _ _ (same.trans up.run), up.top, last]
  · obtain ⟨m, hm⟩ := mends.balanced
    refine ⟨[], S, t₁, ?_, by rw [mends.next, next₀], mends.rep, mends.order.trans order₀,
      ⟨Shape.blackRoot_blacken S, _, hm.blacken⟩, .turn mends.repairs⟩
    rw [stop _ _ (same.trans mends.run), mends.rep.root]

/-- **The repair loop** of `__rb_erase_color`, started at a place that is short by one black node, keeps the order of
the labels and leaves a tree that is red-black once the node where it ends is black. -/
theorem eraseColorLoop (n : Nat) : ∀ {t : RbTree} {k : Path Ptr} {T : Shape Ptr} {b : Nat}, Rep t (plug k T) →
    k.BlackRoot → Path.Balanced k (b + 1) → T.Short b → k.length < n →
    ∃ k' S t', rbEraseColorLoop n T.root? (Path.parent? k) t = .ok (S.root?, t') ∧ t'.next = t.next ∧
      Rep t' (plug k' S) ∧ (plug k' S).toList = (plug k T).toList ∧ (plug k' S.blacken).RedBlack ∧
      Repaired k T (plug k' S.blacken) := by
  induction n with
  | zero => intro _ _ _ _ _ _ _ _ hn; omega
  | succ n ih =>
    intro t k T b h root hk short hn
    cases color : T.isRed with
    | true =>
      exact ⟨k, T, t, h.eraseColorLoop_red color _ n, rfl, h, rfl,
        plug_redBlack root (Shape.isRed_blacken T) (short.of_red color) hk, .red color⟩
    | false =>
      cases k with
      | nil =>
        refine ⟨[], T, t, ?_, rfl, h, rfl, ⟨Shape.blackRoot_blacken T, _, (short.of_black color).blacken⟩, .root⟩
        have top : t.root = T.root? := h.root
        simp [rbEraseColorLoop, RbTree.isBlack, Rep.isRed (k := []) h, top]
      | cons f k =>
        obtain ⟨s, c, p, sib⟩ := f
        have height : sib.Balanced (b + 1) := hk.1
        have some_ : sib ≠ .nil := by
          rintro rfl
          cases height
        obtain ⟨again, stop⟩ := h.eraseColorLoop_turn color some_ n
        have parent : Path.parent? (⟨s, c, p, sib⟩ :: k) = some p := rfl
        rw [parent]
        obtain ⟨co, o, outer, inner, rfl⟩ := Shape.exists_fill some_ s
        cases co with
        | black =>
          rcases h.eraseColorSide_black color short hk with ⟨t₁, S, b', up⟩ | ⟨t₁, S, mends⟩
          · obtain ⟨k', S', t', run, next, h', order, rb, repaired⟩ :=
              ih up.rep root.tail up.path up.short (by simp at hn; omega)
            rw [up.top] at run
            exact ⟨k', S', t', (again _ _ _ up.run).trans run, by rw [next, up.next], h', order.trans up.order, rb,
              up.repairs _ repaired⟩
          · obtain ⟨m, hm⟩ := mends.balanced
            refine ⟨[], S, t₁, ?_, mends.next, mends.rep, mends.order, ⟨Shape.blackRoot_blacken S, _, hm.blacken⟩,
              mends.repairs⟩
            rw [stop _ _ mends.run, mends.rep.root]
        | red =>
          obtain ⟨m, rfl⟩ : ∃ m, n = m + 1 := ⟨n - 1, by simp at hn; omega⟩
          exact h.eraseColorLoop_redSibling color root hk short m

/-! ## The removal -/

/-- The code of `rb_erase` for a node with one child at most. -/
theorem erase_splice {s : Side} {c : Color} {p : Ptr} {u : Shape Ptr}
    (h : Rep t (plug k ((Frame.mk s c p .nil).fill u))) : ∃ t₂, t₂.next = t.next ∧ Rep t₂ (plug k u) ∧
      rbErase p t = if c = .black then rbEraseColor u.root? (Path.parent? k) t₂ else .ok t₂ := by
  obtain ⟨t₁, t₂, run₁, run₂, next, h₂⟩ := h.splice
  refine ⟨t₂, next, h₂, ?_⟩
  obtain ⟨hp, -, -⟩ := Frame.fill_at _ _ |>.1 h.node_of.2
  cases s <;> cases hu : u.root? <;>
    simp_all [rbErase, RbTree.node_of hp, Frame.record]

/-- `__rb_erase_color` at a place that is short by one black node. -/
theorem eraseColor {T : Shape Ptr} {b : Nat} (h : Rep t (plug k T)) (root : k.BlackRoot)
    (hk : Path.Balanced k (b + 1)) (short : T.Short b) : ∃ t' T', rbEraseColor T.root? (Path.parent? k) t = .ok t' ∧
      t'.next = t.next ∧ Rep t' T' ∧ T'.toList = (plug k T).toList ∧ T'.RedBlack ∧ Repaired k T T' := by
  obtain ⟨k', S, t₁, run, next, h', order, rb, repaired⟩ := eraseColorLoop (t.next + 1) h root hk short
    (Nat.lt_succ_of_le h.path_length_le)
  cases hS : S.root? with
  | none =>
    obtain rfl : S = .nil := by
      cases S with
      | nil => rfl
      | node => cases hS
    exact ⟨t₁, plug k' .nil, by rw [rbEraseColor, run, ok_bind]; rfl, next, h', order, rb, repaired⟩
  | some q =>
    obtain ⟨t', run', next', hb⟩ := h'.setBlack hS
    refine ⟨t', plug k' S.blacken, ?_, by rw [next', next], hb, ?_, rb, repaired⟩
    · rw [rbEraseColor, run, ok_bind, hS]
      exact run'
    · rw [← order]
      exact plug_congr S.blacken_toList

/-- The repair after a node with nothing on one side has left its place to `T`. -/
theorem eraseColor_after {s : Side} {c : Color} {p : Ptr} {T : Shape Ptr} {n : Nat} (h : Rep t (plug k T))
    (root : k.BlackRoot) (hk : Path.Balanced k n) (bal : ((Frame.mk s c p .nil).fill T).Balanced n)
    {out : Outcome RbTree} (run : out = if c = .black then rbEraseColor T.root? (Path.parent? k) t else .ok t) :
    ∃ t' T', out = .ok t' ∧ t'.next = t.next ∧ Rep t' T' ∧ T'.toList = (plug k T).toList ∧ T'.RedBlack ∧
      (T' = plug k T ∨ Repaired k T T') := by
  cases c with
  | red =>
    -- a red node with a missing child is a leaf
    obtain ⟨black, -, bT, leaf⟩ := Frame.balanced_red.1 bal
    obtain rfl := Shape.balanced_nil.1 leaf
    obtain rfl := bT.eq_nil black
    exact ⟨t, plug k .nil, run, rfl, h, rfl, plug_redBlack root rfl .nil hk, .inl rfl⟩
  | black =>
    obtain ⟨m, rfl, bT, leaf⟩ := Frame.balanced_black.1 bal
    obtain rfl := Shape.balanced_nil.1 leaf
    rw [if_pos rfl] at run
    obtain ⟨t', T', run', next, h', order, rb, repaired⟩ := h.eraseColor root hk bT.short
    exact ⟨t', T', run.trans run', next, h', order, rb, .inr repaired⟩

/-- **`rb_erase`** of a node with one child at most takes its address out of the in-order list. -/
theorem erase {s : Side} {c : Color} {p : Ptr} {u : Shape Ptr} (h : Rep t (plug k ((Frame.mk s c p .nil).fill u)))
    (rb : (plug k ((Frame.mk s c p .nil).fill u)).RedBlack) :
    ∃ t' T', rbErase p t = .ok t' ∧ t'.next = t.next ∧ Rep t' T' ∧ T'.toList = (plug k u).toList ∧ T'.RedBlack := by
  obtain ⟨t₂, next, h₂, run⟩ := h.erase_splice
  obtain ⟨n, bal, hk, -⟩ := plug_balanced.1 rb.balanced
  obtain ⟨t', T', run', next', h', order, rb', -⟩ := h₂.eraseColor_after (plug_blackRoot_path rb.black) hk bal run
  exact ⟨t', T', run', next'.trans next, h', order, rb'⟩

end Rep

end CodeBackup.Rbtree
