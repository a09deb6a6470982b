import CodeBackup.ColorTree.Augment
import CodeBackup.Rbtree.Ordered

/-!
# The augmented tree

A caller of `rbtree.c` can keep a value at every node that `func` computes from
the node and its children. It calls `rb_augment_insert` after an insertion, and
`rb_augment_erase_begin` and `rb_augment_erase_end` around a removal. Each walks
up to the root, and calls `func` for every node on its way and for the other
child of each parent. That is enough: what the repairs have left wrong is on
that way or beside it (`rebalance_focus`, `removed_focus`), so in every run the
values are those of the tree (`augmentRun_augmented`).
-/

namespace CodeBackup.ColorTree

variable {α β : Type} {f : α → Option β → Option β → β} {a : α → β}

/-- The values below a vacated place, and those beside the path to it, were right before. -/
theorem Vacated.augmented {k K : Path α} {c : Color} {l r u : Shape α} {p : α} (h : Vacated k c l r K u)
    (aug : (plug k (.node c l p r)).Augmented f a) : u.Augmented f a ∧ Path.Augmented f a K := by
  obtain ⟨own, beside⟩ := plug_augmented aug
  cases h with
  | left => exact ⟨own.2.1, beside⟩
  | right => exact ⟨own.1, beside⟩
  | @successor _ _ k₂ cm m _ down =>
    obtain ⟨place, path⟩ := plug_augmented own.2.1
    refine ⟨place.2.1, fun g mem => ?_⟩
    rcases List.mem_append.1 mem with mem | mem
    · exact path g mem
    · rcases List.mem_cons.1 mem with rfl | mem
      · exact own.1
      · exact beside g mem

theorem Path.Nearly.congr {β : Type} {f : Rbtree.Ptr → Option β → Option β → β} {a a' : Rbtree.Ptr → β}
    {k : Path Rbtree.Ptr} (h : Path.Nearly f a k) (same : ∀ p ∈ Path.labels k, a' p = a p) : Path.Nearly f a' k := by
  induction k with
  | nil => simp [Path.Nearly]
  | cons g k ih =>
    simp only [Path.mem_labels_cons] at same
    intro g' mem
    rcases List.mem_cons.1 mem with rfl | mem
    · exact (h g' (by simp)).congr fun p hp => same p (.inr (.inl hp))
    · exact ih (fun g' mem => h g' (by simp [mem])) (fun p hp => same p (.inr (.inr hp))) g' mem

end CodeBackup.ColorTree

namespace CodeBackup.Rbtree

open C C.Outcome ColorTree Run

variable {β : Type} (f : Ptr → Option β → Option β → β)

/-- The callback that computes the value of a node from those of its children. -/
def recompute : RbAugmentF (Ptr → β) := fun node t a => do
  let n ← t.node node
  .ok (Function.update a node (f node (n.rbLeft.map a) (n.rbRight.map a)))

/-! ## The way up -/

namespace Rep

variable {f} {t : RbTree} {k : Path Ptr} {c : Color} {l r : Shape Ptr} {p : Ptr} {a : Ptr → β}

/-- **The callback** on a node whose children have their values. -/
theorem recompute (h : Rep t (plug k (.node c l p r))) (nearly : (Shape.node c l p r).Nearly f a) :
    ∃ a', recompute f p t a = .ok a' ∧ (Shape.node c l p r).Augmented f a' ∧ ∀ q, q ≠ p → a' q = a q := by
  obtain ⟨pl, pr, -⟩ := h.node_apart
  refine ⟨_, ?_, nearly.update pl pr, fun q hq => Function.update_of_ne hq _ _⟩
  rw [Rbtree.recompute, RbTree.node_of h.heap_self, ok_bind]

/-- A value that is right stays. -/
theorem recompute_self (h : Rep t (plug k (.node c l p r))) (aug : (Shape.node c l p r).Augmented f a) :
    Rbtree.recompute f p t a = .ok a := by
  rw [Rbtree.recompute, RbTree.node_of h.heap_self, ok_bind]
  exact congrArg Except.ok (Function.update_eq_self_iff.2 aug.2.2.symm)

/-- **The other child** of the parent gets its value. -/
theorem recompute_beside {g : Frame Ptr} (h : Rep t (plug (g :: k) (.node c l p r)))
    (own : (Shape.node c l p r).Augmented f a) (beside : g.sibling.Nearly f a) {left right : Option Ptr}
    (hl : left = (g.record (Path.parent? k) (some p)).rbLeft)
    (hr : right = (g.record (Path.parent? k) (some p)).rbRight) :
    ∃ a', (∀ rest : (Ptr → β) → Outcome (Ptr → β),
        (if left = some p ∧ right.isSome then deref right >>= fun q => Rbtree.recompute f q t a >>= rest
          else if left.isSome then deref left >>= fun q => Rbtree.recompute f q t a >>= rest else rest a) = rest a') ∧
      (Shape.node c l p r).Augmented f a' ∧ g.sibling.Augmented f a' ∧ ∀ q ∈ Path.labels k, a' q = a q := by
  have nodup := plug_nodup.1 (show (plug k (g.fill (.node c l p r))).toList.Nodup from h.nodup)
  have apart := (Frame.fill_nodup g |>.1 nodup.1).2.2.2.2
  have sibling := h.sibling
  subst hl hr
  obtain ⟨s, gc, y, sib⟩ := g
  cases sib with
  | nil =>
    refine ⟨a, fun rest => ?_, own, trivial, fun _ _ => rfl⟩
    cases s with
    | left => simp [Frame.record, h.recompute_self own]
    | right => simp [Frame.record]
  | node cs ls q rs =>
    obtain ⟨a', run, aug, same⟩ := sibling.recompute beside
    have other : ∀ x, x ∈ (Shape.node c l p r).toList → x ≠ q := fun x hx e =>
      List.disjoint_left.1 apart hx (e ▸ by simp)
    have outside : ∀ x ∈ Path.labels k, x ≠ q := fun x hx e =>
      List.disjoint_left.1 nodup.2.2 (Frame.mem_fill _ |>.2 (.inr (.inr (e ▸ by simp)))) hx
    refine ⟨a', fun rest => ?_, own.congr fun x hx => same x (other x hx), aug, fun x hx => same x (outside x hx)⟩
    cases s with
    | left => simp [Frame.record, run]
    | right =>
      have ne : q ≠ p := (other p (by simp)).symm
      simp [Frame.record, ne, run]

/-- **`rb_augment_path`** makes all values right, if only those on the way up were wrong and those at the roots beside
it. -/
theorem augmentPathLoop {n : Nat} : ∀ {k : Path Ptr} {c : Color} {l r : Shape Ptr} {p : Ptr} {a : Ptr → β},
    Rep t (plug k (.node c l p r)) → (Shape.node c l p r).Nearly f a → Path.Nearly f a k → k.length < n →
    ∃ a', rbAugmentPathLoop (Rbtree.recompute f) n p t a = .ok a' ∧ (plug k (.node c l p r)).Augmented f a' := by
  induction n with
  | zero => intro _ _ _ _ _ _ _ _ _ hn; omega
  | succ n ih =>
    intro k c l r p a h nearly beside hn
    obtain ⟨a₁, run₁, own, same₁⟩ := h.recompute nearly
    cases k with
    | nil => exact ⟨a₁, by simp [rbAugmentPathLoop, run₁, RbTree.node_of h.heap_self], own⟩
    | cons g k =>
      obtain ⟨-, -, pk, -⟩ := h.node_apart
      have off : ∀ x ∈ Path.labels (g :: k), x ≠ p := fun x hx e => pk (e ▸ hx)
      have sib : g.sibling.Nearly f a₁ := (beside g (by simp)).congr fun x hx =>
        same₁ x (off x (Path.mem_labels_cons.2 (.inr (.inl hx))))
      obtain ⟨a₂, run₂, own₂, sib₂, same₂⟩ := h.recompute_beside own sib rfl rfl
      obtain ⟨left, right, e⟩ : ∃ left right, g.fill (.node c l p r) = .node g.color left g.label right := by
        obtain ⟨s, gc, y, gsib⟩ := g
        cases s <;> exact ⟨_, _, rfl⟩
      have up : Rep t (plug k (.node g.color left g.label right)) := e ▸ h
      have nearly' : (Shape.node g.color left g.label right).Nearly f a₂ := e ▸ Shape.fill_nearly.2 ⟨own₂, sib₂⟩
      have beside' : Path.Nearly f a₂ k :=
        Path.Nearly.congr (fun g' mem => beside g' (List.mem_cons_of_mem _ mem)) fun x hx => by
          rw [same₂ x hx, same₁ x (off x (Path.mem_labels_cons.2 (.inr (.inr hx))))]
      obtain ⟨a', run', aug⟩ := ih up nearly' beside' (by simp at hn; omega)
      refine ⟨a', ?_, by rw [plug_cons, e]; exact aug⟩
      simp only [rbAugmentPathLoop, run₁, ok_bind, RbTree.node_of h.heap_self, RbTree.node_of h.heap_parent,
        Path.parent?_cons, Shape.root?_node]
      rw [run₂, run']

theorem augmentPath (h : Rep t (plug k (.node c l p r))) (nearly : (Shape.node c l p r).Nearly f a)
    (beside : Path.Nearly f a k) :
    ∃ a', rbAugmentPath (Rbtree.recompute f) p t a = .ok a' ∧ (plug k (.node c l p r)).Augmented f a' :=
  h.augmentPathLoop nearly beside (Nat.lt_succ_of_le h.path_length_le)

/-- The way up from a place. -/
theorem augmentPath_of {T : Shape Ptr} {q : Ptr} (h : Rep t T) (focus : T.Focus f a (Shape.Starts f a q)) :
    ∃ a', rbAugmentPath (Rbtree.recompute f) q t a = .ok a' ∧ T.Augmented f a' := by
  obtain ⟨k, u, rfl, beside, root, nearly⟩ := focus.exists_plug
  cases u with
  | nil => cases root
  | node c l p r =>
    obtain rfl : p = q := by simpa using root
    exact h.augmentPath nearly beside

/-- **`rb_augment_insert`** after the repair. -/
theorem augmentInsert {T : Shape Ptr} (h : Rep t T) (focus : T.Focus f a (Shape.Linked f a p)) :
    ∃ a', rbAugmentInsert (Rbtree.recompute f) p t a = .ok a' ∧ T.Augmented f a' := by
  obtain ⟨k, u, rfl, beside, linked⟩ := focus.exists_plug
  cases linked with
  | @leaf c =>
    rw [rbAugmentInsert, RbTree.node_of h.heap_self, ok_bind]
    exact h.augmentPath ⟨trivial, trivial⟩ beside
  | @above c l r some_ left right =>
    obtain ⟨cl, q, sib, v, rfl⟩ := Shape.exists_fill some_ .left
    rw [rbAugmentInsert, RbTree.node_of h.heap_self, ok_bind]
    have view : Rep t (plug (⟨.left, c, p, r⟩ :: k) (.node cl v q sib)) := h
    refine view.augmentPath left fun g mem => ?_
    rcases List.mem_cons.1 mem with rfl | mem
    · exact right
    · exact beside g mem

/-- **`rb_augment_erase_begin`** finds what will take the place that is vacated, or the parent there if nothing will. -/
theorem augmentEraseBegin {u : Shape Ptr} {K : Path Ptr} (h : Rep t (plug k (.node c l p r)))
    (vacated : Vacated k c l r K u) : rbAugmentEraseBegin p t = .ok (u.root?.or (Path.parent? K)) := by
  rw [rbAugmentEraseBegin, RbTree.node_of h.heap_self, ok_bind]
  cases vacated with
  | left => cases r <;> simp
  | right some_ =>
    obtain ⟨cl, q, sib, v, rfl⟩ := Shape.exists_fill some_ .left
    simp
  | @successor _ _ k₂ cm m some_ down =>
    obtain ⟨cl, q, sib, v, rfl⟩ := Shape.exists_fill some_ .left
    have right : (plug k₂ (.node cm .nil m u)).root? ≠ none := by
      cases k₂ with
      | nil => simp
      | cons g k₂ =>
        obtain ⟨b, hb, -⟩ := plug_root?_mem g k₂ (.node cm .nil m u)
        rw [hb]
        simp
    have order : (plug k (.node c ((Frame.mk .left cl q sib).fill v) p (plug k₂ (.node cm .nil m u)))).toList =
        (k.before ++ ((Frame.mk .left cl q sib).fill v).toList) ++ p :: m :: (u.toList ++ k₂.after ++ k.after) := by
      simp [plug_toList, down.before]
    have next := h.next_of order
    have view : Rep t (plug (k₂ ++ ⟨.right, c, p, (Frame.mk .left cl q sib).fill v⟩ :: k) (.node cm .nil m u)) := by
      rw [plug_append]
      exact h
    simp only [right, false_and, if_false, Frame.fill_root?, reduceCtorEq, next, ok_bind, List.head?_cons, deref_some,
      RbTree.node_of view.heap_self]
    cases u with
    | node cu lu b ru => simp
    | nil =>
      cases k₂ with
      | nil => simp
      | cons g k₂ =>
        have ne : g.label ≠ p := fun e => by
          obtain ⟨-, pr, -⟩ := h.node_apart
          exact pr (mem_plug.2 (.inr (Path.mem_labels_cons.2 (.inl e.symm))))
        simp [ne]

/-- **`rb_augment_erase_end`** after the repair. -/
theorem augmentEraseEnd {T : Shape Ptr} (h : Rep t T) {deepest : Option Ptr}
    (focus : ∀ q, deepest = some q → T.Focus f a (Shape.Starts f a q)) (empty : deepest = none → T = .nil) :
    ∃ a', rbAugmentEraseEnd (Rbtree.recompute f) deepest t a = .ok a' ∧ T.Augmented f a' := by
  cases deepest with
  | none =>
    obtain rfl := empty rfl
    exact ⟨a, rfl, trivial⟩
  | some q => exact h.augmentPath_of (focus q rfl)

end Rep

/-! ## Calls -/

/-- What a caller does that keeps values: a new node is linked at a pointer, or a node is erased. -/
inductive AugmentCall where
  | insert (link : Link)
  | erase (node : Ptr)
  deriving DecidableEq, Repr

/-- The call on the tree alone. -/
def AugmentCall.treeCall : AugmentCall → TreeCall
  | .insert link => .insert link
  | .erase node => .erase node

/-- The code of a call. -/
def AugmentCall.code {σ : Type} (func : RbAugmentF σ) : AugmentCall → RbTree → σ → Outcome (RbTree × σ)
  | .insert link, t, data => do
    let node := t.next
    let t ← rbLinkNode node link.parent? link { t with next := t.next + 1 }
    let t ← rbInsertColor node t
    let data ← rbAugmentInsert func node t data
    .ok (t, data)
  | .erase node, t, data => do
    let deepest ← rbAugmentEraseBegin node t
    let t ← rbErase node t
    let data ← rbAugmentEraseEnd func deepest t data
    .ok ({ t with heap := Function.update t.heap node none }, data)

/-- A call on the tree and the values, with the list of the nodes kept beside them. -/
def AugmentCall.step {σ : Type} (func : RbAugmentF σ) (c : AugmentCall) (s : (RbTree × List Ptr) × σ) :
    Outcome ((RbTree × List Ptr) × σ) := do
  let (t, data) ← c.code func s.1.1 s.2
  .ok ((t, c.treeCall.edit s.1.1.next s.1.2), data)

/-- What the code relies on. -/
def AugmentCall.Allowed {σ : Type} (c : AugmentCall) (s : (RbTree × List Ptr) × σ) : Prop := c.treeCall.Allowed s.1

instance {σ : Type} (c : AugmentCall) (s : (RbTree × List Ptr) × σ) : Decidable (c.Allowed s) :=
  inferInstanceAs (Decidable (c.treeCall.Allowed s.1))

/-- The tree in memory has the nodes of the list, is red-black, and has its values. -/
def Carries (t : RbTree) (l : List Ptr) (a : Ptr → β) : Prop :=
  ∃ T, Rep t T ∧ T.toList = l ∧ T.RedBlack ∧ T.Augmented f a

namespace Carries

variable {f} {t : RbTree} {l : List Ptr} {a : Ptr → β}

/-- **An insertion**, and the way up from the new node. -/
theorem insert (h : Carries f t l a) {link : Link} (allowed : (TreeCall.insert link).Allowed (t, l)) :
    ∃ t' a', (AugmentCall.insert link).code (recompute f) t a = .ok (t', a') ∧
      Carries f t' ((TreeCall.insert link).edit t.next l) a' := by
  obtain ⟨T, rep, rfl, rb, aug⟩ := h
  obtain ⟨k, rfl, rfl, order⟩ := rep.exists_link allowed
  obtain ⟨t₁, t₂, link, color, rep₂, order₂, rb₂⟩ := rep.insert_new rb
  have focus := (rebalance_focus (p := t.next) (.leaf (c := .red)) (plug_augmented aug).2).blacken
    fun _ => Shape.Linked.blacken
  obtain ⟨a', up, aug'⟩ := rep₂.augmentInsert focus
  refine ⟨t₂, a', ?_, _, rep₂, order₂.trans order.symm, rb₂, aug'⟩
  simp only [AugmentCall.code]
  rw [link, ok_bind, color, ok_bind, up, ok_bind]

/-- **A removal**, and the way up from the place that it has vacated. -/
theorem erase (h : Carries f t l a) {p : Ptr} (mem : p ∈ l) :
    ∃ t' a', (AugmentCall.erase p).code (recompute f) t a = .ok (t', a') ∧
      Carries f t' ((TreeCall.erase p).edit t.next l) a' := by
  obtain ⟨T, rep, rfl, rb, aug⟩ := h
  obtain ⟨xs, ys, order⟩ := List.append_of_mem mem
  have nodup := rep.nodup
  rw [order, List.nodup_middle, List.nodup_cons] at nodup
  obtain ⟨k, c, left, right, e, before, after⟩ := exists_plug order []
  obtain rfl : T = plug k (.node c left p right) := e
  simp only [Path.before_nil, Path.after_nil, List.nil_append, List.append_nil] at before after
  obtain ⟨K, u, vacated⟩ := exists_vacated k c left right
  obtain ⟨t', T', run, -, rep', order', rb', repaired⟩ := rep.remove_at rb vacated
  have start := rep.augmentEraseBegin vacated
  obtain ⟨own, beside⟩ := vacated.augmented aug
  have empty : u.root?.or (Path.parent? K) = none → T' = .nil := by
    intro none_
    cases u with
    | node => simp at none_
    | nil =>
      cases K with
      | cons => simp at none_
      | nil =>
        cases T' with
        | nil => rfl
        | node => simp at order'
  obtain ⟨a', up, aug'⟩ := rep'.augmentEraseEnd (fun q => removed_focus own beside repaired) empty
  rw [vacated.toList, before, after] at order'
  refine ⟨_, a', ?_, T', rep'.forget (order' ▸ nodup.1), ?_, rb', aug'⟩
  · simp only [AugmentCall.code]
    rw [start, ok_bind, run, ok_bind, up, ok_bind]
  · rw [order', TreeCall.edit, order, List.erase_append_right _ fun hp => nodup.1 (by simp [hp]), List.erase_cons_head]

/-- **A call** keeps the values of the tree. -/
theorem step (h : Carries f t l a) (c : AugmentCall) (allowed : c.Allowed ((t, l), a)) :
    ∃ s, c.step (recompute f) ((t, l), a) = .ok s ∧ Carries f s.1.1 s.1.2 s.2 := by
  obtain ⟨t', a', run, h'⟩ : ∃ t' a', c.code (recompute f) t a = .ok (t', a') ∧
      Carries f t' (c.treeCall.edit t.next l) a' := by
    cases c with
    | insert link => exact h.insert allowed
    | erase p => exact h.erase allowed
  exact ⟨_, by rw [AugmentCall.step, run, ok_bind], h'⟩

end Carries

/-- **Augmented trees.** Take any function that computes the value of a node from those of its children. In every run of
insertions at empty pointers and removals, each with its calls of `rb_augment_insert`, or of `rb_augment_erase_begin` and
`rb_augment_erase_end`, no call faults, and the value of every node is the one computed from its children: whatever the
rotations have moved, and whatever stood at the new nodes before. -/
theorem augmentRun_augmented {a₀ : Ptr → β} {cs : List AugmentCall}
    (allowed : Meets (AugmentCall.step (recompute f)) AugmentCall.Allowed cs ((.empty, []), a₀)) :
    ∃ t l a, run (AugmentCall.step (recompute f)) cs ((.empty, []), a₀) = .ok ((t, l), a) ∧
      ∃ T, Rep t T ∧ T.toList = l ∧ T.RedBlack ∧ T.Augmented f a := by
  have keep : ∀ (c : AugmentCall) (s : (RbTree × List Ptr) × (Ptr → β)), Carries f s.1.1 s.1.2 s.2 → c.Allowed s →
      ∃ s', c.step (recompute f) s = .ok s' ∧ Carries f s'.1.1 s'.1.2 s'.2 := fun c s h hc => h.step c hc
  have start : Carries f .empty [] a₀ := ⟨.nil, .empty, rfl, Shape.redBlack_nil, trivial⟩
  obtain ⟨⟨⟨t, l⟩, a⟩, ret, h⟩ := run_total keep start allowed
  exact ⟨t, l, a, ret, h⟩

/-- The number of nodes below a node, itself included. -/
def subtreeSize (_ : Ptr) (left right : Option Nat) : Nat := left.getD 0 + right.getD 0 + 1

/-- The sizes of the subtrees, in a run with a removal of the root. -/
theorem augmentRun_augmented_sizes : ∃ t l a, run (AugmentCall.step (recompute subtreeSize))
    [.insert .root, .insert (.child 0 .left), .insert (.child 0 .right), .insert (.child 2 .left),
      .insert (.child 2 .right), .erase 0] ((.empty, []), fun _ => 0) = .ok ((t, l), a) ∧
      ∃ T, Rep t T ∧ T.toList = l ∧ T.RedBlack ∧ T.Augmented subtreeSize a :=
  augmentRun_augmented subtreeSize (by decide)

end CodeBackup.Rbtree
