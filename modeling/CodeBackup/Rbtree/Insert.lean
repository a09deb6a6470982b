import CodeBackup.Rbtree.Links

/-!
# Insertion

`rb_link_node` and `rb_insert_color` on a tree in memory. The link hangs a red
leaf at the end of the path of a search (`Rep.link`); the repair loop is
`rebalance` on that path (`Rep.insertColorLoop`), so the whole insertion keeps
the in-order addresses (`Rep.insertColor`). The loop reads the grandparent of a
node with a red parent: there is one because the root of the tree is black.
-/

namespace CodeBackup.Rbtree

open C C.Outcome ColorTree

/-- The pointer that holds the place at the end of a path. -/
def linkOf : Path Ptr → Link
  | [] => .root
  | f :: _ => .child f.label f.side

namespace Rep

variable {t : RbTree} {k : Path Ptr}

/-- More addresses have been handed out. -/
theorem grow {T : Shape Ptr} (h : Rep t T) {n : Ptr} (hn : t.next ≤ n) :
    Rep { t with next := n } T :=
  ⟨h.root, h.at_, h.nodup, fun p hp => Nat.lt_of_lt_of_le (h.bound p hp) hn⟩

/-- The pointer at the end of a path of a tree in memory. -/
theorem readLink {T : Shape Ptr} (h : Rep t (plug k T)) :
    t.readLink (linkOf k) = .ok T.root? := by
  obtain ⟨hk, -⟩ := h.node_of
  cases k with
  | nil => exact congrArg _ hk
  | cons f k => simp [linkOf, RbTree.readLink, RbTree.node_of hk.1]

/-- **A new red leaf** at the end of a path. -/
theorem link {p : Ptr} (h : Rep t (plug k .nil)) (fresh : p ∉ k.labels) (hp : p < t.next) :
    ∃ t', rbLinkNode p (Path.parent? k) (linkOf k) t = .ok t' ∧ t'.next = t.next ∧
      Rep t' (plug k (.node .red .nil p .nil)) := by
  obtain ⟨hk, -⟩ := h.node_of
  have hkn := (plug_nodup.1 h.nodup).2.1
  have ne : ∀ q ∈ Path.labels k, q ≠ p := fun q hq e => fresh (e ▸ hq)
  let t₁ := t.set p ⟨Path.parent? k, .red, none, none⟩
  have set_self : t₁.heap p = some ⟨Path.parent? k, .red, none, none⟩ := by simp [t₁, RbTree.set]
  have set_ne : ∀ q ∈ Path.labels k, t₁.heap q = t.heap q := fun q hq => by
    simp [t₁, RbTree.set, ne q hq]
  suffices ∃ t', t₁.writeLink (some p) (linkOf k) = .ok t' ∧ t'.next = t.next ∧
      Path.At t'.heap t'.root k (some p) ∧ t'.heap p = t₁.heap p by
    obtain ⟨t', run, next, hk', hp'⟩ := this
    obtain ⟨root, at_⟩ := (plug_at k (.node .red .nil p .nil)).2 ⟨hk', hp'.trans set_self, trivial, trivial⟩
    refine ⟨t', run, next, root, at_, ?_, ?_⟩
    · simpa [plug_nodup] using ⟨hkn, fresh⟩
    · intro q hq
      rw [next]
      rcases mem_plug.1 hq with hq | hq
      · rwa [show q = p by simpa using hq]
      · exact h.bound q (mem_plug.2 (.inr hq))
  cases k with
  | nil => exact ⟨_, rfl, rfl, rfl, rfl⟩
  | cons f k =>
    have hf : t₁.heap f.label = some (f.record (Path.parent? k) none) := by
      rw [set_ne _ (Path.mem_labels_cons.2 (.inl rfl))]; exact hk.1
    refine ⟨_, RbTree.setChild_of (by simp [hf]) f.side (some p), rfl, ?_, ?_⟩
    · refine hk.rehang hkn (by simp) (fun _ => rfl) ?_ ?_
      · rintro f' k' ⟨⟩
        simp [hf, Frame.record_setChild]
      · intro q hq hne
        have hne : f.label ≠ q := by simpa using hne
        simp [hne, set_ne q hq]
    · simp [ne f.label (Path.mem_labels_cons.2 (.inl rfl))]

/-! ## The repair loop -/

theorem heap_self {c : Color} {l r : Shape Ptr} {p : Ptr} (h : Rep t (plug k (.node c l p r))) :
    t.heap p = some ⟨Path.parent? k, c, r.root?, l.root?⟩ := h.node_of.2.1

theorem heap_parent {f : Frame Ptr} {T : Shape Ptr} (h : Rep t (plug (f :: k) T)) :
    t.heap f.label = some (f.record (Path.parent? k) T.root?) := h.node_of.1.1

/-- The colour test of a child pointer. -/
theorem isRed {T : Shape Ptr} (h : Rep t (plug k T)) : t.isRed T.root? = .ok T.isRed := by
  cases T with
  | nil => rfl
  | node c l p r =>
    simp only [Shape.root?_node, RbTree.isRed, RbTree.node_of h.heap_self, ok_bind]
    cases c <;> rfl

/-- The loop ends at a black parent. -/
theorem insertColorLoop_stop {f : Frame Ptr} {c : Color} {l r : Shape Ptr} {p : Ptr}
    (h : Rep t (plug (f :: k) (.node c l p r))) (black : f.color = .black) (n : Nat) :
    rbInsertColorLoop (n + 1) p t = .ok t := by
  simp [rbInsertColorLoop, RbTree.node_of h.heap_self, RbTree.node_of h.heap_parent, black]

/-- A tree seen from the sibling of a place. -/
theorem sibling {f : Frame Ptr} {T : Shape Ptr} (h : Rep t (plug (f :: k) T)) :
    Rep t (plug (⟨f.side.flip, f.color, f.label, T⟩ :: k) f.sibling) := by
  rw [plug_cons, Frame.fill_flip]
  exact h

/-- The colour of the parent changes. -/
theorem setColor_parent {f : Frame Ptr} {T : Shape Ptr} (h : Rep t (plug (f :: k) T)) (c : Color) :
    ∃ t', t.setColor f.label c = .ok t' ∧ t'.next = t.next ∧
      Rep t' (plug ({ f with color := c } :: k) T) := by
  obtain ⟨side, c', a, s⟩ := f
  cases side
  · exact Rep.setColor (k := k) h c
  · exact Rep.setColor (k := k) h c

/-- The colour of the root of a subtree becomes black. -/
theorem setBlack {T : Shape Ptr} (h : Rep t (plug k T)) {p : Ptr} (hp : T.root? = some p) :
    ∃ t', t.setColor p .black = .ok t' ∧ t'.next = t.next ∧ Rep t' (plug k T.blacken) := by
  cases T with
  | nil => simp at hp
  | node c l q r =>
    obtain rfl : q = p := by simpa using hp
    exact h.setColor .black

/-- A red uncle: the two parents' colours move up. -/
theorem insertColorSide_uncle {f g : Frame Ptr} {T : Shape Ptr}
    (h : Rep t (plug (f :: g :: k) T)) (uncle : g.sibling.isRed) (p : Ptr) :
    ∃ t', rbInsertColorSide g.side p f.label g.label t = .ok (g.label, t') ∧ t'.next = t.next ∧
      Rep t' (plug k ({ g with color := .red, sibling := g.sibling.blacken }.fill
        ({ f with color := .black }.fill T))) := by
  obtain ⟨u, hu⟩ : ∃ u, g.sibling.root? = some u := by
    cases hs : g.sibling with
    | nil => simp [hs, Shape.isRed] at uncle
    | node c l u r => exact ⟨u, rfl⟩
  have hg : Rep t (plug (g :: k) (f.fill T)) := h
  have red : t.isRed (some u) = .ok true := by rw [← hu, hg.sibling.isRed, uncle]
  obtain ⟨t₁, run₁, next₁, h₁⟩ := hg.sibling.setBlack hu
  have h₁ : Rep t₁ (plug (f :: { g with sibling := g.sibling.blacken } :: k) T) := by
    simpa using h₁.sibling
  obtain ⟨t₂, run₂, next₂, h₂⟩ := h₁.setColor_parent .black
  obtain ⟨t₃, run₃, next₃, h₃⟩ :=
    Rep.setColor_parent (f := { g with sibling := g.sibling.blacken }) h₂ .red
  refine ⟨t₃, ?_, by rw [next₃, next₂, next₁], h₃⟩
  simp only at run₃
  simp [rbInsertColorSide, RbTree.node_of hg.heap_parent, hu, red, run₁, run₂, run₃]

section

variable {s : Side} {fc gc c : Color} {x y p : Ptr} {l r fsib gsib : Shape Ptr}

/-- A black uncle, the subtree on the outside: `x` comes up over `y`. -/
theorem insertColorSide_outer (h : Rep t (plug (⟨s, fc, x, fsib⟩ :: ⟨s, gc, y, gsib⟩ :: k) (.node c l p r)))
    (uncle : gsib.isRed = false) : ∃ t', rbInsertColorSide s p x y t = .ok (p, t') ∧ t'.next = t.next ∧
      Rep t' (plug k (rotateUp ⟨s, fc, x, fsib⟩ ⟨s, gc, y, gsib⟩ (.node c l p r))) := by
  have hg : Rep t (plug (⟨s, gc, y, gsib⟩ :: k) ((Frame.mk s fc x fsib).fill (.node c l p r))) := h
  have black : t.isRed gsib.root? = .ok false := by rw [hg.sibling.isRed, uncle]
  have hu : ((Frame.mk s gc y gsib).record (Path.parent? k) (some x)).child s.flip = gsib.root? :=
    Frame.record_child_flip ⟨s, gc, y, gsib⟩ _ _
  have outer : ((Frame.mk s fc x fsib).record (some y) (some p)).child s.flip ≠ some p := by
    rw [show _ = fsib.root? from Frame.record_child_flip ⟨s, fc, x, fsib⟩ _ _]
    intro e
    have := (plug_nodup.1 hg.nodup).1
    rw [Frame.fill_nodup] at this
    exact List.disjoint_left.1 this.2.2.2.2 (by simp) (Shape.root?_mem e)
  obtain ⟨t₁, run₁, next₁, h₁⟩ := h.setColor_parent .black
  have h₁ : Rep t₁ (plug (⟨s, gc, y, gsib⟩ :: k) ((Frame.mk s .black x fsib).fill (.node c l p r))) := h₁
  obtain ⟨t₂, run₂, next₂, h₂⟩ := h₁.setColor_parent .red
  have h₂ : Rep t₂ (plug k ((Frame.mk s.flip .red y
      ((Frame.mk s.flip .black x (.node c l p r)).fill fsib)).fill gsib)) := by
    rw [Frame.fill_flip s .red y, Frame.fill_flip s .black x]
    exact h₂
  obtain ⟨t₃, run₃, next₃, h₃⟩ := h₂.rotate
  rw [Frame.fill_flip s .black x, Frame.fill_flip s .red y] at h₃
  refine ⟨t₃, ?_, by rw [next₃, next₂, next₁], by simpa [rotateUp] using h₃⟩
  simp only at run₁ run₂
  simp [rbInsertColorSide, RbTree.node_of hg.heap_parent, RbTree.node_of h.heap_parent, hu, black, outer, run₁, run₂,
    run₃]

theorem rotateUp_inner : rotateUp ⟨s.flip, fc, x, fsib⟩ ⟨s, gc, y, gsib⟩ (.node c l p r) =
    (Frame.mk s .black p ((Frame.mk s .red y gsib).fill ((Shape.node c l p r).child s.flip))).fill
      ((Frame.mk s fc x ((Shape.node c l p r).child s)).fill fsib) := by
  have side : s.flip ≠ s := by cases s <;> decide
  simp [rotateUp, side]

/-- A black uncle, the subtree on the inside: its root comes up over both. -/
theorem insertColorSide_inner
    (h : Rep t (plug (⟨s.flip, fc, x, fsib⟩ :: ⟨s, gc, y, gsib⟩ :: k) (.node c l p r))) (uncle : gsib.isRed = false) :
    ∃ t', rbInsertColorSide s p x y t = .ok (x, t') ∧ t'.next = t.next ∧
      Rep t' (plug k (rotateUp ⟨s.flip, fc, x, fsib⟩ ⟨s, gc, y, gsib⟩ (.node c l p r))) := by
  have hg : Rep t (plug (⟨s, gc, y, gsib⟩ :: k) ((Frame.mk s.flip fc x fsib).fill (.node c l p r))) := h
  have black : t.isRed gsib.root? = .ok false := by rw [hg.sibling.isRed, uncle]
  have hu : ((Frame.mk s gc y gsib).record (Path.parent? k) (some x)).child s.flip = gsib.root? :=
    Frame.record_child_flip ⟨s, gc, y, gsib⟩ _ _
  set T := Shape.node c l p r with hT
  have inner : ((Frame.mk s.flip fc x fsib).record (some y) T.root?).child s.flip = some p :=
    Frame.record_child ⟨s.flip, fc, x, fsib⟩ _ _
  have h₀ : Rep t (plug (⟨s, gc, y, gsib⟩ :: k) ((Frame.mk s fc x
      ((Frame.mk s c p (T.child s.flip)).fill (T.child s))).fill fsib)) := by
    rw [← Frame.fill_flip s fc x, hT, ← Shape.eq_fill_child]
    exact h
  obtain ⟨t₁, run₁, next₁, h₁⟩ := h₀.rotate
  obtain ⟨t₂, run₂, next₂, h₂⟩ := Rep.setColor_parent (k := _ :: k) h₁ .black
  obtain ⟨t₃, run₃, next₃, h₃⟩ := Rep.setColor_parent (f := ⟨s, gc, y, gsib⟩) h₂ .red
  have h₃ : Rep t₃ (plug k ((Frame.mk s.flip .red y ((Frame.mk s.flip .black p
      ((Frame.mk s fc x (T.child s)).fill fsib)).fill (T.child s.flip))).fill gsib)) := by
    rw [Frame.fill_flip s .red y, Frame.fill_flip s .black p]
    exact h₃
  obtain ⟨t₄, run₄, next₄, h₄⟩ := h₃.rotate
  rw [Frame.fill_flip s .black p, Frame.fill_flip s .red y] at h₄
  refine ⟨t₄, ?_, by rw [next₄, next₃, next₂, next₁], rotateUp_inner ▸ h₄⟩
  simp only at run₂ run₃
  simp [rbInsertColorSide, RbTree.node_of hg.heap_parent, RbTree.node_of h.heap_parent, hu, black, inner, run₁, run₂,
    run₃, run₄]

end

/-- A black uncle: at most two rotations, and the subtree's root is black. -/
theorem insertColorSide_rotate {f g : Frame Ptr} {c : Color} {l r : Shape Ptr} {p : Ptr}
    (h : Rep t (plug (f :: g :: k) (.node c l p r))) (uncle : g.sibling.isRed = false) :
    ∃ q t', rbInsertColorSide g.side p f.label g.label t = .ok (q, t') ∧ t'.next = t.next ∧
      Rep t' (plug k (rotateUp f g (.node c l p r))) ∧
      ∃ f' c' l' r', f'.color = .black ∧
        rotateUp f g (.node c l p r) = Frame.fill f' (.node c' l' q r') := by
  obtain ⟨fs, fc, x, fsib⟩ := f
  obtain ⟨s, gc, y, gsib⟩ := g
  by_cases side : fs = s
  · subst side
    obtain ⟨t', run, next, rep⟩ := insertColorSide_outer h uncle
    exact ⟨p, t', run, next, rep, ⟨fs, .black, x, _⟩, c, l, r, rfl, by simp [rotateUp]; rfl⟩
  · obtain rfl := Side.eq_flip_of_ne (Ne.symm side)
    obtain ⟨t', run, next, rep⟩ := insertColorSide_inner h uncle
    set T := Shape.node c l p r with hT
    refine ⟨x, t', run, next, rep, ⟨s, .black, p, (Frame.mk s .red y gsib).fill (T.child s.flip)⟩,
      fc, ((Frame.mk s fc x (T.child s)).fill fsib).child .left,
      ((Frame.mk s fc x (T.child s)).fill fsib).child .right, rfl, ?_⟩
    rw [rotateUp_inner]
    congr 1
    cases s <;> rfl

/-- **The repair loop** of `rb_insert_color` is `rebalance` on the path of the node. -/
theorem insertColorLoop (n : Nat) : ∀ {t : RbTree} {k : Path Ptr} {l r : Shape Ptr} {p : Ptr},
    Rep t (plug k (.node .red l p r)) → Path.BlackRoot k → k.length < n →
    ∃ t', rbInsertColorLoop n p t = .ok t' ∧ t'.next = t.next ∧
      Rep t' (rebalance k (.node .red l p r)) := by
  induction n with
  | zero => intro _ _ _ _ _ _ _ hn; omega
  | succ n ih =>
    intro t k l r p h root hn
    rcases k with _ | ⟨f, _ | ⟨g, k⟩⟩
    · exact ⟨t, by simp [rbInsertColorLoop, RbTree.node_of h.heap_self], rfl, h⟩
    · exact ⟨t, h.insertColorLoop_stop root n, rfl, h⟩
    · by_cases red : f.color = .red
      · have hg : Rep t (plug (g :: k) (f.fill (.node .red l p r))) := h
        have side : (if (g.record (Path.parent? k) (some f.label)).rbLeft = some f.label then Side.left
            else .right) = g.side := by
          have other : g.sibling.root? ≠ some f.label := fun e => by
            have := (plug_nodup.1 (show (plug k (g.fill _)).toList.Nodup from hg.nodup)).1
            rw [Frame.fill_nodup] at this
            exact List.disjoint_left.1 this.2.2.2.2 (by simp) (Shape.root?_mem e)
          unfold Frame.record
          cases g.side <;> simp [other]
        have turn : rbInsertColorLoop (n + 1) p t = rbInsertColorSide g.side p f.label g.label t >>=
            fun res => rbInsertColorLoop n res.1 res.2 := by
          simp [rbInsertColorLoop, RbTree.node_of h.heap_self, RbTree.node_of h.heap_parent,
            RbTree.node_of hg.heap_parent, red, side]
        cases uncle : g.sibling.isRed with
        | true =>
          obtain ⟨t₁, run₁, next₁, h₁⟩ := h.insertColorSide_uncle uncle p
          obtain ⟨l', r', e⟩ : ∃ l' r', ({ g with color := .red, sibling := g.sibling.blacken } : Frame Ptr).fill
              (({ f with color := .black } : Frame Ptr).fill (.node .red l p r)) =
              .node .red l' g.label r' := by
            obtain ⟨s, c, y, gsib⟩ := g
            cases s <;> exact ⟨_, _, rfl⟩
          rw [e] at h₁
          obtain ⟨t₂, run₂, next₂, h₂⟩ := ih h₁ root.tail.tail (by simp at hn; omega)
          refine ⟨t₂, by simp [turn, run₁, run₂], by rw [next₂, next₁], ?_⟩
          rw [rebalance, if_pos red, if_pos uncle, e]
          exact h₂
        | false =>
          obtain ⟨q, t₁, run₁, next₁, h₁, f', c', l', r', black, e⟩ := h.insertColorSide_rotate uncle
          obtain ⟨m, rfl⟩ : ∃ m, n = m + 1 := ⟨n - 1, by simp at hn; omega⟩
          have stop := Rep.insertColorLoop_stop (k := k) (e ▸ h₁) black m
          refine ⟨t₁, by simp [turn, run₁, stop], next₁, ?_⟩
          rw [rebalance, if_pos red, if_neg (by simp [uncle])]
          exact h₁
      · have black : f.color = .black := by
          cases hc : f.color with
          | red => exact absurd hc red
          | black => rfl
        refine ⟨t, h.insertColorLoop_stop black n, rfl, ?_⟩
        rw [rebalance, if_neg red]
        exact h

end Rep

/-- Distinct addresses below a bound are at most as many as the bound. -/
theorem length_le_of_nodup {l : List Ptr} {n : Nat} (nodup : l.Nodup) (bound : ∀ p ∈ l, p < n) :
    l.length ≤ n := by
  have sub : l.toFinset ⊆ Finset.range n := fun p hp => by
    simpa using bound p (List.mem_toFinset.1 hp)
  simpa [List.toFinset_card_of_nodup nodup] using Finset.card_le_card sub

theorem Path.length_le (k : Path Ptr) : k.length ≤ (Path.labels k).length := by
  induction k with
  | nil => simp
  | cons f k ih =>
    obtain ⟨side, c, a, s⟩ := f
    cases side <;> simp [Path.labels] at ih ⊢ <;> omega

namespace Rep

variable {t : RbTree}

/-- A path of a tree in memory is not longer than the number of addresses handed out. -/
theorem path_length_le {k : Path Ptr} {T : Shape Ptr} (h : Rep t (plug k T)) : k.length ≤ t.next :=
  (Path.length_le k).trans
    (length_le_of_nodup (plug_nodup.1 h.nodup).2.1 fun p hp => h.bound p (mem_plug.2 (.inr hp)))

/-- **`rb_insert_color`** repairs the tree and leaves its root black. -/
theorem insertColor {k : Path Ptr} {p : Ptr} {l r : Shape Ptr}
    (h : Rep t (plug k (.node .red l p r))) (root : Path.BlackRoot k) :
    ∃ t', rbInsertColor p t = .ok t' ∧ t'.next = t.next ∧
      Rep t' (rebalance k (.node .red l p r)).blacken := by
  obtain ⟨t₁, run₁, next₁, h₁⟩ := h.insertColorLoop (t.next + 1) root (Nat.lt_succ_of_le h.path_length_le)
  obtain ⟨q, hq⟩ : ∃ q, (rebalance k (.node .red l p r)).root? = some q := by
    cases e : rebalance k (.node .red l p r) with
    | nil => simpa [e, plug_toList] using congrArg (p ∈ ·) (rebalance_toList k (.node .red l p r))
    | node c l q r => exact ⟨q, rfl⟩
  obtain ⟨t₂, run₂, next₂, h₂⟩ := Rep.setBlack (k := []) h₁ hq
  exact ⟨t₂, by simp [rbInsertColor, run₁, h₁.root, hq, run₂], by rw [next₂, next₁], h₂⟩

/-- **The insertion** of a new leaf at the end of a path. -/
theorem insert {k : Path Ptr} {p : Ptr} (h : Rep t (plug k .nil)) (root : Path.BlackRoot k)
    (fresh : p ∉ k.labels) (hp : p < t.next) :
    ∃ t₁ t₂, rbLinkNode p (Path.parent? k) (linkOf k) t = .ok t₁ ∧ rbInsertColor p t₁ = .ok t₂ ∧
      Rep t₂ (rebalance k (.node .red .nil p .nil)).blacken := by
  obtain ⟨t₁, link, -, h₁⟩ := h.link fresh hp
  obtain ⟨t₂, color, -, h₂⟩ := h₁.insertColor root
  exact ⟨t₁, t₂, link, color, h₂⟩

end Rep

end CodeBackup.Rbtree
