import CodeBackup.Rbtree.Walk

/-!
# One node in the place of another

`rb_replace_node` gives a node the links and the colour of another one and turns
the pointers of its neighbours. `Replaced` says what that leaves in memory,
whichever code does it; the tree is then the same with one address exchanged
(`Rep.replaced`).
-/

namespace CodeBackup.Rbtree

open C C.Outcome ColorTree

/-- What is left in memory once `y` has taken the place of `x`, whose record is `n`. -/
structure Replaced (x y : Ptr) (n : RbNode) (t t' : RbTree) : Prop where
  self : t'.heap y = some n
  hung : ∀ p m, n.rbParent = some p → t.heap p = some m →
    t'.heap p = some (m.setChild (if m.child .left = some x then .left else Side.left.flip) (some y))
  below : ∀ q m, n.rbLeft = some q ∨ n.rbRight = some q → t.heap q = some m →
    t'.heap q = some { m with rbParent := some y }
  root : t'.root = if n.rbParent = none then some y else t.root
  same : ∀ q, q ≠ x → q ≠ y → n.rbParent ≠ some q → n.rbLeft ≠ some q → n.rbRight ≠ some q → t'.heap q = t.heap q
  next : t'.next = t.next

namespace Rep

variable {t t' : RbTree} {k : Path Ptr} {c : Color} {l r : Shape Ptr} {x y : Ptr}

/-- The parts of a tree around one of its nodes are apart. -/
theorem node_apart (h : Rep t (plug k (.node c l x r))) :
    x ∉ l.toList ∧ x ∉ r.toList ∧ x ∉ Path.labels k ∧ l.toList.Nodup ∧ r.toList.Nodup ∧ (Path.labels k).Nodup ∧
      l.toList.Disjoint r.toList ∧ (∀ q ∈ l.toList, q ∉ Path.labels k) ∧ ∀ q ∈ r.toList, q ∉ Path.labels k := by
  obtain ⟨hn, hk, hd⟩ := plug_nodup.1 h.nodup
  have := Frame.fill_nodup ⟨.left, c, x, r⟩ |>.1 hn
  obtain ⟨xl, xr, nl, nr, lr⟩ := this
  simp only [List.disjoint_left, Shape.toList_node, List.mem_append, List.mem_cons] at hd
  exact ⟨xl, xr, hd (.inr (.inl rfl)), nl, nr, hk, lr, fun q hq => hd (.inl hq), fun q hq => hd (.inr (.inr hq))⟩

/-- **The same tree**, with `y` for `x`. -/
theorem replaced (h : Rep t (plug k (.node c l x r))) (fresh : y ∉ (plug k (.node c l x r)).toList) (bound : y < t.next)
    (rep : Replaced x y ⟨Path.parent? k, c, r.root?, l.root?⟩ t t') : Rep t' (plug k (.node c l y r)) := by
  obtain ⟨hk, -, hl, hr⟩ := h.node_of
  obtain ⟨xl, xr, xk, nl, nr, nk, lr, lk, rk⟩ := h.node_apart
  rw [mem_plug, Shape.toList_node, List.mem_append, List.mem_cons] at fresh
  push Not at fresh
  obtain ⟨⟨yl, yx, yr⟩, yk⟩ := fresh
  have outside : ∀ q, q ∉ Path.labels k → Path.parent? k ≠ some q := fun q hq e => hq (Path.parent?_mem e)
  have notRoot : ∀ {s : Shape Ptr} {q : Ptr}, q ∉ s.toList → s.root? ≠ some q := fun hq e => hq (Shape.root?_mem e)
  have path : Path.At t'.heap t'.root k (some y) := by
    refine hk.rehang nk (fun e => ?_) (fun e => ?_) (fun f k' e => ?_) fun q hq hne => ?_
    · subst e
      simpa using rep.root
    · obtain ⟨f, k', rfl⟩ := List.exists_cons_of_ne_nil e
      simpa using rep.root
    · subst e
      obtain ⟨hf, -, -⟩ := hk
      have sibling : f.sibling.root? ≠ some x := notRoot fun m => xk (Path.mem_labels_cons.2 (.inr (.inl m)))
      have e := rep.hung f.label _ rfl hf
      rwa [Shape.root?_node, f.record_side sibling, Frame.record_setChild] at e
    · exact rep.same q (fun e => xk (e ▸ hq)) (fun e => yk (e ▸ hq)) hne (notRoot fun m => lk q m hq)
        (notRoot fun m => rk q m hq)
  have left : l.At t'.heap (some y) := by
    refine hl.reparent nl (fun q m hq hm => rep.below q m (.inl hq) hm) fun q hq hne => ?_
    exact rep.same q (fun e => xl (e ▸ hq)) (fun e => yl (e ▸ hq)) (outside q (lk q hq)) hne
      (notRoot fun m => List.disjoint_left.1 lr hq m)
  have right : r.At t'.heap (some y) := by
    refine hr.reparent nr (fun q m hq hm => rep.below q m (.inr hq) hm) fun q hq hne => ?_
    exact rep.same q (fun e => xr (e ▸ hq)) (fun e => yr (e ▸ hq)) (outside q (rk q hq))
      (notRoot fun m => List.disjoint_left.1 lr m hq) hne
  obtain ⟨root, at_⟩ := (plug_at k (.node c l y r)).2 ⟨path, rep.self, left, right⟩
  refine ⟨root, at_, ?_, fun q hq => ?_⟩
  · refine plug_nodup.2 ⟨(Frame.fill_nodup ⟨.left, c, y, r⟩).2 ⟨yl, yr, nl, nr, lr⟩, nk, ?_⟩
    rw [List.disjoint_left]
    intro q hq
    rw [Shape.toList_node, List.mem_append, List.mem_cons] at hq
    rcases hq with hq | rfl | hq
    · exact lk q hq
    · exact yk
    · exact rk q hq
  · rw [rep.next]
    rw [mem_plug, Shape.toList_node, List.mem_append, List.mem_cons] at hq
    by_cases e : q = y
    · exact e ▸ bound
    · apply h.bound q
      rw [mem_plug, Shape.toList_node, List.mem_append, List.mem_cons]
      tauto

/-- **`rb_replace_node`** puts a node that is not in the tree in the place of one that is: the shape and the colours
stay, and one address is exchanged. -/
theorem replaceNode (h : Rep t (plug k (.node c l x r))) (fresh : y ∉ (plug k (.node c l x r)).toList)
    (bound : y < t.next) : ∃ t', rbReplaceNode x y t = .ok t' ∧ t'.next = t.next ∧ Rep t' (plug k (.node c l y r)) := by
  obtain ⟨hk, -, hl, hr⟩ := h.node_of
  obtain ⟨xl, xr, xk, -, -, -, lr, lk, rk⟩ := h.node_apart
  have hx := h.heap_self
  have outside : ∀ q, q ∉ Path.labels k → Path.parent? k ≠ some q := fun q hq e => hq (Path.parent?_mem e)
  have notRoot : ∀ {s : Shape Ptr} {q : Ptr}, q ∉ s.toList → s.root? ≠ some q := fun hq e => hq (Shape.root?_mem e)
  have xp : Path.parent? k ≠ some x := outside x xk
  have some_ : ∀ {o : Option Ptr} {f : RbNode → RbNode} {u : RbTree} {q : Ptr},
      (u.heap q).isSome → ((u.upd o f).heap q).isSome := fun h => by rwa [RbTree.upd_isSome]
  obtain ⟨t₁, run₁, e₁⟩ : ∃ t₁, t.replaceChild .left (Path.parent? k) x (some y) = .ok t₁ ∧
      t₁ = (t.upd (Path.parent? k) fun m => m.setChild (if m.child .left = some x then .left else Side.left.flip)
        (some y)).setRoot (if Path.parent? k = none then some y else t.root) :=
    ⟨_, RbTree.replaceChild_of (fun q hq => hk.parent_isSome hq) _ _, rfl⟩
  have hx₁ : t₁.heap x = some ⟨Path.parent? k, c, r.root?, l.root?⟩ := by simp [e₁, xp, hx]
  obtain ⟨t₂, run₂, e₂⟩ : ∃ t₂, t₁.setParentOf l.root? (some y) = .ok t₂ ∧
      t₂ = t₁.upd l.root? fun m => { m with rbParent := some y } :=
    ⟨_, RbTree.setParentOf_of (fun q hq => by rw [e₁]; exact some_ (hl.isSome (Shape.root?_mem hq))) _, rfl⟩
  have hx₂ : t₂.heap x = some ⟨Path.parent? k, c, r.root?, l.root?⟩ := by
    rw [e₂, RbTree.upd_heap, if_neg (notRoot xl), hx₁]
  obtain ⟨t₃, run₃, e₃⟩ : ∃ t₃, t₂.setParentOf r.root? (some y) = .ok t₃ ∧
      t₃ = t₂.upd r.root? fun m => { m with rbParent := some y } :=
    ⟨_, RbTree.setParentOf_of (fun q hq => by rw [e₂, e₁]; exact some_ (some_ (hr.isSome (Shape.root?_mem hq)))) _, rfl⟩
  have hx₃ : t₃.heap x = some ⟨Path.parent? k, c, r.root?, l.root?⟩ := by
    rw [e₃, RbTree.upd_heap, if_neg (notRoot xr), hx₂]
  have next₃ : t₃.next = t.next := by rw [e₃, e₂, e₁]; rfl
  refine ⟨t₃.set y ⟨Path.parent? k, c, r.root?, l.root?⟩, ?_, next₃, h.replaced fresh bound ⟨?_, ?_, ?_, ?_, ?_, next₃⟩⟩
  · simp only [rbReplaceNode, RbTree.node_of hx, ok_bind, run₁, RbTree.node_of hx₁, run₂, RbTree.node_of hx₂, run₃,
      RbTree.node_of hx₃]
  · simp [RbTree.set]
  all_goals
    rw [mem_plug, Shape.toList_node, List.mem_append, List.mem_cons] at fresh
    push Not at fresh
    obtain ⟨⟨yl, yx, yr⟩, yk⟩ := fresh
  · intro p m hp hm
    have pk := Path.parent?_mem hp
    have py : p ≠ y := fun e => yk (e ▸ pk)
    simp only at hp
    simp [RbTree.set, py, e₃, e₂, e₁, hp, hm, notRoot fun m => lk p m pk, notRoot fun m => rk p m pk]
  · intro q m hq hm
    rcases hq with hq | hq
    · have ql := Shape.root?_mem hq
      have qy : q ≠ y := fun e => yl (e ▸ ql)
      simp only at hq
      simp [RbTree.set, qy, e₃, e₂, e₁, hq, hm, outside q (lk q ql), notRoot (List.disjoint_left.1 lr ql)]
    · have qr := Shape.root?_mem hq
      have qy : q ≠ y := fun e => yr (e ▸ qr)
      simp only at hq
      simp [RbTree.set, qy, e₃, e₂, e₁, hq, hm, outside q (rk q qr), notRoot fun m => List.disjoint_left.1 lr m qr]
  · simp [RbTree.set, e₃, e₂, e₁]
  · intro q qx qy hp hl' hr'
    simp only at hp hl' hr'
    simp [RbTree.set, qy, e₃, e₂, e₁, hp, hl', hr']

end Rep

end CodeBackup.Rbtree
