import CodeBackup.Rbtree.Insert

/-!
# Enumeration

`rb_first` and `rb_next` on a tree in memory follow the in-order list of
addresses: the first one is its head (`Rep.first`), and the successor of an
address is the one after it in the list (`Rep.next_of`).
-/

namespace CodeBackup.Rbtree

open C C.Outcome ColorTree

namespace Rep

variable {t : RbTree}

theorem length_le {T : Shape Ptr} (h : Rep t T) : T.toList.length ≤ t.next :=
  length_le_of_nodup h.nodup h.bound

theorem subtree_length_le {k : Path Ptr} {T : Shape Ptr} (h : Rep t (plug k T)) :
    T.toList.length ≤ t.next := by
  have := h.length_le
  simp only [plug_toList, List.length_append] at this
  omega

/-- The walk down to the left ends at the first address of the subtree. -/
theorem descend_left : ∀ {n : Nat} {k : Path Ptr} {c : Color} {l r : Shape Ptr} {p : Ptr},
    Rep t (plug k (.node c l p r)) → l.toList.length < n →
    ∃ q, descend .left n p t = .ok q ∧ (l.toList ++ p :: r.toList).head? = some q
  | 0, _, _, _, _, _, _, hn => by omega
  | n + 1, k, c, .nil, r, p, h, _ =>
    ⟨p, by simp [descend, RbTree.node_of h.heap_self, RbNode.child], by simp⟩
  | n + 1, k, c, .node c' l' q r', r, p, h, hn => by
    have hl : Rep t (plug (⟨.left, c, p, r⟩ :: k) (.node c' l' q r')) := h
    obtain ⟨m, run, hm⟩ := descend_left (n := n) hl (by
      simp only [Shape.toList_node, List.length_append, List.length_cons] at hn; omega)
    refine ⟨m, by simp [descend, RbTree.node_of h.heap_self, RbNode.child, run], ?_⟩
    rw [Shape.toList_node, List.head?_append, hm]
    rfl

/-- **`rb_first`** is the head of the in-order list. -/
theorem first {T : Shape Ptr} (h : Rep t T) : rbFirst t = .ok T.toList.head? := by
  cases T with
  | nil => simp [rbFirst, h.root]
  | node c l p r =>
    obtain ⟨q, run, hq⟩ := Rep.descend_left (k := []) (n := t.next + 1) h (by
      have := h.length_le
      simp only [Shape.toList_node, List.length_append] at this
      omega)
    simp [rbFirst, h.root, run, hq]

/-- The walk up ends at the first address after the subtree. -/
theorem ascend_after : ∀ {n : Nat} {k : Path Ptr} {c : Color} {l r : Shape Ptr} {p : Ptr},
    Rep t (plug k (.node c l p r)) → k.length < n → ascend n p t = .ok (Path.after k).head?
  | 0, _, _, _, _, _, _, hn => by omega
  | n + 1, [], _, _, _, _, h, _ => by simp [ascend, RbTree.node_of h.heap_self]
  | n + 1, ⟨.left, fc, q, s⟩ :: k, c, l, r, p, h, _ => by
    have other : s.root? ≠ some p := fun e => by
      have := (plug_nodup.1 (show (plug k (.node fc (.node c l p r) q s)).toList.Nodup from h.nodup)).1
      have := Frame.fill_nodup ⟨.left, fc, q, s⟩ |>.1 this
      exact List.disjoint_left.1 this.2.2.2.2 (by simp) (Shape.root?_mem e)
    have hq : t.heap q = some ⟨Path.parent? k, fc, s.root?, some p⟩ := h.heap_parent
    simp [ascend, RbTree.node_of h.heap_self, RbTree.node_of hq, other]
  | n + 1, ⟨.right, fc, q, s⟩ :: k, c, l, r, p, h, hn => by
    have hq : t.heap q = some ⟨Path.parent? k, fc, some p, s.root?⟩ := h.heap_parent
    have up : Rep t (plug k (.node fc s q (.node c l p r))) := h
    simp [ascend, RbTree.node_of h.heap_self, RbTree.node_of hq,
      ascend_after up (Nat.lt_of_succ_lt_succ hn)]

/-- **`rb_next`** is the address that follows in the in-order list. -/
theorem next_of {T : Shape Ptr} {xs ys : List Ptr} {p : Ptr} (h : Rep t T)
    (hp : T.toList = xs ++ p :: ys) : rbNext p t = .ok ys.head? := by
  obtain ⟨k, c, l, r, e, -, hys⟩ := exists_plug hp []
  obtain rfl : T = plug k (.node c l p r) := e
  obtain rfl : r.toList ++ k.after = ys := by simpa using hys
  have top : Path.parent? k ≠ some p := fun e =>
    (plug_nodup.1 h.nodup).2.2 (by simp) (Path.parent?_mem e)
  cases r with
  | nil =>
    have up := h.ascend_after (Nat.lt_succ_of_le h.path_length_le)
    simp [rbNext, RbTree.node_of h.heap_self, top, up]
  | node c' l' q r' =>
    have hr : Rep t (plug (⟨.right, c, p, l⟩ :: k) (.node c' l' q r')) := h
    obtain ⟨m, run, hm⟩ := hr.descend_left (n := t.next + 1) (by
      have := hr.subtree_length_le
      simp only [Shape.toList_node, List.length_append] at this
      omega)
    simp only [rbNext, RbTree.node_of h.heap_self, ok_bind, top, Shape.root?_node, run, if_false,
      Shape.toList_node, List.head?_append, hm]
    rfl

end Rep

end CodeBackup.Rbtree
