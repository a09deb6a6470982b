import CodeBackup.Rbtree.Walk

/-!
# The walk backwards

`rb_last` and `rb_prev` are `rb_first` and `rb_next` with the two sides
exchanged, so they are these functions on the mirror image of the memory
(`rbPrev_eq`), which holds the mirror image of the tree (`Rep.mirror`). What is
proved of the walk forwards then holds of the reversed list of addresses.
-/

namespace CodeBackup.ColorTree

variable {α : Type}

/-- The tree with the two sides exchanged. -/
def Shape.mirror : Shape α → Shape α
  | .nil => .nil
  | .node c l a r => .node c r.mirror a l.mirror

@[simp] theorem Shape.mirror_nil : (nil : Shape α).mirror = nil := rfl

@[simp] theorem Shape.mirror_node (c : Color) (l r : Shape α) (a : α) :
    (node c l a r).mirror = node c r.mirror a l.mirror := rfl

@[simp] theorem Shape.mirror_root? (t : Shape α) : t.mirror.root? = t.root? := by cases t <;> rfl

@[simp] theorem Shape.mirror_toList (t : Shape α) : t.mirror.toList = t.toList.reverse := by
  induction t with
  | nil => rfl
  | node c l a r ihl ihr => simp [ihl, ihr]

end CodeBackup.ColorTree

namespace CodeBackup.Rbtree

open C C.Outcome ColorTree

/-- The node with its two child pointers exchanged. -/
def RbNode.mirror (n : RbNode) : RbNode := ⟨n.rbParent, n.rbColor, n.rbLeft, n.rbRight⟩

/-- The memory with all nodes mirrored. -/
def RbTree.mirror (t : RbTree) : RbTree := ⟨fun p => (t.heap p).map RbNode.mirror, t.root, t.next⟩

@[simp] theorem RbTree.mirror_root (t : RbTree) : t.mirror.root = t.root := rfl

@[simp] theorem RbTree.mirror_next (t : RbTree) : t.mirror.next = t.next := rfl

@[simp] theorem RbTree.mirror_heap (t : RbTree) (p : Ptr) : t.mirror.heap p = (t.heap p).map RbNode.mirror := rfl

@[simp] theorem RbNode.mirror_child (n : RbNode) (s : Side) : n.mirror.child s = n.child s.flip := by cases s <;> rfl

theorem RbTree.mirror_node (t : RbTree) (p : Ptr) : t.mirror.node p = RbNode.mirror <$> t.node p := by
  unfold RbTree.node
  cases h : t.heap p <;> simp [h]

/-- The walk down the other side. -/
theorem descend_mirror (s : Side) (n : Nat) (p : Ptr) (t : RbTree) :
    descend s n p t.mirror = descend s.flip n p t := by
  induction n generalizing p with
  | zero => rfl
  | succ n ih =>
    rw [descend, descend, t.mirror_node]
    cases t.node p with
    | error e => rfl
    | ok m =>
      simp only [Except.map_ok, ok_bind, RbNode.mirror_child]
      cases m.child s.flip with
      | none => rfl
      | some q => exact ih q

theorem ascendLeft_eq (n : Nat) (p : Ptr) (t : RbTree) : ascendLeft n p t = ascend n p t.mirror := by
  induction n generalizing p with
  | zero => rfl
  | succ n ih =>
    rw [ascendLeft, ascend, t.mirror_node]
    cases t.node p with
    | error e => rfl
    | ok m =>
      have parent : m.mirror.rbParent = m.rbParent := rfl
      simp only [Except.map_ok, ok_bind, parent]
      cases m.rbParent with
      | none => rfl
      | some q =>
        simp only [t.mirror_node]
        cases t.node q with
        | error e => rfl
        | ok o =>
          simp only [Except.map_ok, ok_bind, ih]
          rfl

theorem rbLast_eq (t : RbTree) : rbLast t = rbFirst t.mirror := by
  rw [rbLast, rbFirst, RbTree.mirror_root]
  cases t.root with
  | none => rfl
  | some p => simp only [descend_mirror, RbTree.mirror_next, Side.flip]

theorem rbPrev_eq (p : Ptr) (t : RbTree) : rbPrev p t = rbNext p t.mirror := by
  rw [rbPrev, rbNext, t.mirror_node]
  cases t.node p with
  | error e => rfl
  | ok n =>
    simp only [Except.map_ok, ok_bind]
    obtain ⟨parent, c, right, left⟩ := n
    simp only [RbNode.mirror, ascendLeft_eq, descend_mirror, RbTree.mirror_next, Side.flip]

namespace Rep

variable {t : RbTree} {T : Shape Ptr}

/-- **The mirror image** of a tree in memory. -/
theorem mirror (h : Rep t T) : Rep t.mirror T.mirror where
  root := by simpa using h.root
  at_ := by
    suffices ∀ (S : Shape Ptr) (parent : Option Ptr), S.At t.heap parent → S.mirror.At t.mirror.heap parent from
      this T none h.at_
    intro S
    induction S with
    | nil => exact fun _ _ => trivial
    | node c l p r ihl ihr =>
      rintro parent ⟨hp, hl, hr⟩
      exact ⟨by simp [hp, RbNode.mirror], ihr _ hr, ihl _ hl⟩
  nodup := by simpa using h.nodup
  bound p hp := h.bound p (by simpa using hp)

/-- **`rb_last`** is the last address of the in-order list. -/
theorem last (h : Rep t T) : rbLast t = .ok T.toList.getLast? := by
  rw [rbLast_eq, h.mirror.first, Shape.mirror_toList, List.head?_reverse]

/-- **`rb_prev`** is the address before it in the in-order list. -/
theorem prev_of {xs ys : List Ptr} {p : Ptr} (h : Rep t T) (hp : T.toList = xs ++ p :: ys) :
    rbPrev p t = .ok xs.getLast? := by
  have split : T.mirror.toList = ys.reverse ++ p :: xs.reverse := by rw [Shape.mirror_toList, hp]; simp
  rw [rbPrev_eq, h.mirror.next_of split, List.head?_reverse]

end Rep

end CodeBackup.Rbtree
