import CodeBackup.ColorTree.Height
import CodeBackup.Rbtree.Mirror
import CodeBackup.Rbtree.Remove
import CodeBackup.Run.Calls

/-!
# The tree is an ordered list

A caller of `rbtree.c` links a new node at an empty child pointer, erases a node
or replaces it by a new one. `TreeCall.edit` is what that means for the list of
the nodes in order: the new node stands before or after the one whose pointer it
was linked to, the erased one is gone, and a replacement stands where the other
one stood. The code keeps to it in every run, and the walks of `rb_first` and
`rb_next`, and of `rb_last` and `rb_prev`, list the nodes forwards and backwards
(`treeRun_ordered`).
-/

namespace CodeBackup.Rbtree

open C C.Outcome ColorTree Run

/-! ## Lists -/

/-- `p` next to `q`. -/
def insertBeside (s : Side) (q p : Ptr) : List Ptr → List Ptr
  | [] => []
  | a :: l => if a = q then (match s with | .left => p :: a :: l | .right => a :: p :: l) else a :: insertBeside s q p l

theorem insertBeside_append {s : Side} {q p : Ptr} {xs ys : List Ptr} (first : q ∉ xs) :
    insertBeside s q p (xs ++ q :: ys) = xs ++ (match s with | .left => p :: q :: ys | .right => q :: p :: ys) := by
  induction xs with
  | nil => simp [insertBeside]
  | cons a xs ih =>
    rw [List.mem_cons, not_or] at first
    simp [insertBeside, Ne.symm first.1, ih first.2]

/-! ## Calls -/

/-- What a caller of `rbtree.c` does: a new node is linked at a pointer and the tree repaired, or a node is erased, or
replaced by a new one, and freed. -/
inductive TreeCall where
  | insert (link : Link)
  | erase (node : Ptr)
  | replace (victim : Ptr)
  deriving DecidableEq, Repr

/-- The parent that is passed to `rb_link_node` with a pointer. -/
def Link.parent? : Link → Option Ptr
  | .root => none
  | .child p _ => some p

/-- The code of a call. -/
def TreeCall.code : TreeCall → RbTree → Outcome RbTree
  | .insert link, t => do
    let node := t.next
    let t ← rbLinkNode node link.parent? link { t with next := t.next + 1 }
    rbInsertColor node t
  | .erase node, t => do
    let t ← rbErase node t
    .ok { t with heap := Function.update t.heap node none }
  | .replace victim, t => do
    let t ← rbReplaceNode victim t.next { t with next := t.next + 1 }
    .ok { t with heap := Function.update t.heap victim none }

/-- What a call means for the list of the nodes, `new` being the address of a new one. -/
def TreeCall.edit (new : Ptr) : TreeCall → List Ptr → List Ptr
  | .insert .root, _ => [new]
  | .insert (.child q s), l => insertBeside s q new l
  | .erase node, l => l.erase node
  | .replace victim, l => l.map fun node => if node = victim then new else node

/-- A call on the tree, with the list of its nodes kept beside it. -/
def TreeCall.step (c : TreeCall) (s : RbTree × List Ptr) : Outcome (RbTree × List Ptr) := do
  let t ← c.code s.1
  .ok (t, c.edit s.1.next s.2)

/-- What the code relies on: the pointer belongs to the tree and is empty, and only a node of the tree is erased or
replaced. -/
def TreeCall.Allowed (c : TreeCall) (s : RbTree × List Ptr) : Prop :=
  match c with
  | .insert .root => s.2 = []
  | .insert (.child q side) => q ∈ s.2 ∧ s.1.readLink (.child q side) = .ok none
  | .erase node => node ∈ s.2
  | .replace victim => victim ∈ s.2

instance : ∀ (c : TreeCall) (s : RbTree × List Ptr), Decidable (c.Allowed s)
  | .insert .root, s => inferInstanceAs (Decidable (s.2 = []))
  | .insert (.child q side), s => inferInstanceAs (Decidable (q ∈ s.2 ∧ s.1.readLink (.child q side) = .ok none))
  | .erase node, s => inferInstanceAs (Decidable (node ∈ s.2))
  | .replace victim, s => inferInstanceAs (Decidable (victim ∈ s.2))

/-! ## Walks -/

/-- The nodes of a loop from `node` on. -/
def walkLoop (next : Ptr → RbTree → Outcome (Option Ptr)) : Nat → Option Ptr → RbTree → Outcome (List Ptr)
  | 0, _, _ => .error .loopBound
  | _ + 1, none, _ => .ok []
  | n + 1, some node, t => do
    let rest ← walkLoop next n (← next node t) t
    .ok (node :: rest)

/-- `for (node = rb_first(root); node; node = rb_next(node))`. -/
def forwards (t : RbTree) : Outcome (List Ptr) := do walkLoop rbNext (t.next + 1) (← rbFirst t) t

/-- `for (node = rb_last(root); node; node = rb_prev(node))`. -/
def backwards (t : RbTree) : Outcome (List Ptr) := do walkLoop rbPrev (t.next + 1) (← rbLast t) t

theorem walkLoop_of {next : Ptr → RbTree → Outcome (Option Ptr)} {t : RbTree} {l : List Ptr}
    (step : ∀ xs p ys, l = xs ++ p :: ys → next p t = .ok ys.head?) : ∀ {ys xs : List Ptr} {n : Nat}, l = xs ++ ys →
    ys.length < n → walkLoop next n ys.head? t = .ok ys
  | _, _, 0, _, hn => by omega
  | [], _, n + 1, _, _ => rfl
  | p :: ys, xs, n + 1, e, hn => by
    have rest := walkLoop_of step (show l = (xs ++ [p]) ++ ys by simp [e]) (Nat.lt_of_succ_lt_succ hn)
    simp [walkLoop, step xs p ys e, rest]

/-! ## One call -/

namespace Rep

variable {t : RbTree}

/-- An empty pointer of the tree is the end of a path. -/
theorem exists_link {T : Shape Ptr} (rep : Rep t T) {link : Link} (allowed : (TreeCall.insert link).Allowed (t, T.toList)) :
    ∃ k, T = plug k .nil ∧ link = linkOf k ∧
      (TreeCall.insert link).edit t.next T.toList = k.before ++ t.next :: k.after := by
  cases link with
  | root =>
    have none_ : T.toList = [] := allowed
    obtain rfl : T = .nil := by
      cases T with
      | nil => rfl
      | node => simp at none_
    exact ⟨[], rfl, rfl, rfl⟩
  | child q s =>
    obtain ⟨mem, empty⟩ : q ∈ T.toList ∧ t.readLink (.child q s) = .ok none := allowed
    obtain ⟨xs, ys, order⟩ := List.append_of_mem mem
    have first : q ∉ xs := by
      have := rep.nodup
      rw [order, List.nodup_append] at this
      exact fun hq => this.2.2 q hq q List.mem_cons_self rfl
    obtain ⟨k, c, left, right, e, before, after⟩ := exists_plug order []
    obtain rfl : T = plug k (.node c left q right) := e
    simp only [Path.before_nil, Path.after_nil, List.nil_append, List.append_nil] at before after
    subst before after
    rw [order, TreeCall.edit, insertBeside_append first]
    rw [RbTree.readLink, RbTree.node_of rep.heap_self] at empty
    cases s with
    | left =>
      obtain rfl : left = .nil := by
        cases left with
        | nil => rfl
        | node => simp [RbNode.child] at empty
      exact ⟨⟨.left, c, q, right⟩ :: k, rfl, rfl, by simp⟩
    | right =>
      obtain rfl : right = .nil := by
        cases right with
        | nil => rfl
        | node => simp [RbNode.child] at empty
      exact ⟨⟨.right, c, q, left⟩ :: k, rfl, rfl, by simp⟩

/-- A new leaf at the end of a path, and the repair. -/
theorem insert_new {k : Path Ptr} (rep : Rep t (plug k .nil)) (rb : (plug k .nil).RedBlack) :
    ∃ t₁ t₂, rbLinkNode t.next (linkOf k).parent? (linkOf k) { t with next := t.next + 1 } = .ok t₁ ∧
      rbInsertColor t.next t₁ = .ok t₂ ∧ Rep t₂ (rebalance k (.node .red .nil t.next .nil)).blacken ∧
      (rebalance k (.node .red .nil t.next .nil)).blacken.toList = k.before ++ t.next :: k.after ∧
      (rebalance k (.node .red .nil t.next .nil)).blacken.RedBlack := by
  have fresh : t.next ∉ Path.labels k := fun hp => Nat.lt_irrefl _ (rep.bound _ (mem_plug.2 (.inr hp)))
  have root := plug_blackRoot_path rb.black
  obtain ⟨n, bal, hk, -⟩ := plug_balanced.1 rb.balanced
  obtain rfl := Shape.balanced_nil.1 bal
  obtain ⟨t₁, t₂, link, color, rep₂⟩ := (rep.grow (Nat.le_succ t.next)).insert root fresh (Nat.lt_succ_self t.next)
  have parent : (linkOf k).parent? = Path.parent? k := by cases k <;> rfl
  refine ⟨t₁, t₂, parent ▸ link, color, rep₂, ?_, rebalance_balanced (.red rfl rfl .nil .nil) rfl root hk⟩
  rw [Shape.blacken_toList, rebalance_toList, plug_toList]
  simp

end Rep

/-- The tree in memory has the nodes of the list, and is red-black. -/
def Holds (t : RbTree) (l : List Ptr) : Prop := ∃ T, Rep t T ∧ T.toList = l ∧ T.RedBlack

namespace Holds

variable {t : RbTree} {l : List Ptr}

theorem empty : Holds .empty [] := ⟨.nil, .empty, rfl, Shape.redBlack_nil⟩

theorem forwards (h : Holds t l) : forwards t = .ok l := by
  obtain ⟨T, rep, rfl, -⟩ := h
  rw [Rbtree.forwards, rep.first, ok_bind]
  exact walkLoop_of (fun xs p ys => rep.next_of) (List.nil_append _).symm (Nat.lt_succ_of_le rep.length_le)

theorem backwards (h : Holds t l) : backwards t = .ok l.reverse := by
  obtain ⟨T, rep, rfl, -⟩ := h
  rw [Rbtree.backwards, rep.last, ok_bind, ← List.head?_reverse]
  refine walkLoop_of (fun xs p ys e => ?_) (List.nil_append T.toList.reverse).symm ?_
  · have order : T.toList = ys.reverse ++ p :: xs.reverse := by
      rw [← List.reverse_reverse T.toList, e]
      simp
    rw [rep.prev_of order, List.getLast?_reverse]
  · rw [List.length_reverse]
    exact Nat.lt_succ_of_le rep.length_le

/-- **An insertion** at an empty pointer. -/
theorem insert (h : Holds t l) {link : Link} (allowed : (TreeCall.insert link).Allowed (t, l)) :
    ∃ t', (TreeCall.insert link).code t = .ok t' ∧ Holds t' ((TreeCall.insert link).edit t.next l) := by
  obtain ⟨T, rep, rfl, rb⟩ := h
  obtain ⟨k, rfl, rfl, order⟩ := rep.exists_link allowed
  obtain ⟨t₁, t₂, link, color, rep₂, order₂, rb₂⟩ := rep.insert_new rb
  refine ⟨t₂, ?_, _, rep₂, order₂.trans order.symm, rb₂⟩
  simp only [TreeCall.code]
  rw [link, ok_bind, color]

/-- **A removal** of a node of the tree. -/
theorem erase (h : Holds t l) {p : Ptr} (mem : p ∈ l) :
    ∃ t', (TreeCall.erase p).code t = .ok t' ∧ Holds t' ((TreeCall.erase p).edit t.next l) := by
  obtain ⟨T, rep, rfl, rb⟩ := h
  obtain ⟨xs, ys, order⟩ := List.append_of_mem mem
  have nodup := rep.nodup
  rw [order, List.nodup_middle, List.nodup_cons] at nodup
  obtain ⟨t', T', run, next, rep', order', rb'⟩ := rep.remove rb order
  refine ⟨_, by rw [TreeCall.code, run, ok_bind], T', rep'.forget (order' ▸ nodup.1), ?_, rb'⟩
  rw [order', TreeCall.edit, order, List.erase_append_right _ fun hp => nodup.1 (by simp [hp]), List.erase_cons_head]

/-- **A replacement** of a node of the tree. -/
theorem replace (h : Holds t l) {p : Ptr} (mem : p ∈ l) :
    ∃ t', (TreeCall.replace p).code t = .ok t' ∧ Holds t' ((TreeCall.replace p).edit t.next l) := by
  obtain ⟨T, rep, rfl, rb⟩ := h
  obtain ⟨xs, ys, order⟩ := List.append_of_mem mem
  have nodup := rep.nodup
  have bound := rep.bound
  rw [order, List.nodup_middle, List.nodup_cons, List.mem_append, not_or] at nodup
  obtain ⟨k, c, left, right, e, before, after⟩ := exists_plug order []
  obtain rfl : T = plug k (.node c left p right) := e
  simp only [Path.before_nil, Path.after_nil, List.nil_append, List.append_nil] at before after
  have fresh : t.next ∉ (plug k (.node c left p right)).toList := fun hp => Nat.lt_irrefl _ (bound _ hp)
  obtain ⟨t', run, next, rep'⟩ := (rep.grow (Nat.le_succ t.next)).replaceNode fresh (Nat.lt_succ_self t.next)
  have order' : (plug k (.node c left t.next right)).toList = xs ++ t.next :: ys := by
    rw [plug_toList, Shape.toList_node, ← before, ← after]
    simp
  have gone : p ∉ (plug k (.node c left t.next right)).toList := by
    have old : p ≠ t.next := Nat.ne_of_lt (bound p mem)
    rw [order', List.mem_append, List.mem_cons]
    tauto
  refine ⟨_, by rw [TreeCall.code, run, ok_bind], _, rep'.forget gone, ?_, ?_⟩
  · have keep : ∀ l : List Ptr, p ∉ l → l.map (fun node => if node = p then t.next else node) = l := fun l hp => by
      refine (List.map_congr_left fun a ha => ?_).trans (List.map_id l)
      rw [if_neg fun (e : a = p) => hp (e ▸ ha)]
      rfl
    rw [order', TreeCall.edit, order, List.map_append, List.map_cons, keep xs nodup.1.1, keep ys nodup.1.2, if_pos rfl]
  · obtain ⟨n, bal, hk, parent⟩ := plug_balanced.1 rb.balanced
    refine ⟨?_, plug_balanced.2 ⟨n, ?_, hk, fun red => parent ?_⟩⟩
    · cases k with
      | nil => exact rb.black
      | cons f k => exact (plug_blackRoot (by simp)).2 ((plug_blackRoot (by simp)).1 rb.black)
    · cases bal with
      | red hl hr bl br => exact .red hl hr bl br
      | black bl br => exact .black bl br
    · cases c <;> exact red

/-- **A call** keeps the tree in step with the list. -/
theorem step (h : Holds t l) (c : TreeCall) (allowed : c.Allowed (t, l)) :
    ∃ s, c.step (t, l) = .ok s ∧ Holds s.1 s.2 := by
  obtain ⟨t', run, h'⟩ : ∃ t', c.code t = .ok t' ∧ Holds t' (c.edit t.next l) := by
    cases c with
    | insert link => exact h.insert allowed
    | erase p => exact h.erase allowed
    | replace p => exact h.replace allowed
  exact ⟨(t', c.edit t.next l), by rw [TreeCall.step, run, ok_bind], h'⟩

end Holds

/-- **The tree is the ordered list of its nodes.** In every run of insertions at empty pointers, removals and
replacements, from an empty tree, no call faults; the list that the edits give is what `rb_first` and `rb_next` walk
through, and backwards what `rb_last` and `rb_prev` do; and no way down in the tree is longer than twice the logarithm
of its size. -/
theorem treeRun_ordered {cs : List TreeCall} (allowed : Meets TreeCall.step TreeCall.Allowed cs (.empty, [])) :
    ∃ t l, run TreeCall.step cs (.empty, []) = .ok (t, l) ∧ forwards t = .ok l ∧ backwards t = .ok l.reverse ∧
      ∃ T, Rep t T ∧ T.toList = l ∧ T.RedBlack ∧ T.levels ≤ 2 * Nat.log 2 (l.length + 1) := by
  have keep : ∀ (c : TreeCall) (s : RbTree × List Ptr), Holds s.1 s.2 → c.Allowed s →
      ∃ s', c.step s = .ok s' ∧ Holds s'.1 s'.2 := fun c s h hc => h.step c hc
  obtain ⟨⟨t, l⟩, ret, h⟩ := run_total keep Holds.empty allowed
  obtain ⟨T, rep, rfl, rb⟩ := id h
  exact ⟨t, T.toList, ret, h.forwards, h.backwards, T, rep, rfl, rb, rb.levels_le⟩

/-- Five nodes; the root, which has two children, is removed, and its successor replaced. -/
theorem treeRun_ordered_five : ∃ t l, run TreeCall.step
    [.insert .root, .insert (.child 0 .left), .insert (.child 0 .right), .insert (.child 2 .left),
      .insert (.child 2 .right), .erase 0, .replace 3] (.empty, []) = .ok (t, l) ∧
    forwards t = .ok l ∧ backwards t = .ok l.reverse ∧
      ∃ T, Rep t T ∧ T.toList = l ∧ T.RedBlack ∧ T.levels ≤ 2 * Nat.log 2 (l.length + 1) :=
  treeRun_ordered (by decide)

end CodeBackup.Rbtree
