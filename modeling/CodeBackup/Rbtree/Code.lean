import CodeBackup.C.Outcome
import CodeBackup.ColorTree.Shape

/-!
# The red-black tree code

`rbtree.c`: nodes in memory with parent, left and right pointers. `rb_parent_color` packs the parent pointer and the
colour bit; here they are two fields. `__rb_rotate_left` and
`__rb_rotate_right`, and the two halves of the repair loops, are mirror images
in the source; each pair is one definition over the `Side`.

Addresses are numbers and are never reused: `next` is the first address not yet
handed out. Every loop of the model runs on a bound derived from it, and ends
in `Fault.loopBound` when the bound is used up.
-/

namespace CodeBackup.Rbtree

open C C.Outcome ColorTree

abbrev Ptr := Nat

/-- `struct rb_node`. -/
structure RbNode where
  rbParent : Option Ptr
  rbColor : Color
  rbRight : Option Ptr
  rbLeft : Option Ptr
  deriving DecidableEq, Repr

/-- `struct rb_root` with the nodes in memory. -/
structure RbTree where
  heap : Ptr → Option RbNode
  root : Option Ptr
  next : Ptr

/-- The child pointer on one side. -/
def RbNode.child (n : RbNode) : Side → Option Ptr
  | .left => n.rbLeft
  | .right => n.rbRight

def RbNode.setChild (n : RbNode) (s : Side) (p : Option Ptr) : RbNode :=
  match s with
  | .left => { n with rbLeft := p }
  | .right => { n with rbRight := p }

namespace RbTree

/-- `RB_ROOT`, before any node is allocated. -/
def empty : RbTree := ⟨fun _ => none, none, 0⟩

/-- The node at an address. -/
def node (t : RbTree) (p : Ptr) : Outcome RbNode :=
  match t.heap p with
  | some n => .ok n
  | none => .error .deadObject

def set (t : RbTree) (p : Ptr) (n : RbNode) : RbTree :=
  { t with heap := Function.update t.heap p (some n) }

/-- `root->rb_node = p`. -/
def setRoot (t : RbTree) (p : Option Ptr) : RbTree := ⟨t.heap, p, t.next⟩

/-- `rb_set_parent`. -/
def setParent (t : RbTree) (p : Ptr) (q : Option Ptr) : Outcome RbTree := do
  let n ← t.node p
  .ok (t.set p { n with rbParent := q })

/-- `rb_set_red`, `rb_set_black` and `rb_set_color`. -/
def setColor (t : RbTree) (p : Ptr) (c : Color) : Outcome RbTree := do
  let n ← t.node p
  .ok (t.set p { n with rbColor := c })

/-- `p->rb_left = q` or `p->rb_right = q`. -/
def setChild (t : RbTree) (p : Ptr) (s : Side) (q : Option Ptr) : Outcome RbTree := do
  let n ← t.node p
  .ok (t.set p (n.setChild s q))

/-- `p && rb_is_red(p)`. -/
def isRed (t : RbTree) (p : Option Ptr) : Outcome Bool :=
  match p with
  | some p => do .ok ((← t.node p).rbColor = .red)
  | none => .ok false

/-- `!p || rb_is_black(p)`. -/
def isBlack (t : RbTree) (p : Option Ptr) : Outcome Bool := do
  .ok !(← t.isRed p)

/-- `if (child) rb_set_parent(child, parent)`. -/
def setParentOf (t : RbTree) (child parent : Option Ptr) : Outcome RbTree :=
  match child with
  | some c => t.setParent c parent
  | none => .ok t

/-- The pointer of `parent` (or the root) that held `old` now holds `new`; the child
on the side `s` is compared first. -/
def replaceChild (t : RbTree) (s : Side) (parent : Option Ptr) (old : Ptr) (new : Option Ptr) :
    Outcome RbTree :=
  match parent with
  | some p => do
    if (← t.node p).child s = some old then t.setChild p s new else t.setChild p s.flip new
  | none => .ok (t.setRoot new)

end RbTree

/-- The rotation of `node` towards the side `s`: its other child takes its place. -/
def rbRotate (s : Side) (node : Ptr) (t : RbTree) : Outcome RbTree := do
  let other ← deref ((← t.node node).child s.flip)
  let parent := (← t.node node).rbParent
  let inner := (← t.node other).child s
  let t ← t.setChild node s.flip inner
  let t ← t.setParentOf inner (some node)
  let t ← t.setChild other s (some node)
  let t ← t.setParent other parent
  let t ← t.replaceChild s parent node (some other)
  t.setParent node (some other)

/-- `__rb_rotate_left`. -/
def rbRotateLeft : Ptr → RbTree → Outcome RbTree := rbRotate .left

/-- `__rb_rotate_right`. -/
def rbRotateRight : Ptr → RbTree → Outcome RbTree := rbRotate .right

/-- The body of the loop of `rb_insert_color` for a red `parent` that is the
child of `gparent` on the side `s`; the result is the node to go on with. -/
def rbInsertColorSide (s : Side) (node parent gparent : Ptr) (t : RbTree) :
    Outcome (Ptr × RbTree) := do
  let uncle := (← t.node gparent).child s.flip
  if ← t.isRed uncle then
    let t ← t.setColor (← deref uncle) .black
    let t ← t.setColor parent .black
    let t ← t.setColor gparent .red
    .ok (gparent, t)
  else
    let (node, parent, t) ←
      if (← t.node parent).child s.flip = some node then do
        let t ← rbRotate s parent t
        .ok (parent, node, t)
      else .ok (node, parent, t)
    let t ← t.setColor parent .black
    let t ← t.setColor gparent .red
    let t ← rbRotate s.flip gparent t
    .ok (node, t)

/-- The loop of `rb_insert_color`. -/
def rbInsertColorLoop : Nat → Ptr → RbTree → Outcome RbTree
  | 0, _, _ => .error .loopBound
  | n + 1, node, t => do
    match (← t.node node).rbParent with
    | none => .ok t
    | some parent =>
      if (← t.node parent).rbColor = .red then
        let gparent ← deref (← t.node parent).rbParent
        let side := if (← t.node gparent).rbLeft = some parent then Side.left else Side.right
        let (node, t) ← rbInsertColorSide side node parent gparent t
        rbInsertColorLoop n node t
      else .ok t

/-- `rb_insert_color`. -/
def rbInsertColor (node : Ptr) (t : RbTree) : Outcome RbTree := do
  let t ← rbInsertColorLoop (t.next + 1) node t
  t.setColor (← deref t.root) .black

/-- Where a child pointer is stored: `rb_node **`. -/
inductive Link where
  | root
  | child (parent : Ptr) (side : Side)
  deriving DecidableEq, Repr

/-- `*link`. -/
def RbTree.readLink (t : RbTree) : Link → Outcome (Option Ptr)
  | .root => .ok t.root
  | .child p s => do .ok ((← t.node p).child s)

/-- `*link = p`. -/
def RbTree.writeLink (t : RbTree) (p : Option Ptr) : Link → Outcome RbTree
  | .root => .ok (t.setRoot p)
  | .child q s => t.setChild q s p

/-- `rb_link_node`: the new node is red, as `RB_RED` is 0. -/
def rbLinkNode (node : Ptr) (parent : Option Ptr) (link : Link) (t : RbTree) : Outcome RbTree :=
  (t.set node ⟨parent, .red, none, none⟩).writeLink (some node) link

/-- The walk down one side that `rb_first` and `rb_next` share. -/
def descend (s : Side) : Nat → Ptr → RbTree → Outcome Ptr
  | 0, _, _ => .error .loopBound
  | n + 1, p, t => do
    match (← t.node p).child s with
    | some q => descend s n q t
    | none => .ok p

/-- `rb_first`. -/
def rbFirst (t : RbTree) : Outcome (Option Ptr) :=
  match t.root with
  | none => .ok none
  | some n => do .ok (some (← descend .left (t.next + 1) n t))

/-- The walk up of `rb_next`, while the node is a right child. -/
def ascend : Nat → Ptr → RbTree → Outcome (Option Ptr)
  | 0, _, _ => .error .loopBound
  | n + 1, p, t => do
    match (← t.node p).rbParent with
    | some q => if (← t.node q).rbRight = some p then ascend n q t else .ok (some q)
    | none => .ok none

/-- `rb_next`. -/
def rbNext (p : Ptr) (t : RbTree) : Outcome (Option Ptr) := do
  let n ← t.node p
  if n.rbParent = some p then .ok none
  else match n.rbRight with
    | some r => do .ok (some (← descend .left (t.next + 1) r t))
    | none => ascend (t.next + 1) p t

/-- `rb_last`. -/
def rbLast (t : RbTree) : Outcome (Option Ptr) :=
  match t.root with
  | none => .ok none
  | some n => do .ok (some (← descend .right (t.next + 1) n t))

/-- The walk up of `rb_prev`, while the node is a left child. -/
def ascendLeft : Nat → Ptr → RbTree → Outcome (Option Ptr)
  | 0, _, _ => .error .loopBound
  | n + 1, p, t => do
    match (← t.node p).rbParent with
    | some q => if (← t.node q).rbLeft = some p then ascendLeft n q t else .ok (some q)
    | none => .ok none

/-- `rb_prev`. -/
def rbPrev (p : Ptr) (t : RbTree) : Outcome (Option Ptr) := do
  let n ← t.node p
  if n.rbParent = some p then .ok none
  else match n.rbLeft with
    | some l => do .ok (some (← descend .right (t.next + 1) l t))
    | none => ascendLeft (t.next + 1) p t

/-- `rb_replace_node`. -/
def rbReplaceNode (victim new : Ptr) (t : RbTree) : Outcome RbTree := do
  let n ← t.node victim
  let t ← t.replaceChild .left n.rbParent victim (some new)
  let t ← t.setParentOf (← t.node victim).rbLeft (some new)
  let t ← t.setParentOf (← t.node victim).rbRight (some new)
  .ok (t.set new (← t.node victim))

/-- How a turn of the loop of `__rb_erase_color` ends. -/
inductive EraseTurn where
  /-- The loop goes on with this `node` and this `parent`. -/
  | again (node parent : Option Ptr)
  /-- `node` is set and the loop is left by `break`. -/
  | stop (node : Option Ptr)

/-- One turn of the loop of `__rb_erase_color` for a `node` that is the child of
`parent` on the side `s`. -/
def rbEraseColorSide (s : Side) (parent : Ptr) (t : RbTree) : Outcome (EraseTurn × RbTree) := do
  let other ← deref ((← t.node parent).child s.flip)
  let (other, t) ←
    if (← t.node other).rbColor = .red then do
      let t ← t.setColor other .black
      let t ← t.setColor parent .red
      let t ← rbRotate s parent t
      let other ← deref ((← t.node parent).child s.flip)
      .ok (other, t)
    else .ok (other, t)
  let bothBlack ←
    if ← t.isBlack (← t.node other).rbLeft then t.isBlack (← t.node other).rbRight else .ok false
  if bothBlack then
    let t ← t.setColor other .red
    .ok (.again (some parent) (← t.node parent).rbParent, t)
  else
    let (other, t) ←
      if ← t.isBlack ((← t.node other).child s.flip) then do
        let t ← t.setColor (← deref ((← t.node other).child s)) .black
        let t ← t.setColor other .red
        let t ← rbRotate s.flip other t
        let other ← deref ((← t.node parent).child s.flip)
        .ok (other, t)
      else .ok (other, t)
    let t ← t.setColor other (← t.node parent).rbColor
    let t ← t.setColor parent .black
    let t ← t.setColor (← deref ((← t.node other).child s.flip)) .black
    let t ← rbRotate s parent t
    .ok (.stop t.root, t)

/-- The loop of `__rb_erase_color`: the node it ends at. -/
def rbEraseColorLoop : Nat → Option Ptr → Option Ptr → RbTree → Outcome (Option Ptr × RbTree)
  | 0, _, _, _ => .error .loopBound
  | n + 1, node, parent, t => do
    if (← t.isBlack node) && node != t.root then
      let p ← deref parent
      let side := if (← t.node p).rbLeft = node then Side.left else Side.right
      match ← rbEraseColorSide side p t with
      | (.again node parent, t) => rbEraseColorLoop n node parent t
      | (.stop node, t) => .ok (node, t)
    else .ok (node, t)

/-- `__rb_erase_color`. -/
def rbEraseColor (node parent : Option Ptr) (t : RbTree) : Outcome RbTree := do
  let (node, t) ← rbEraseColorLoop (t.next + 1) node parent t
  match node with
  | some n => t.setColor n .black
  | none => .ok t

/-- `rb_erase`. -/
def rbErase (node : Ptr) (t : RbTree) : Outcome RbTree := do
  let n ← t.node node
  match n.rbLeft, n.rbRight with
  | some left, some right =>
    let old := node
    let node ← descend .left (t.next + 1) right t
    let t ← t.replaceChild .left n.rbParent old (some node)
    let child := (← t.node node).rbRight
    let parent := (← t.node node).rbParent
    let color := (← t.node node).rbColor
    let (parent, t) ←
      if parent = some old then .ok (some node, t)
      else do
        let t ← t.setParentOf child parent
        let t ← t.setChild (← deref parent) .left child
        let t ← t.setChild node .right (← t.node old).rbRight
        let t ← t.setParent right (some node)
        .ok (parent, t)
    let o ← t.node old
    let t ← t.setParent node o.rbParent
    let t ← t.setColor node o.rbColor
    let t ← t.setChild node .left o.rbLeft
    let t ← t.setParent left (some node)
    if color = .black then rbEraseColor child parent t else .ok t
  | left, right =>
    let child := if left.isNone then right else left
    let t ← t.setParentOf child n.rbParent
    let t ← t.replaceChild .left n.rbParent node child
    if n.rbColor = .black then rbEraseColor child n.rbParent t else .ok t

/-- `rb_augment_f`: a callback for a node, which reads the tree and changes what `data` points to. -/
abbrev RbAugmentF (σ : Type) := Ptr → RbTree → σ → Outcome σ

section

variable {σ : Type} (func : RbAugmentF σ)

/-- The loop of `rb_augment_path`. -/
def rbAugmentPathLoop : Nat → Ptr → RbTree → σ → Outcome σ
  | 0, _, _, _ => .error .loopBound
  | n + 1, node, t, data => do
    let data ← func node t data
    match (← t.node node).rbParent with
    | none => .ok data
    | some parent =>
      let left := (← t.node parent).rbLeft
      let right := (← t.node parent).rbRight
      let data ←
        if left = some node ∧ right.isSome then func (← deref right) t data
        else if left.isSome then func (← deref left) t data
        else .ok data
      rbAugmentPathLoop n parent t data

/-- `rb_augment_path`. -/
def rbAugmentPath (node : Ptr) (t : RbTree) (data : σ) : Outcome σ := rbAugmentPathLoop func (t.next + 1) node t data

/-- `rb_augment_insert`. -/
def rbAugmentInsert (node : Ptr) (t : RbTree) (data : σ) : Outcome σ := do
  let n ← t.node node
  match n.rbLeft, n.rbRight with
  | some left, _ => rbAugmentPath func left t data
  | none, some right => rbAugmentPath func right t data
  | none, none => rbAugmentPath func node t data

/-- `rb_augment_erase_begin`. -/
def rbAugmentEraseBegin (node : Ptr) (t : RbTree) : Outcome (Option Ptr) := do
  let n ← t.node node
  if n.rbRight = none ∧ n.rbLeft = none then .ok n.rbParent
  else if n.rbRight = none then .ok n.rbLeft
  else if n.rbLeft = none then .ok n.rbRight
  else do
    let deepest ← deref (← rbNext node t)
    let d ← t.node deepest
    if d.rbRight.isSome then .ok d.rbRight
    else if d.rbParent ≠ some node then .ok d.rbParent
    else .ok (some deepest)

/-- `rb_augment_erase_end`. -/
def rbAugmentEraseEnd (node : Option Ptr) (t : RbTree) (data : σ) : Outcome σ :=
  match node with
  | some n => rbAugmentPath func n t data
  | none => .ok data

end

end CodeBackup.Rbtree
