import CodeBackup.Rbtree.Replace

/-!
# The stores of a removal with two children

`rb_erase` of a node `p` with two children exchanges it for its successor `m`.
The stores are named here one after the other, and what they leave is compared
with what two operations leave that the code does not do: `m` is taken out of
its place (`spliced`), and then takes the place of `p` (`Replaced`). That needs
only that the pointers around `p` and `m` are apart (`Around`, `Below`); the tree
is not looked at.
-/

namespace CodeBackup.Rbtree

open C C.Outcome ColorTree

namespace RbTree

variable {t : RbTree} {o x : Option Ptr} {p m q a b u : Ptr} {n : RbNode}

/-- The pointer to `p` at its parent `o`, or the root, points to `new`. -/
def hang (o : Option Ptr) (p : Ptr) (new : Option Ptr) (t : RbTree) : RbTree :=
  (t.upd o fun n => n.setChild (if n.child .left = some p then .left else Side.left.flip) new).setRoot
    (if o = none then new else t.root)

/-- The parent of `x`, if `x` is an address, is `par`. -/
def adopt (x par : Option Ptr) (t : RbTree) : RbTree := t.upd x fun n => { n with rbParent := par }

/-- `m`, which is a child of `a`, is taken out, and its child `x` stands there. -/
def spliced (a m : Ptr) (x : Option Ptr) (t : RbTree) : RbTree := (t.adopt x (some a)).hang (some a) m x

/-- The stores for a successor that is further down: `x` becomes the left child of its parent `a`, and the right child
`b` of `p` that of the successor. -/
def relinkBelow (m a b : Ptr) (x : Option Ptr) (t : RbTree) : RbTree :=
  (((t.adopt x (some a)).upd (some a) fun n => n.setChild .left x).upd (some m) fun n =>
    n.setChild .right (some b)).adopt (some b) (some m)

/-- The last stores: `m` gets the parent, the colour and the left child of the record `n`. -/
def takeOver (m : Ptr) (n : RbNode) (t : RbTree) : RbTree :=
  (((t.adopt (some m) n.rbParent).upd (some m) fun o => { o with rbColor := n.rbColor }).upd (some m) fun o =>
    o.setChild .left n.rbLeft).adopt n.rbLeft (some m)

theorem hang_of (live : ∀ u, o = some u → (t.heap u).isSome) (new : Option Ptr) :
    t.replaceChild .left o p new = .ok (t.hang o p new) := replaceChild_of live p new

theorem adopt_of (live : ∀ u, x = some u → (t.heap u).isSome) (par : Option Ptr) :
    t.setParentOf x par = .ok (t.adopt x par) := setParentOf_of live par

@[simp] theorem hang_heap {new : Option Ptr} : (t.hang o p new).heap u =
    if o = some u then (t.heap u).map fun n =>
      n.setChild (if n.child .left = some p then .left else Side.left.flip) new else t.heap u := rfl

@[simp] theorem hang_root {new : Option Ptr} : (t.hang o p new).root = if o = none then new else t.root := rfl

@[simp] theorem hang_next {new : Option Ptr} : (t.hang o p new).next = t.next := rfl

@[simp] theorem adopt_heap {par : Option Ptr} : (t.adopt x par).heap u =
    if x = some u then (t.heap u).map fun n => { n with rbParent := par } else t.heap u := rfl

@[simp] theorem adopt_root {par : Option Ptr} : (t.adopt x par).root = t.root := rfl

@[simp] theorem adopt_next {par : Option Ptr} : (t.adopt x par).next = t.next := rfl

theorem hang_isSome {new : Option Ptr} : ((t.hang o p new).heap u).isSome = (t.heap u).isSome := upd_isSome

theorem adopt_isSome {par : Option Ptr} : ((t.adopt x par).heap u).isSome = (t.heap u).isSome := upd_isSome

theorem relinkBelow_isSome : ((t.relinkBelow m a b x).heap u).isSome = (t.heap u).isSome := by
  rw [relinkBelow, adopt_isSome, upd_isSome, upd_isSome, adopt_isSome]

/-! ## What the stores leave at a node -/

/-- Nodes that are not named keep their records. -/
theorem relinkBelow_other (xu : x ≠ some u) (au : a ≠ u) (mu : m ≠ u) (bu : b ≠ u) :
    (t.relinkBelow m a b x).heap u = t.heap u := by
  simp [relinkBelow, xu, au, mu, bu]

theorem takeOver_other (mu : m ≠ u) (qu : n.rbLeft ≠ some u) : (t.takeOver m n).heap u = t.heap u := by
  simp [takeOver, mu, qu]

theorem takeOver_self {r : RbNode} (hm : t.heap m = some r) (qm : n.rbLeft ≠ some m) :
    (t.takeOver m n).heap m = some { n with rbRight := r.rbRight } := by
  simp [takeOver, hm, qm, RbNode.setChild]

theorem takeOver_left (hq : n.rbLeft = some q) (mq : m ≠ q) :
    (t.takeOver m n).heap q = (t.heap q).map fun r => { r with rbParent := some m } := by
  simp [takeOver, hq, mq]

end RbTree

/-! ## Pointers that are apart -/

/-- The pointers around `p` and its successor `m` are apart: the parent `o` of `p`, its left child `q`, and the right
child `x` of `m`. -/
structure Around (o x : Option Ptr) (p m q : Ptr) : Prop where
  op : o ≠ some p
  om : o ≠ some m
  oq : o ≠ some q
  xo : ∀ u, o = some u → x ≠ some u
  xp : x ≠ some p
  xm : x ≠ some m
  xq : x ≠ some q
  pm : p ≠ m
  pq : p ≠ q
  mq : m ≠ q

/-- So are the parent `a` of the successor and the right child `b` of `p`, if neither is `p` or `m`; but `a` may be
`b`. -/
structure Below (o x : Option Ptr) (p m q a b : Ptr) : Prop extends Around o x p m q where
  oa : o ≠ some a
  ob : o ≠ some b
  xa : x ≠ some a
  xb : x ≠ some b
  pa : p ≠ a
  pb : p ≠ b
  ma : m ≠ a
  mb : m ≠ b
  qa : q ≠ a
  qb : q ≠ b

variable {t : RbTree} {o x : Option Ptr} {p m q a b : Ptr} {c cm : Color}

/-- **The stores for a right child** leave what the two operations leave. -/
theorem Around.replaced (h : Around o x p m q) (hm : t.heap m = some ⟨some p, cm, x, none⟩)
    (hx : ∀ u, x = some u → ∃ r, t.heap u = some r ∧ r.rbParent = some m) :
    Replaced p m ⟨o, c, x, some q⟩ (t.spliced p m x)
      ((t.hang o p (some m)).takeOver m ⟨o, c, some m, some q⟩) where
  self := by
    have hm' : (t.hang o p (some m)).heap m = some ⟨some p, cm, x, none⟩ := by simp [h.om, hm]
    rw [RbTree.takeOver_self hm' (by simpa using h.mq.symm)]
  hung u r hu hr := by
    have hu : o = some u := hu
    have pu : p ≠ u := fun e => h.op (e ▸ hu)
    have mu : m ≠ u := fun e => h.om (e ▸ hu)
    have qu : q ≠ u := fun e => h.oq (e ▸ hu)
    have hr : t.heap u = some r := by simpa [RbTree.spliced, pu, h.xo u hu] using hr
    rw [RbTree.takeOver_other mu (by simpa using qu)]
    simp [hu, hr]
  below u r hu hr := by
    rcases hu with hu | hu
    · obtain rfl : q = u := by simpa using hu
      have hr : t.heap q = some r := by simpa [RbTree.spliced, h.pq, h.xq] using hr
      rw [RbTree.takeOver_left rfl h.mq]
      simp [h.oq, hr]
    · -- the stores leave the parent of `x` alone, as it is already the successor
      have hu : x = some u := hu
      have pu : p ≠ u := fun e => h.xp (e ▸ hu)
      have mu : m ≠ u := fun e => h.xm (e ▸ hu)
      have qu : q ≠ u := fun e => h.xq (e ▸ hu)
      have ou : o ≠ some u := fun e => h.xo u e hu
      obtain ⟨⟨par, co, ri, le⟩, hr', rfl⟩ := hx u hu
      have hr : (⟨some p, co, ri, le⟩ : RbNode) = r := by simpa [RbTree.spliced, pu, hu, hr'] using hr
      rw [RbTree.takeOver_other mu (by simpa using qu)]
      simp [ou, hr', ← hr]
  root := by simp [RbTree.takeOver, RbTree.spliced]
  same u pu mu ou qu xu := by
    have ou : o ≠ some u := ou
    have xu : x ≠ some u := xu
    have qu : q ≠ u := by simpa using qu
    rw [RbTree.takeOver_other mu.symm (by simpa using qu)]
    simp [RbTree.spliced, ou, pu.symm, xu]
  next := rfl

/-- **The stores for a successor further down** leave what the two operations leave. -/
theorem Below.replaced (h : Below o x p m q a b) (hm : t.heap m = some ⟨some a, cm, x, none⟩) {n : RbNode}
    (ha : t.heap a = some n) (left : n.rbLeft = some m) :
    Replaced p m ⟨o, c, some b, some q⟩ (t.spliced a m x)
      (((t.hang o p (some m)).relinkBelow m a b x).takeOver m ⟨o, c, some b, some q⟩) where
  self := by
    have hm' : ((t.hang o p (some m)).relinkBelow m a b x).heap m = some ⟨some a, cm, some b, none⟩ := by
      simp [RbTree.relinkBelow, h.om, h.xm, h.ma.symm, h.mb.symm, hm, RbNode.setChild]
    rw [RbTree.takeOver_self hm' (by simpa using h.mq.symm)]
  hung u r hu hr := by
    have hu : o = some u := hu
    have mu : m ≠ u := fun e => h.om (e ▸ hu)
    have qu : q ≠ u := fun e => h.oq (e ▸ hu)
    have au : a ≠ u := fun e => h.oa (e ▸ hu)
    have bu : b ≠ u := fun e => h.ob (e ▸ hu)
    have hr : t.heap u = some r := by simpa [RbTree.spliced, au, h.xo u hu] using hr
    rw [RbTree.takeOver_other mu (by simpa using qu), RbTree.relinkBelow_other (h.xo u hu) au mu bu]
    simp [hu, hr]
  below u r hu hr := by
    rcases hu with hu | hu
    · obtain rfl : q = u := by simpa using hu
      have hr : t.heap q = some r := by simpa [RbTree.spliced, h.qa.symm, h.xq] using hr
      rw [RbTree.takeOver_left rfl h.mq, RbTree.relinkBelow_other h.xq h.qa.symm h.mq h.qb.symm]
      simp [h.oq, hr]
    · obtain rfl : b = u := by simpa using hu
      rw [RbTree.takeOver_other h.mb (by simpa using h.qb)]
      by_cases ab : a = b
      · subst ab
        have hr : n.setChild .left x = r := by
          simpa [RbTree.spliced, h.xa, ha, RbNode.child, left] using hr
        simp [RbTree.relinkBelow, h.ma, h.xa, h.oa, ha, ← hr, RbNode.setChild]
      · have hr : t.heap b = some r := by simpa [RbTree.spliced, ab, h.xb] using hr
        simp [RbTree.relinkBelow, h.mb, ab, h.xb, h.ob, hr]
  root := by simp [RbTree.takeOver, RbTree.relinkBelow, RbTree.spliced]
  same u pu mu ou qu bu := by
    have bu : b ≠ u := by simpa using bu
    have ou : o ≠ some u := ou
    rw [RbTree.takeOver_other mu.symm qu]
    by_cases au : a = u
    · subst au
      simp [RbTree.relinkBelow, RbTree.spliced, mu.symm, bu, ou, h.xa, ha, RbNode.child, left]
    · simp [RbTree.relinkBelow, RbTree.spliced, mu.symm, bu, ou, au]
  next := rfl

/-! ## The code -/

/-- The last stores return. -/
theorem RbTree.takeOver_of {α : Type} {n : RbNode} (hm : (t.heap m).isSome) (hq : (t.heap q).isSome)
    (left : n.rbLeft = some q) (next : RbTree → Outcome α) :
    (do
      let t ← t.setParent m n.rbParent
      let t ← t.setColor m n.rbColor
      let t ← t.setChild m .left n.rbLeft
      let t ← t.setParent q (some m)
      next t) = next (t.takeOver m n) := by
  have some_ : ∀ {o : Option Ptr} {f : RbNode → RbNode} {u : RbTree} {v : Ptr},
      (u.heap v).isSome → ((u.upd o f).heap v).isSome := fun h => by rwa [RbTree.upd_isSome]
  rw [RbTree.setParent_of hm, ok_bind, RbTree.setColor_of (some_ hm), ok_bind, RbTree.setChild_of (some_ (some_ hm)),
    ok_bind, RbTree.setParent_of (some_ (some_ (some_ hq))), ok_bind, RbTree.takeOver, left]
  rfl

/-- **`rb_erase`**, if the successor is the right child. -/
theorem Around.rbErase (h : Around o x p m q) (hp : t.heap p = some ⟨o, c, some m, some q⟩)
    (hm : t.heap m = some ⟨some p, cm, x, none⟩) (ho : ∀ u, o = some u → (t.heap u).isSome) (hq : (t.heap q).isSome) :
    Rbtree.rbErase p t =
      if cm = .black then rbEraseColor x (some m) ((t.hang o p (some m)).takeOver m ⟨o, c, some m, some q⟩)
      else .ok ((t.hang o p (some m)).takeOver m ⟨o, c, some m, some q⟩) := by
  have down : descend .left (t.next + 1) m t = .ok m := by simp [descend, RbTree.node_of hm, RbNode.child]
  have hp₁ : (t.hang o p (some m)).heap p = some ⟨o, c, some m, some q⟩ := by simp [h.op, hp]
  have hm₁ : (t.hang o p (some m)).heap m = some ⟨some p, cm, x, none⟩ := by simp [h.om, hm]
  simp only [Rbtree.rbErase, RbTree.node_of hp, ok_bind, down, RbTree.hang_of ho, RbTree.node_of hm₁, if_true,
    RbTree.node_of hp₁]
  exact RbTree.takeOver_of (n := ⟨o, c, some m, some q⟩) (by rw [hm₁]; rfl) (by rwa [RbTree.hang_isSome]) rfl _

/-- The stores for a successor further down return. -/
theorem Below.relinkBelow_of {α : Type} (h : Below o x p m q a b) (hp : t.heap p = some ⟨o, c, some b, some q⟩)
    (hm : (t.heap m).isSome) (ha : (t.heap a).isSome) (hb : (t.heap b).isSome)
    (hx : ∀ u, x = some u → (t.heap u).isSome) (next : RbTree → Outcome α) :
    (do
      let t ← t.setParentOf x (some a)
      let t ← t.setChild a .left x
      let t ← t.setChild m .right (← t.node p).rbRight
      let t ← t.setParent b (some m)
      next t) = next (t.relinkBelow m a b x) := by
  have hp₂ : ((t.adopt x (some a)).upd (some a) fun n => n.setChild .left x).heap p = some ⟨o, c, some b, some q⟩ := by
    simp [h.pa.symm, h.xp, hp]
  rw [RbTree.adopt_of hx, ok_bind, RbTree.setChild_of (by rwa [RbTree.adopt_isSome]), ok_bind, RbTree.node_of hp₂,
    ok_bind, RbTree.setChild_of (by rwa [RbTree.upd_isSome, RbTree.adopt_isSome]), ok_bind,
    RbTree.setParent_of (by rwa [RbTree.upd_isSome, RbTree.upd_isSome, RbTree.adopt_isSome]), ok_bind]
  rfl

/-- **`rb_erase`**, if the successor is further down. -/
theorem Below.rbErase (h : Below o x p m q a b) (hp : t.heap p = some ⟨o, c, some b, some q⟩)
    (hm : t.heap m = some ⟨some a, cm, x, none⟩) (down : descend .left (t.next + 1) b t = .ok m)
    (ho : ∀ u, o = some u → (t.heap u).isSome) (hq : (t.heap q).isSome) (ha : (t.heap a).isSome)
    (hb : (t.heap b).isSome) (hx : ∀ u, x = some u → (t.heap u).isSome) :
    Rbtree.rbErase p t =
      if cm = .black then
        rbEraseColor x (some a) (((t.hang o p (some m)).relinkBelow m a b x).takeOver m ⟨o, c, some b, some q⟩)
      else .ok (((t.hang o p (some m)).relinkBelow m a b x).takeOver m ⟨o, c, some b, some q⟩) := by
  have hp₁ : (t.hang o p (some m)).heap p = some ⟨o, c, some b, some q⟩ := by simp [h.op, hp]
  have hm₁ : (t.hang o p (some m)).heap m = some ⟨some a, cm, x, none⟩ := by simp [h.om, hm]
  have live : ∀ {u}, (t.heap u).isSome → ((t.hang o p (some m)).heap u).isSome := fun hu => by
    rwa [RbTree.hang_isSome]
  have hp₂ : ((t.hang o p (some m)).relinkBelow m a b x).heap p = some ⟨o, c, some b, some q⟩ := by
    rw [RbTree.relinkBelow_other h.xp h.pa.symm h.pm.symm h.pb.symm, hp₁]
  have hm₂ : (((t.hang o p (some m)).relinkBelow m a b x).heap m).isSome := by
    rw [RbTree.relinkBelow_isSome, hm₁]
    rfl
  simp only [Rbtree.rbErase, RbTree.node_of hp, ok_bind, down, RbTree.hang_of ho, RbTree.node_of hm₁,
    Option.some.injEq, h.pa.symm, if_false, deref_some]
  refine (h.relinkBelow_of hp₁ (by rw [hm₁]; rfl) (live ha) (live hb) (fun u hu => live (hx u hu)) _).trans ?_
  rw [RbTree.node_of hp₂, ok_bind]
  refine RbTree.takeOver_of (n := ⟨o, c, some b, some q⟩) hm₂ ?_ rfl _
  rw [RbTree.relinkBelow_isSome]
  exact live hq

end CodeBackup.Rbtree
