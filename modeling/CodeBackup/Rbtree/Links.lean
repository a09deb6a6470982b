import CodeBackup.Rbtree.Code

/-!
# Trees in memory

`Shape.At` says that a shape stands in memory below a given parent pointer,
`Path.At` that the ancestors of a place do. `Rep t T` is the whole tree: every
node of `T` has the record the shape prescribes, parent link included, and no
address occurs twice. The rules of this module are about one code step each:
a colour change (`Rep.setColor`), a rotation (`Rep.rotate`), the link of a new
leaf (`Rep.link`).
-/

namespace CodeBackup.ColorTree

open Rbtree

/-- The nodes of the shape are in memory, the root with parent pointer `parent`. -/
def Shape.At (h : Ptr → Option RbNode) (parent : Option Ptr) : Shape Ptr → Prop
  | .nil => True
  | .node c l p r => h p = some ⟨parent, c, r.root?, l.root?⟩ ∧ l.At h (some p) ∧ r.At h (some p)

/-- The record of a frame's node, `hole` being its child on the path's side. -/
def Frame.record (f : Frame Ptr) (parent hole : Option Ptr) : RbNode :=
  match f.side with
  | .left => ⟨parent, f.color, f.sibling.root?, hole⟩
  | .right => ⟨parent, f.color, hole, f.sibling.root?⟩

/-- The ancestors of a place are in memory, the innermost one with `hole` as its child
there; the outermost one, or `hole` itself, is the root. -/
def Path.At (h : Ptr → Option RbNode) (root : Option Ptr) : Path Ptr → Option Ptr → Prop
  | [], hole => root = hole
  | f :: k, hole =>
    h f.label = some (f.record (Path.parent? k) hole) ∧ f.sibling.At h (some f.label) ∧
      Path.At h root k (some f.label)

namespace Frame

variable (f : Frame Ptr) (parent hole : Option Ptr)

@[simp] theorem record_parent : (f.record parent hole).rbParent = parent := by
  unfold record; cases f.side <;> rfl

@[simp] theorem record_color : (f.record parent hole).rbColor = f.color := by
  unfold record; cases f.side <;> rfl

@[simp] theorem record_child : (f.record parent hole).child f.side = hole := by
  unfold record RbNode.child; cases f.side <;> rfl

@[simp] theorem record_child_flip : (f.record parent hole).child f.side.flip = f.sibling.root? := by
  unfold record RbNode.child Side.flip; cases f.side <;> rfl

theorem record_setChild (hole' : Option Ptr) :
    (f.record parent hole).setChild f.side hole' = f.record parent hole' := by
  unfold record RbNode.setChild; cases f.side <;> rfl

@[simp] theorem fill_at {h : Ptr → Option RbNode} {t : Shape Ptr} :
    (f.fill t).At h parent ↔
      h f.label = some (f.record parent t.root?) ∧ t.At h (some f.label) ∧
        f.sibling.At h (some f.label) := by
  obtain ⟨side, c, a, s⟩ := f
  cases side <;> simp [Shape.At, record, and_comm]

@[simp] theorem mem_fill {a : Ptr} {t : Shape Ptr} :
    a ∈ (f.fill t).toList ↔ a = f.label ∨ a ∈ t.toList ∨ a ∈ f.sibling.toList := by
  obtain ⟨side, c, b, s⟩ := f
  cases side <;> simp <;> tauto

theorem fill_nodup {t : Shape Ptr} : (f.fill t).toList.Nodup ↔
    f.label ∉ t.toList ∧ f.label ∉ f.sibling.toList ∧ t.toList.Nodup ∧ f.sibling.toList.Nodup ∧
      t.toList.Disjoint f.sibling.toList := by
  obtain ⟨side, c, b, s⟩ := f
  cases side <;> simp [List.nodup_append, List.disjoint_left] <;> grind

/-- The side of the hole, found by what hangs there. -/
theorem record_side (f : Frame Ptr) {par : Option Ptr} {p : Ptr} {s : Side} (sibling : f.sibling.root? ≠ some p) :
    (if (f.record par (some p)).child s = some p then s else s.flip) = f.side := by
  by_cases e : f.side = s
  · subst e
    simp
  · obtain rfl := Side.eq_flip_of_ne e
    simp [sibling]

end Frame

/-- The addresses of the ancestors and of their other subtrees. -/
def Path.labels (k : Path Ptr) : List Ptr := k.before ++ k.after

theorem Path.mem_labels_cons {f : Frame Ptr} {k : Path Ptr} {a : Ptr} :
    a ∈ Path.labels (f :: k) ↔ a = f.label ∨ a ∈ f.sibling.toList ∨ a ∈ Path.labels k := by
  obtain ⟨side, c, b, s⟩ := f
  cases side <;> simp [labels] <;> tauto

theorem mem_plug {k : Path Ptr} {t : Shape Ptr} {a : Ptr} :
    a ∈ (plug k t).toList ↔ a ∈ t.toList ∨ a ∈ k.labels := by
  simp [plug_toList, Path.labels]; tauto

/-- The parts of a tree have distinct addresses, and no address is in both. -/
theorem plug_nodup {k : Path Ptr} {t : Shape Ptr} : (plug k t).toList.Nodup ↔
    t.toList.Nodup ∧ k.labels.Nodup ∧ t.toList.Disjoint k.labels := by
  simp only [plug_toList, Path.labels, List.nodup_append, List.disjoint_left, List.mem_append]
  grind

/-! ## Framing -/

theorem Shape.At.congr {h h' : Ptr → Option RbNode} {parent : Option Ptr} {t : Shape Ptr}
    (at_ : t.At h parent) (same : ∀ p ∈ t.toList, h' p = h p) : t.At h' parent := by
  induction t generalizing parent with
  | nil => trivial
  | node c l a r ihl ihr =>
    obtain ⟨ha, hl, hr⟩ := at_
    refine ⟨by rw [same a (by simp), ha], ihl hl fun p hp => same p (by simp [hp]), ihr hr fun p hp =>
      same p (by simp [hp])⟩

theorem Path.At.congr {h h' : Ptr → Option RbNode} {root : Option Ptr} {k : Path Ptr}
    {hole : Option Ptr} (at_ : Path.At h root k hole) (same : ∀ p ∈ Path.labels k, h' p = h p) :
    Path.At h' root k hole := by
  induction k generalizing hole with
  | nil => exact at_
  | cons f k ih =>
    obtain ⟨hf, hs, hk⟩ := at_
    simp only [mem_labels_cons] at same
    exact ⟨by rw [same _ (.inl rfl), hf], hs.congr fun p hp => same p (.inr (.inl hp)),
      ih hk fun p hp => same p (.inr (.inr hp))⟩

theorem Shape.At.isSome {h : Ptr → Option RbNode} {parent : Option Ptr} {t : Shape Ptr}
    (at_ : t.At h parent) {p : Ptr} (hp : p ∈ t.toList) : (h p).isSome := by
  induction t generalizing parent with
  | nil => simp at hp
  | node c l a r ihl ihr =>
    obtain ⟨ha, hl, hr⟩ := at_
    simp only [toList_node, List.mem_append, List.mem_cons] at hp
    rcases hp with hp | rfl | hp
    · exact ihl hl hp
    · simp [ha]
    · exact ihr hr hp

/-- What stands below a pointer is determined by it. -/
theorem Shape.At.unique {h : Ptr → Option RbNode} {parent parent' : Option Ptr} {t t' : Shape Ptr}
    (at_ : t.At h parent) (at' : t'.At h parent') (root : t.root? = t'.root?) : t = t' := by
  induction t generalizing t' parent parent' with
  | nil =>
    cases t' with
    | nil => rfl
    | node => cases root
  | node c l a r ihl ihr =>
    cases t' with
    | nil => cases root
    | node c' l' a' r' =>
      obtain rfl : a = a' := by simpa using root
      obtain ⟨ha, hl, hr⟩ := at_
      obtain ⟨ha', hl', hr'⟩ := at'
      have record := Option.some.inj (ha.symm.trans ha')
      simp only [RbNode.mk.injEq] at record
      obtain ⟨-, rfl, right, left⟩ := record
      rw [ihl hl hl' left, ihr hr hr' right]

theorem Path.parent?_mem {k : Path Ptr} {p : Ptr} (h : Path.parent? k = some p) :
    p ∈ Path.labels k := by
  cases k with
  | nil => simp at h
  | cons f k => exact mem_labels_cons.2 (.inl (by simpa using h.symm))

theorem Path.At.parent_isSome {h : Ptr → Option RbNode} {root hole : Option Ptr} {k : Path Ptr}
    (at_ : Path.At h root k hole) {p : Ptr} (hp : Path.parent? k = some p) : (h p).isSome := by
  cases k with
  | nil => simp at hp
  | cons f k =>
    obtain rfl : f.label = p := by simpa using hp
    simp [at_.1]

/-- A subtree whose root gets another parent pointer. -/
theorem Shape.At.reparent {h h' : Ptr → Option RbNode} {parent parent' : Option Ptr} {t : Shape Ptr}
    (at_ : t.At h parent) (nodup : t.toList.Nodup)
    (root : ∀ p n, t.root? = some p → h p = some n → h' p = some { n with rbParent := parent' })
    (same : ∀ p ∈ t.toList, t.root? ≠ some p → h' p = h p) : t.At h' parent' := by
  cases t with
  | nil => trivial
  | node c l a r =>
    obtain ⟨ha, hl, hr⟩ := at_
    simp only [toList_node, List.nodup_append, List.nodup_cons, List.mem_cons] at nodup
    refine ⟨root a _ rfl ha, hl.congr fun p hp => same p (by simp [hp]) ?_,
      hr.congr fun p hp => same p (by simp [hp]) ?_⟩
    · simpa using (nodup.2.2 p hp a (.inl rfl)).symm
    · rintro ⟨⟩
      exact nodup.2.1.1 hp

/-- The place at the end of a path gets another child. -/
theorem Path.At.rehang {h h' : Ptr → Option RbNode} {root root' : Option Ptr} {k : Path Ptr}
    {hole hole' : Option Ptr} (at_ : Path.At h root k hole) (nodup : k.labels.Nodup)
    (top : k = [] → root' = hole') (keep : k ≠ [] → root' = root)
    (parent : ∀ f k', k = f :: k' → h' f.label = some (f.record (Path.parent? k') hole'))
    (same : ∀ p ∈ Path.labels k, Path.parent? k ≠ some p → h' p = h p) : Path.At h' root' k hole' := by
  cases k with
  | nil => exact top rfl
  | cons f k =>
    obtain ⟨-, hs, hk⟩ := at_
    obtain rfl := keep (by simp)
    have hne : ∀ p, p ∈ f.sibling.toList ∨ p ∈ Path.labels k → f.label ≠ p := by
      rintro p hp rfl
      have := plug_nodup.1 (show (plug k (f.fill .nil)).toList.Nodup from
        (plug_nodup (k := f :: k) (t := .nil)).2 ⟨by simp, nodup, by simp⟩)
      rw [Frame.fill_nodup, List.disjoint_left] at this
      rcases hp with hp | hp
      · exact this.1.2.1 hp
      · exact this.2.2 (by simp) hp
    refine ⟨parent f k rfl, hs.congr fun p hp => ?_, hk.congr fun p hp => ?_⟩
    · exact same p (Path.mem_labels_cons.2 (.inr (.inl hp))) (by simpa using hne p (.inl hp))
    · exact same p (Path.mem_labels_cons.2 (.inr (.inr hp))) (by simpa using hne p (.inr hp))

/-- A tree in memory, seen from one of its places. -/
theorem plug_at {h : Ptr → Option RbNode} {root : Option Ptr} (k : Path Ptr) (t : Shape Ptr) :
    (root = (plug k t).root? ∧ (plug k t).At h none) ↔
      Path.At h root k t.root? ∧ t.At h (Path.parent? k) := by
  induction k generalizing t with
  | nil => simp [Path.At]
  | cons f k ih =>
    rw [plug_cons, ih]
    simp only [Frame.fill_root?, Frame.fill_at, Path.At, Path.parent?_cons]
    tauto

end CodeBackup.ColorTree

namespace CodeBackup.Rbtree

open C C.Outcome ColorTree

/-! ## Single stores -/

namespace RbTree

variable {t : RbTree} {p q : Ptr} {n : RbNode}

/-- The node at `p`, if `p` is an address, is changed by `f`. -/
def upd (t : RbTree) (p : Option Ptr) (f : RbNode → RbNode) : RbTree :=
  { t with heap := fun q => if p = some q then (t.heap q).map f else t.heap q }

@[simp] theorem upd_heap {o : Option Ptr} {f : RbNode → RbNode} :
    (t.upd o f).heap q = if o = some q then (t.heap q).map f else t.heap q := rfl

@[simp] theorem upd_root {o : Option Ptr} {f : RbNode → RbNode} : (t.upd o f).root = t.root := rfl

@[simp] theorem upd_next {o : Option Ptr} {f : RbNode → RbNode} : (t.upd o f).next = t.next := rfl

@[simp] theorem setRoot_heap {o : Option Ptr} : (t.setRoot o).heap = t.heap := rfl

@[simp] theorem setRoot_root {o : Option Ptr} : (t.setRoot o).root = o := rfl

@[simp] theorem setRoot_next {o : Option Ptr} : (t.setRoot o).next = t.next := rfl

theorem upd_isSome {o : Option Ptr} {f : RbNode → RbNode} :
    ((t.upd o f).heap q).isSome = (t.heap q).isSome := by
  rw [upd_heap]; split <;> simp

theorem node_of (h : t.heap p = some n) : t.node p = .ok n := by simp [node, h]

theorem set_eq_upd (h : t.heap p = some n) (f : RbNode → RbNode) : t.set p (f n) = t.upd (some p) f := by
  unfold set upd
  congr 1
  funext q
  by_cases e : q = p
  · subst e; simp [h]
  · simp [e, Ne.symm e]

theorem setParent_of (h : (t.heap p).isSome) (o : Option Ptr) :
    t.setParent p o = .ok (t.upd (some p) fun n => { n with rbParent := o }) := by
  obtain ⟨n, h⟩ := Option.isSome_iff_exists.1 h
  simp [setParent, node_of h, set_eq_upd h fun n => { n with rbParent := o }]

theorem setColor_of (h : (t.heap p).isSome) (c : Color) :
    t.setColor p c = .ok (t.upd (some p) fun n => { n with rbColor := c }) := by
  obtain ⟨n, h⟩ := Option.isSome_iff_exists.1 h
  simp [setColor, node_of h, set_eq_upd h fun n => { n with rbColor := c }]

theorem setChild_of (h : (t.heap p).isSome) (s : Side) (o : Option Ptr) :
    t.setChild p s o = .ok (t.upd (some p) fun n => n.setChild s o) := by
  obtain ⟨n, h⟩ := Option.isSome_iff_exists.1 h
  simp [setChild, node_of h, set_eq_upd h fun n => n.setChild s o]

theorem setParentOf_of {c : Option Ptr} (h : ∀ p, c = some p → (t.heap p).isSome) (o : Option Ptr) :
    t.setParentOf c o = .ok (t.upd c fun n => { n with rbParent := o }) := by
  cases c with
  | none => simp [setParentOf, upd]
  | some p => exact setParent_of (h p rfl) o

theorem replaceChild_of {s : Side} {par : Option Ptr} (h : ∀ p, par = some p → (t.heap p).isSome)
    (old : Ptr) (new : Option Ptr) :
    t.replaceChild s par old new = .ok ((t.upd par fun n =>
      n.setChild (if n.child s = some old then s else s.flip) new).setRoot
        (if par = none then new else t.root)) := by
  cases par with
  | none => simp [replaceChild, upd]
  | some p =>
    obtain ⟨n, hn⟩ := Option.isSome_iff_exists.1 (h p rfl)
    have e : ∀ s', t.setChild p s' new = .ok (t.set p (n.setChild s' new)) := fun s' => by
      simp [setChild, node_of hn]
    simp only [replaceChild, node_of hn, ok_bind, e, reduceCtorEq, if_false]
    rw [← set_eq_upd hn fun n => n.setChild (if n.child s = some old then s else s.flip) new]
    split <;> rfl

end RbTree

@[simp] theorem RbNode.setChild_parent (n : RbNode) (s : Side) (o : Option Ptr) :
    (n.setChild s o).rbParent = n.rbParent := by cases s <;> rfl

@[simp] theorem RbNode.setChild_child (n : RbNode) (s : Side) (o : Option Ptr) :
    (n.setChild s o).child s = o := by cases s <;> rfl

@[simp] theorem RbNode.setChild_child_flip (n : RbNode) (s : Side) (o : Option Ptr) :
    (n.setChild s.flip o).child s = n.child s := by cases s <;> rfl

/-- What a rotation leaves in memory. `x` is rotated towards `s`, `y` is the child that
takes its place, `inner` the subtree that changes sides, `par` the parent of `x`. -/
structure Rotated (s : Side) (x y : Ptr) (inner par : Option Ptr) (t t' : RbTree) : Prop where
  down : ∀ n, t.heap x = some n →
    t'.heap x = some { n.setChild s.flip inner with rbParent := some y }
  up : ∀ n, t.heap y = some n → t'.heap y = some { n.setChild s (some x) with rbParent := par }
  moved : ∀ i n, inner = some i → t.heap i = some n → t'.heap i = some { n with rbParent := some x }
  hung : ∀ p n, par = some p → t.heap p = some n →
    t'.heap p = some (n.setChild (if n.child s = some x then s else s.flip) (some y))
  root : t'.root = if par = none then some y else t.root
  same : ∀ q, q ≠ x → q ≠ y → inner ≠ some q → par ≠ some q → t'.heap q = t.heap q
  next : t'.next = t.next

/-- **The rotation code.** -/
theorem rbRotate_spec {s : Side} {t : RbTree} {x y : Ptr} {nx ny : RbNode}
    (hx : t.heap x = some nx) (hy : t.heap y = some ny) (child : nx.child s.flip = some y)
    (hi : ∀ i, ny.child s = some i → i ≠ x ∧ i ≠ y ∧ nx.rbParent ≠ some i ∧ (t.heap i).isSome)
    (hp : ∀ p, nx.rbParent = some p → p ≠ x ∧ p ≠ y ∧ (t.heap p).isSome) (hxy : x ≠ y) :
    ∃ t', rbRotate s x t = .ok t' ∧ Rotated s x y (ny.child s) nx.rbParent t t' := by
  have sx : (t.heap x).isSome := by simp [hx]
  have sy : (t.heap y).isSome := by simp [hy]
  generalize hc : ny.child s = inner at hi ⊢
  generalize hr : nx.rbParent = par at hi hp ⊢
  have some_ : ∀ {o : Option Ptr} {f : RbNode → RbNode} {u : RbTree} {q : Ptr},
      (u.heap q).isSome → ((u.upd o f).heap q).isSome := fun h => by rwa [RbTree.upd_isSome]
  refine ⟨?t', ?run, ?rotated⟩
  case run =>
    simp only [rbRotate, RbTree.node_of hx, RbTree.node_of hy, ok_bind, child, deref_some, hc, hr]
    rw [RbTree.setChild_of sx, ok_bind,
      RbTree.setParentOf_of fun i h => some_ (hi i h).2.2.2, ok_bind,
      RbTree.setChild_of (some_ (some_ sy)), ok_bind,
      RbTree.setParent_of (some_ (some_ (some_ sy))), ok_bind,
      RbTree.replaceChild_of fun p h => some_ (some_ (some_ (some_ (hp p h).2.2))), ok_bind]
    refine RbTree.setParent_of ?_ _
    simpa only [RbTree.setRoot_heap, RbTree.upd_isSome] using sx
  case rotated =>
    constructor
    · intro n h
      have hi' : inner ≠ some x := fun e => (hi x e).1 rfl
      have hp' : par ≠ some x := fun e => (hp x e).1 rfl
      simp [hi', hp', hxy.symm, h]
    · intro n h
      have hi' : inner ≠ some y := fun e => (hi y e).2.1 rfl
      have hp' : par ≠ some y := fun e => (hp y e).2.1 rfl
      simp [hi', hp', hxy, h]
    · rintro i n rfl h
      obtain ⟨h1, h2, h3, -⟩ := hi i rfl
      simp [h1.symm, h2.symm, h3, h]
    · rintro p n rfl h
      obtain ⟨h1, h2, -⟩ := hp p rfl
      have hi' : inner ≠ some p := fun e => (hi p e).2.2.1 rfl
      simp [h1.symm, h2.symm, hi', h]
    · rfl
    · intro q h1 h2 h3 h4
      simp [h1.symm, h2.symm, h3, h4]
    · rfl

/-! ## Whole trees -/

/-- **A tree in memory.** -/
structure Rep (t : RbTree) (T : Shape Ptr) : Prop where
  root : t.root = T.root?
  at_ : T.At t.heap none
  nodup : T.toList.Nodup
  bound : ∀ p ∈ T.toList, p < t.next

/-- On the path, `y` takes the place of `x`. -/
theorem Rotated.path {s : Side} {x y : Ptr} {inner : Option Ptr} {t t' : RbTree} {k : Path Ptr}
    (rot : Rotated s x y inner (Path.parent? k) t t') (hk : Path.At t.heap t.root k (some x))
    (nodup : (Path.labels k).Nodup) (dx : x ∉ Path.labels k) (dy : y ∉ Path.labels k)
    (di : ∀ q, inner = some q → q ∉ Path.labels k) : Path.At t'.heap t'.root k (some y) := by
  refine hk.rehang nodup (fun e => ?_) (fun e => ?_) (fun f k' e => ?_) fun q hq hne => ?_
  · subst e
    simpa using rot.root
  · obtain ⟨f, k', rfl⟩ := List.exists_cons_of_ne_nil e
    simpa using rot.root
  · subst e
    obtain ⟨hf, hs, -⟩ := hk
    have sibling : f.sibling.root? ≠ some x := fun e => dx (Path.mem_labels_cons.2 (.inr (.inl (Shape.root?_mem e))))
    have e := rot.hung f.label _ (by simp) hf
    rwa [f.record_side sibling, Frame.record_setChild] at e
  · exact rot.same q (fun e => dx (e ▸ hq)) (fun e => dy (e ▸ hq)) (fun e => di q e hq) hne

namespace Rep

variable {t : RbTree} {T : Shape Ptr} {k : Path Ptr}

theorem empty : Rep .empty .nil := ⟨rfl, trivial, by simp, by simp⟩

/-- The links in memory determine the tree. -/
theorem unique {T' : Shape Ptr} (h : Rep t T) (h' : Rep t T') : T = T' :=
  h.at_.unique h'.at_ (h.root.symm.trans h'.root)

theorem node_of {T : Shape Ptr} (h : Rep t (plug k T)) :
    Path.At t.heap t.root k T.root? ∧ T.At t.heap (Path.parent? k) :=
  (plug_at k T).1 ⟨h.root, h.at_⟩

/-- A tree that has the nodes of another one, from its pieces. -/
theorem of_plug {t' : RbTree} {T T' : Shape Ptr} (h : Rep t (plug k T))
    (hk : Path.At t'.heap t'.root k T'.root?) (hT : T'.At t'.heap (Path.parent? k))
    (same : T'.toList.Perm T.toList) (next : t'.next = t.next) : Rep t' (plug k T') where
  root := ((plug_at k T').2 ⟨hk, hT⟩).1
  at_ := ((plug_at k T').2 ⟨hk, hT⟩).2
  nodup := by
    have := h.nodup
    rw [plug_nodup] at this ⊢
    exact ⟨(same.nodup_iff).2 this.1, this.2.1, fun a ha => this.2.2 (same.mem_iff.1 ha)⟩
  bound p hp := by
    rw [next]
    apply h.bound p
    rw [mem_plug] at hp ⊢
    exact hp.imp_left same.mem_iff.1

/-- The colour of one node changes. -/
theorem setColor {c : Color} {l r : Shape Ptr} {p : Ptr} (h : Rep t (plug k (.node c l p r)))
    (c' : Color) : ∃ t', t.setColor p c' = .ok t' ∧ t'.next = t.next ∧
      Rep t' (plug k (.node c' l p r)) := by
  obtain ⟨hk, hp, hl, hr⟩ := h.node_of
  have hn := plug_nodup.1 h.nodup
  simp only [Shape.toList_node, List.nodup_append, List.nodup_cons, List.mem_cons,
    List.disjoint_left, List.mem_append] at hn
  refine ⟨_, RbTree.setColor_of (by simp [hp]) c', rfl,
    h.of_plug (hk.congr fun q hq => ?_) ⟨?_, hl.congr fun q hq => ?_, hr.congr fun q hq => ?_⟩
      (by simp) rfl⟩
  · have : p ≠ q := fun e => hn.2.2 (.inr (.inl rfl)) (e ▸ hq)
    simp [this]
  · simp [hp]
  · have : p ≠ q := fun e => hn.1.2.2 q hq p (.inl rfl) e.symm
    simp [this]
  · have : p ≠ q := fun e => hn.1.2.1.1 (e ▸ hq)
    simp [this]

/-- **A rotation.** `x` goes down on the side `s`, its other child `y` comes up. -/
theorem rotate {s : Side} {cx cy : Color} {x y : Ptr} {a b c : Shape Ptr}
    (h : Rep t (plug k ((Frame.mk s cx x ((Frame.mk s cy y c).fill b)).fill a))) :
    ∃ t', rbRotate s x t = .ok t' ∧ t'.next = t.next ∧
      Rep t' (plug k ((Frame.mk s cy y c).fill ((Frame.mk s cx x b).fill a))) := by
  obtain ⟨hk, hT⟩ := h.node_of
  obtain ⟨hx, ha, hy, hb, hc⟩ := by simpa only [Frame.fill_at] using hT
  obtain ⟨hn, hkn, hd⟩ := plug_nodup.1 h.nodup
  simp only [Frame.fill_nodup, Frame.mem_fill, List.disjoint_left, not_or] at hn
  obtain ⟨xa, ⟨xy, xb, xc⟩, -, ⟨yb, yc, nb, -, bc⟩, aY⟩ := hn
  simp only [List.disjoint_left, Frame.mem_fill] at hd
  have dx : x ∉ Path.labels k := hd (.inl rfl)
  have dy : y ∉ Path.labels k := hd (.inr (.inr (.inl rfl)))
  have da : ∀ q ∈ a.toList, q ∉ Path.labels k := fun q hq => hd (.inr (.inl hq))
  have db : ∀ q ∈ b.toList, q ∉ Path.labels k := fun q hq => hd (.inr (.inr (.inr (.inl hq))))
  have dc : ∀ q ∈ c.toList, q ∉ Path.labels k := fun q hq => hd (.inr (.inr (.inr (.inr hq))))
  have outside : ∀ q, q ∉ Path.labels k → Path.parent? k ≠ some q := fun q hq e => hq (Path.parent?_mem e)
  have bRoot : ∀ q, q ∉ b.toList → b.root? ≠ some q := fun q hq e => hq (Shape.root?_mem e)
  have inner : ((Frame.mk s cy y c).record (some x) b.root?).child s = b.root? :=
    Frame.record_child ⟨s, cy, y, c⟩ _ _
  obtain ⟨t', run, rot⟩ := rbRotate_spec (s := s) hx hy
    ((Frame.record_child_flip ⟨s, cx, x, _⟩ _ _).trans (Frame.fill_root? _ _))
    (fun i hi => by
      have hi : i ∈ b.toList := Shape.root?_mem (inner ▸ hi)
      refine ⟨fun e => xb (e ▸ hi), fun e => yb (e ▸ hi), ?_, hb.isSome hi⟩
      rw [Frame.record_parent]
      exact outside i (db i hi))
    (fun p hp => by
      rw [Frame.record_parent] at hp
      have hm := Path.parent?_mem hp
      exact ⟨fun e => dx (e ▸ hm), fun e => dy (e ▸ hm), hk.parent_isSome hp⟩) xy
  rw [inner, Frame.record_parent] at rot
  rw [Frame.fill_root?] at hk
  have hk' := rot.path hk hkn dx dy fun q e => db q (Shape.root?_mem e)
  refine ⟨t', run, rot.next, h.of_plug (by simpa using hk') ?_ ?_ rot.next⟩
  · simp only [Frame.fill_at, Frame.fill_root?]
    refine ⟨?_, ⟨?_, ha.congr fun q hq => ?_, hb.reparent nb (fun q n => rot.moved q n) fun q hq hne => ?_⟩,
      hc.congr fun q hq => ?_⟩
    · rw [rot.up _ hy]
      obtain rfl | rfl : s = .left ∨ s = .right := by cases s <;> simp
      all_goals rfl
    · rw [rot.down _ hx]
      obtain rfl | rfl : s = .left ∨ s = .right := by cases s <;> simp
      all_goals rfl
    · have hY := aY hq
      exact rot.same q (fun e => xa (e ▸ hq)) (fun e => hY.1 e) (bRoot q hY.2.1)
        (outside q (da q hq))
    · exact rot.same q (fun e => xb (e ▸ hq)) (fun e => yb (e ▸ hq)) hne (outside q (db q hq))
    · exact rot.same q (fun e => xc (e ▸ hq)) (fun e => yc (e ▸ hq))
        (bRoot q fun e => bc e hq) (outside q (dc q hq))
  · cases s <;> simp

end Rep

end CodeBackup.Rbtree
