import CodeBackup.Property.Slots
import CodeBackup.Rbtree.Walk

/-!
# The invariant of the property map

`Inv` is what every store reachable by `put` satisfies: the nodes form a
red-black tree in memory with a black root, sorted by key, and the values
stand in disjoint slots of the current pool (`Slots`). `Good` hides the shape
and the layout.

Under `Inv`, `get` finds exactly the keys of the tree (`Inv.getVal`,
`Inv.value_eq_some`), and the current pool and the pools of all values that the
tree reaches are live (`Inv.poolLive`).
-/

namespace CodeBackup.Property

open C C.Outcome Rbtree ColorTree CStr

/-- **The invariant**, with the shape of the tree, the entries and texts of its nodes, and
the current pool. -/
structure Inv (m : Mem) (T : Shape Ptr) (ent : Ptr → MapEntry) (txt : Ptr → CStr) (id : PoolId)
    (p : Mempool) : Prop where
  tree : Rep m.tree T
  black : T.BlackRoot
  entries : ∀ q ∈ T.toList, m.maps q = some (ent q)
  sorted : Sorted strcmp (fun q => (ent q).key) T.toList
  cur : m.curPool = some id
  live : m.pools id = some p
  ok : p.Ok
  slots : Slots id p T.toList ent txt
  freshPools : ∀ i, m.nextPool ≤ i → m.pools i = none

/-- Some layout satisfies the invariant. -/
def Good (m : Mem) : Prop := ∃ T ent txt id p, Inv m T ent txt id p

/-- A node the code reaches from the root of the tree. -/
inductive Store.Linked (s : Store) : Ptr → Prop where
  | root {q : Ptr} : s.tree.root = some q → Linked s q
  | child {q r : Ptr} {n : RbNode} (side : Side) : Linked s q → s.tree.heap q = some n →
      n.child side = some r → Linked s r

/-- `cur_pool` is live, and every value reachable from the tree lies in a live block. -/
structure Store.PoolLive (s : Store) : Prop where
  cur : ∃ id p, s.curPool = some id ∧ s.pools id = some p
  values : ∀ q, s.Linked q → ∃ e p, s.maps q = some e ∧ s.pools e.val.pool = some p

/-- A node reached from the root is one of the tree's. -/
theorem Store.Linked.mem {s : Store} {T : Shape Ptr} (h : Rep s.tree T) {q : Ptr} (hq : s.Linked q) :
    q ∈ T.toList := by
  induction hq with
  | root e => exact Shape.root?_mem (by rw [← h.root, e])
  | @child q r n side _ hn hr ih =>
    obtain ⟨xs, ys, e⟩ := List.append_of_mem ih
    obtain ⟨k, c, l, u, rfl, -, -⟩ := exists_plug e []
    obtain rfl : n = ⟨Path.parent? k, c, u.root?, l.root?⟩ := Option.some.inj (hn.symm.trans h.heap_self)
    refine mem_plug.2 (.inl ?_)
    cases side with
    | left => simp [Shape.root?_mem (show l.root? = some r from hr)]
    | right => simp [Shape.root?_mem (show u.root? = some r from hr)]

/-- Liveness of the values, node by node. -/
theorem Store.PoolLive.of_rep {s : Store} {T : Shape Ptr} (h : Rep s.tree T) {id : PoolId} {p : Mempool}
    (cur : s.curPool = some id) (live : s.pools id = some p)
    (values : ∀ q ∈ T.toList, ∃ e p, s.maps q = some e ∧ s.pools e.val.pool = some p) : s.PoolLive :=
  ⟨⟨id, p, cur, live⟩, fun q hq => values q (hq.mem h)⟩

/-- The search of `get` reads the tree and the keys only. -/
theorem getLoop_congr {m m' : Mem} (tree : m'.tree = m.tree)
    (keys : ∀ q, (m'.maps q).map MapEntry.key = (m.maps q).map MapEntry.key) (key : CStr) :
    ∀ (n : Nat) (p : Option Ptr), getLoop n key p m' = getLoop n key p m
  | 0, _ => rfl
  | n + 1, none => rfl
  | n + 1, some p => by
    have same := keys p
    cases e : m.maps p with
    | none =>
      rw [e, Option.map_none, Option.map_eq_none_iff] at same
      simp only [getLoop, Mem.entry, e, same]
      rfl
    | some a =>
      rw [e, Option.map_some, Option.map_eq_some_iff] at same
      obtain ⟨b, hb, hk⟩ := same
      simp only [getLoop, Mem.entry, e, hb, ok_bind, hk, tree, getLoop_congr tree keys key n]

theorem get_congr {m m' : Mem} (tree : m'.tree = m.tree)
    (keys : ∀ q, (m'.maps q).map MapEntry.key = (m.maps q).map MapEntry.key) (key : CStr) :
    get key m' = get key m := by
  rw [get, get, tree, getLoop_congr tree keys]

namespace Mem

variable {m : Mem} {id : PoolId} {p : Mempool} {q : Ptr} {e : MapEntry} {v : ValPtr} {s : CStr}

@[simp] theorem enter_toStore : m.enter.toStore = m.toStore := rfl

@[simp] theorem enter_calls : m.enter.calls = m.toStore :: m.calls := rfl

theorem poolAt_of (h : m.pools id = some p) : m.poolAt id = .ok p := by simp [poolAt, h]

theorem entry_of (h : m.maps q = some e) : m.entry q = .ok e := by simp [entry, h]

theorem storeStr_of (h : m.pools v.pool = some p) (fits : v.off + s.strlen + 1 ≤ p.blockSize.toNat) :
    m.storeStr v s = .ok (m.setPool v.pool { p with soblock := writeStr p.soblock v.off s }) := by
  rw [storeStr, poolAt_of h, ok_bind, if_pos fits]

end Mem

theorem mpMalloc_of {m : Mem} {id : PoolId} {p : Mempool} {n : Nat} (h : m.pools id = some p)
    (room : (n : Int) ≤ p.remainSize) :
    mpMalloc (some id) n m = .ok (some ⟨id, p.pvalue⟩, m.enter.setPool id (p.take n)) := by
  have : m.enter.pools id = some p := h
  simp [mpMalloc, Mem.poolAt_of this, room, Mempool.take]

/-- The text that fills a slot just handed out. -/
theorem Mem.storeStr_push {m : Mem} {id : PoolId} {p : Mempool} {s : CStr} (ok : p.Ok)
    (room : ((s.strlen + 1 : Nat) : Int) ≤ p.remainSize) (h : m.pools id = some (p.take (s.strlen + 1))) :
    m.storeStr ⟨id, p.pvalue⟩ s = .ok (m.setPool id (p.push s)) := by
  refine Mem.storeStr_of (v := ⟨id, p.pvalue⟩) h ?_
  have account := ok.account
  show p.pvalue + s.strlen + 1 ≤ p.blockSize.toNat
  omega

theorem mpMalloc_full {m : Mem} {id : PoolId} {p : Mempool} {n : Nat} (h : m.pools id = some p)
    (full : p.remainSize < n) : mpMalloc (some id) n m = .ok (none, m.enter) := by
  have : m.enter.pools id = some p := h
  simp [mpMalloc, Mem.poolAt_of this, full]

namespace Inv

variable {m : Mem} {T : Shape Ptr} {ent : Ptr → MapEntry} {txt : Ptr → CStr} {id : PoolId} {p : Mempool}

theorem load (h : Inv m T ent txt id p) {q : Ptr} (hq : q ∈ T.toList) :
    m.loadStr (ent q).val = .ok (txt q) := h.slots.load h.ok h.live hq

theorem poolLive (h : Inv m T ent txt id p) : m.PoolLive :=
  .of_rep h.tree h.cur h.live fun q hq => ⟨ent q, p, h.entries q hq, by rw [h.slots.inPool q hq, h.live]⟩

/-- The current pool is not one to come. -/
theorem ne_of_fresh (h : Inv m T ent txt id p) {i : PoolId} (hi : m.nextPool ≤ i) : i ≠ id := by
  rintro rfl
  have := h.freshPools i hi
  rw [h.live] at this
  cases this

/-- The keys of different nodes differ. -/
theorem key_inj (h : Inv m T ent txt id p) {q q' : Ptr} (hq : q ∈ T.toList) (hq' : q' ∈ T.toList)
    (e : (ent q).key = (ent q').key) : q = q' := by
  by_contra ne
  have : Std.Symm fun q q' => strcmp (ent q).key (ent q').key ≠ .eq :=
    ⟨fun _ _ h e => h (Std.OrientedCmp.eq_symm e)⟩
  have apart : T.toList.Pairwise fun q q' => strcmp (ent q).key (ent q').key ≠ .eq :=
    h.sorted.imp fun hlt e => by rw [hlt] at e; cases e
  exact apart.forall hq hq' ne (by rw [e]; exact Std.ReflCmp.compare_self)

/-! ## Search -/

/-- The loop of `get` descends as `seek` does. -/
theorem getLoop_spec (h : Inv m T ent txt id p) (key : CStr) :
    ∀ {n : Nat} {k : Path Ptr} {S : Shape Ptr}, plug k S = T → S.toList.length < n →
      getLoop n key S.root? m = .ok (seek strcmp (fun q => (ent q).key) key k S).2.root?
  | 0, _, _, _, hn => by omega
  | n + 1, k, .nil, _, _ => rfl
  | n + 1, k, .node c l q r, e, hn => by
    have hrep : Rep m.tree (plug k (.node c l q r)) := e ▸ h.tree
    have hq : q ∈ T.toList := by rw [← e]; exact mem_plug.2 (.inl (by simp))
    simp only [Shape.toList_node, List.length_append, List.length_cons] at hn
    have left := h.getLoop_spec key (n := n) (k := ⟨.left, c, q, r⟩ :: k) (S := l) e (by omega)
    have right := h.getLoop_spec key (n := n) (k := ⟨.right, c, q, l⟩ :: k) (S := r) e (by omega)
    simp only [Shape.root?_node, getLoop, Mem.entry_of (h.entries q hq),
      RbTree.node_of hrep.heap_self, ok_bind, seek]
    cases hc : strcmp key (ent q).key with
    | lt => simpa using left
    | gt => simpa using right
    | eq => rfl

theorem get_spec (h : Inv m T ent txt id p) (key : CStr) :
    get key m = .ok (seek strcmp (fun q => (ent q).key) key [] T).2.root? := by
  have := h.getLoop_spec key (n := m.tree.next + 1) (k := []) (S := T) rfl
    (Nat.lt_succ_of_le h.tree.length_le)
  rwa [← h.tree.root] at this

/-- The place where a search ends without the key: the keys before it are smaller, those
after it larger. -/
theorem seek_absent (h : Inv m T ent txt id p) {key : CStr} {k : Path Ptr}
    (e : seek strcmp (fun q => (ent q).key) key [] T = (k, .nil)) :
    plug k .nil = T ∧ (∀ q ∈ k.before, strcmp (ent q).key key = .lt) ∧
      ∀ q ∈ k.after, strcmp key (ent q).key = .lt := by
  have hp := seek_plug strcmp (fun q => (ent q).key) key [] T
  rw [e] at hp
  exact ⟨hp, seek_nil (k := []) strcmp _ h.sorted (by simp) (by simp) e⟩

/-- A search ends at the node with the key, or no node has it. -/
theorem seek_cases (h : Inv m T ent txt id p) (key : CStr) :
    (∃ k c l q r, seek strcmp (fun q => (ent q).key) key [] T = (k, .node c l q r) ∧
      plug k (.node c l q r) = T ∧ (ent q).key = key ∧ q ∈ T.toList) ∨
    (∃ k, seek strcmp (fun q => (ent q).key) key [] T = (k, .nil) ∧
      ∀ q ∈ T.toList, (ent q).key ≠ key) := by
  cases e : seek strcmp (fun q => (ent q).key) key [] T with
  | mk k S =>
    have hp := seek_plug strcmp (fun q => (ent q).key) key [] T
    rw [e] at hp
    cases S with
    | nil =>
      obtain ⟨-, hb, ha⟩ := h.seek_absent e
      refine .inr ⟨k, rfl, fun q hq heq => ?_⟩
      have self : strcmp key key = .eq := Std.ReflCmp.compare_self
      rw [plug_nil] at hp
      rw [← hp, mem_plug] at hq
      rcases hq with hq | hq
      · simp at hq
      · rcases List.mem_append.1 hq with hq | hq
        · have := hb q hq; rw [heq, self] at this; cases this
        · have := ha q hq; rw [heq, self] at this; cases this
    | node c l q r =>
      refine .inl ⟨k, c, l, q, r, rfl, hp, ?_, ?_⟩
      · exact (Std.LawfulEqCmp.eq_of_compare (seek_node strcmp _ e)).symm
      · rw [show T = plug k (.node c l q r) from hp.symm]
        exact mem_plug.2 (.inl (by simp))

/-- `get` finds the node with the key. -/
theorem get_node (h : Inv m T ent txt id p) {q : Ptr} (hq : q ∈ T.toList) : get (ent q).key m = .ok (some q) := by
  rcases h.seek_cases (ent q).key with ⟨k, c, l, q', r, e, -, hkey, hq'⟩ | ⟨k, -, none_⟩
  · obtain rfl := h.key_inj hq' hq hkey
    simp [h.get_spec, e]
  · exact absurd rfl (none_ q hq)

/-- **`get`** reads the value of the node with the key. -/
theorem getVal_mem (h : Inv m T ent txt id p) {q : Ptr} (hq : q ∈ T.toList) :
    getVal (ent q).key m = .ok (some (txt q)) := by
  simp [getVal, h.get_node hq, Mem.entry_of (h.entries _ hq), h.load hq]

theorem getVal_absent (h : Inv m T ent txt id p) {key : CStr} (none_ : ∀ q ∈ T.toList, (ent q).key ≠ key) :
    getVal key m = .ok none := by
  rcases h.seek_cases key with ⟨k, c, l, q, r, -, -, hkey, hq⟩ | ⟨k, e, -⟩
  · exact absurd hkey (none_ q hq)
  · simp [getVal, h.get_spec, e]

theorem value_mem (h : Inv m T ent txt id p) {q : Ptr} (hq : q ∈ T.toList) :
    m.value (ent q).key = some (txt q) := by simp [Mem.value, h.getVal_mem hq]

theorem value_absent (h : Inv m T ent txt id p) {key : CStr}
    (none_ : ∀ q ∈ T.toList, (ent q).key ≠ key) : m.value key = none := by
  simp [Mem.value, h.getVal_absent none_]

/-- The bindings are those of the nodes. -/
theorem value_eq_some (h : Inv m T ent txt id p) {key val : CStr} :
    m.value key = some val ↔ ∃ q ∈ T.toList, (ent q).key = key ∧ txt q = val := by
  constructor
  · intro e
    by_cases hk : ∃ q ∈ T.toList, (ent q).key = key
    · obtain ⟨q, hq, rfl⟩ := hk
      exact ⟨q, hq, rfl, Option.some.inj ((h.value_mem hq).symm.trans e)⟩
    · rw [h.value_absent fun q hq e => hk ⟨q, hq, e⟩] at e
      cases e
  · rintro ⟨q, hq, rfl, rfl⟩
    exact h.value_mem hq

/-- `get` and the read of its value do not fault. -/
theorem getVal (h : Inv m T ent txt id p) (key : CStr) : Property.getVal key m = .ok (m.value key) := by
  by_cases hk : ∃ q ∈ T.toList, (ent q).key = key
  · obtain ⟨q, hq, rfl⟩ := hk
    rw [h.getVal_mem hq, h.value_mem hq]
  · have none_ := fun q hq e => hk ⟨q, hq, e⟩
    rw [h.getVal_absent none_, h.value_absent none_]

/-- Two stores with the same keys and texts at the same nodes have the same bindings. -/
theorem value_congr {m' : Mem} {ent' : Ptr → MapEntry} {txt' : Ptr → CStr} {id' : PoolId} {p' : Mempool}
    (h : Inv m T ent txt id p) (h' : Inv m' T ent' txt' id' p')
    (key : ∀ q ∈ T.toList, (ent' q).key = (ent q).key) (text : ∀ q ∈ T.toList, txt' q = txt q)
    (k : CStr) : m'.value k = m.value k := by
  ext v
  rw [h.value_eq_some, h'.value_eq_some]
  constructor
  · rintro ⟨q, hq, rfl, rfl⟩; exact ⟨q, hq, (key q hq).symm, (text q hq).symm⟩
  · rintro ⟨q, hq, rfl, rfl⟩; exact ⟨q, hq, key q hq, text q hq⟩

theorem remain (h : Inv m T ent txt id p) : m.remain = p.remainSize := by
  simp [Mem.remain, h.cur, h.live]

end Inv

theorem Good.getVal {m : Mem} (good : Good m) (key : CStr) :
    Property.getVal key m = .ok (m.value key) := by
  obtain ⟨T, ent, txt, id, p, h⟩ := good
  exact h.getVal key

theorem Good.value_of_getVal {m : Mem} (good : Good m) {key : CStr} {value : Option CStr}
    (ret : Property.getVal key m = .ok value) : m.value key = value := by
  rw [good.getVal] at ret
  exact Except.ok.inj ret

/-- The memory of a new process, or after a release: no node, and no current pool. -/
structure Vacant (m : Mem) : Prop where
  root : m.tree.root = none
  cur : m.curPool = none
  freshPools : ∀ i, m.nextPool ≤ i → m.pools i = none

theorem vacant_fresh : Vacant .fresh := ⟨rfl, rfl, fun _ _ => rfl⟩

/-- **`memory_init`** on a vacant memory. -/
theorem Inv.init {m : Mem} (h : Vacant m) : Inv (memoryInit m) .nil (fun _ => ⟨.lit "", ⟨0, 0⟩, 0⟩)
    (fun _ => .lit "") m.nextPool ⟨blocksize, blocksize, fun _ => 0, 0⟩ := by
  rw [memoryInit, if_pos h.cur]
  exact {
    tree := ⟨h.root, trivial, by simp, by simp⟩
    black := trivial
    entries := by simp
    sorted := .nil
    cur := rfl
    live := by simp [Mem.newPool]
    ok := ⟨rfl, rfl, by decide⟩
    slots := .nil
    freshPools := fun i hi => by
      have hi : m.nextPool + 1 ≤ i := hi
      have ne : i ≠ m.nextPool := Nat.ne_of_gt hi
      simpa [Mem.newPool, ne] using h.freshPools i (Nat.le_of_succ_le hi) }

end CodeBackup.Property
