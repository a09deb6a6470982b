import CodeBackup.C.CString
import CodeBackup.Rbtree.Code

/-!
# The property map and its value pool

`map.c` and `memPool.h`: a red-black tree of `map_t` nodes whose values stand
in one block of a memory pool. `Store` is the memory the code works on: the
tree links, the key and value pointers of each node, the pools that are live,
and the three globals `pool`, `pool_bk` and `cur_pool`. A pool is an identity;
`pools` has it until `mp_free_all` frees it, and the use of a freed pool is a
fault. A value pointer is a pool and an offset into its block, and the texts
are bytes of the block, so that a store that is too long is seen to overwrite
its neighbour.

Two fields are ghosts, read by no function: `slot`, the number of bytes
`mp_malloc` handed out for a value, and `calls`, the store at every entry of
`put`, `mp_malloc` and `mp_free_all`. `malloc` is assumed to succeed.
-/

namespace CodeBackup.Property

open C C.Outcome Rbtree ColorTree

abbrev PoolId := Nat

/-- `BLOCKSIZE`. -/
def blocksize : Nat := 4096

/-- `PROP_KEY_MAX`. -/
def propKeyMax : Nat := 32

/-- `PROP_VALUE_MAX`, and the size of `value_tmp` in `realloc_value_memory`. -/
def propValueMax : Nat := 92

/-- `mempool`. The block is `soblock`; `pvalue` is kept as its distance from `soblock`. -/
structure Mempool where
  blockSize : Int
  remainSize : Int
  soblock : Block
  pvalue : Nat

/-- A `char *` into the block of a pool. -/
structure ValPtr where
  pool : PoolId
  off : Nat
  deriving DecidableEq, Repr

/-- `struct map`, next to its `rb_node`. -/
structure MapEntry where
  key : CStr
  val : ValPtr
  slot : Nat
  deriving DecidableEq

/-- The memory of the property map. -/
structure Store where
  tree : RbTree
  maps : Ptr → Option MapEntry
  pools : PoolId → Option Mempool
  nextPool : PoolId
  pool : Option PoolId
  poolBk : Option PoolId
  curPool : Option PoolId

/-- The memory with the ghost record of the calls. -/
structure Mem extends Store where
  calls : List Store

namespace Mem

/-- The memory of a new process. -/
def fresh : Mem where
  tree := .empty
  maps := fun _ => none
  pools := fun _ => none
  nextPool := 0
  pool := none
  poolBk := none
  curPool := none
  calls := []

/-- Ghost: a call is entered. -/
def enter (m : Mem) : Mem := { m with calls := m.toStore :: m.calls }

/-- The pool behind a pointer. -/
def poolAt (m : Mem) (id : PoolId) : Outcome Mempool :=
  match m.pools id with
  | some p => .ok p
  | none => .error .deadObject

def setPool (m : Mem) (id : PoolId) (p : Mempool) : Mem :=
  { m with pools := Function.update m.pools id (some p) }

/-- The key and the value pointer of a node. -/
def entry (m : Mem) (p : Ptr) : Outcome MapEntry :=
  match m.maps p with
  | some e => .ok e
  | none => .error .deadObject

def setEntry (m : Mem) (p : Ptr) (e : MapEntry) : Mem :=
  { m with maps := Function.update m.maps p (some e) }

/-- The string at a value pointer. -/
def loadStr (m : Mem) (v : ValPtr) : Outcome CStr := do
  let p ← m.poolAt v.pool
  readStr p.soblock p.blockSize.toNat v.off

/-- `strcpy` to a value pointer. -/
def storeStr (m : Mem) (v : ValPtr) (s : CStr) : Outcome Mem := do
  let p ← m.poolAt v.pool
  if v.off + s.strlen + 1 ≤ p.blockSize.toNat then
    .ok (m.setPool v.pool { p with soblock := writeStr p.soblock v.off s })
  else .error .outOfBounds

/-- `malloc(sizeof(mempool))`, then `memPoolInit` with `BLOCKSIZE`. -/
def newPool (m : Mem) : PoolId × Mem :=
  (m.nextPool, { m with
    pools := Function.update m.pools m.nextPool (some ⟨blocksize, blocksize, fun _ => 0, 0⟩)
    nextPool := m.nextPool + 1 })

/-- `malloc(sizeof(map_t))`. -/
def newNode (m : Mem) : Ptr × Mem :=
  (m.tree.next, { m with tree := { m.tree with next := m.tree.next + 1 } })

end Mem

/-- `mp_malloc`. The block pointer of a pool that is still there is never null. -/
def mpMalloc (mp : Option PoolId) (size : Nat) (m : Mem) : Outcome (Option ValPtr × Mem) := do
  let m := m.enter
  match mp with
  | none => .ok (none, m)
  | some id =>
    let p ← m.poolAt id
    if p.remainSize ≥ size then
      .ok (some ⟨id, p.pvalue⟩, m.setPool id
        { p with pvalue := p.pvalue + size, remainSize := p.remainSize - size })
    else .ok (none, m)

/-- `mp_free_all`. -/
def mpFreeAll (mp : Option PoolId) (m : Mem) : Outcome Mem := do
  let m := m.enter
  let id ← deref mp
  let _ ← m.poolAt id
  .ok { m with pools := Function.update m.pools id none }

/-- `memory_init`. -/
def memoryInit (m : Mem) : Mem :=
  if m.curPool = none then
    let (id, m) := m.newPool
    { m with pool := some id, curPool := some id }
  else { m with curPool := m.pool }

/-- `map_first`; `node` is the first field of `map_t`, so a null node is a null `map_t`. -/
def mapFirst (m : Mem) : Outcome (Option Ptr) := rbFirst m.tree

/-- `map_next`. -/
def mapNext (p : Ptr) (m : Mem) : Outcome (Option Ptr) := rbNext p m.tree

/-- The loop of `realloc_value_memory` over the nodes from `data` on. -/
def reallocLoop : Nat → Option Ptr → PoolId → Mem → Outcome Mem
  | 0, _, _, _ => .error .loopBound
  | _ + 1, none, _, m => .ok m
  | n + 1, some data, tmpPool, m => do
    let e ← m.entry data
    let valueTmp ← m.loadStr e.val
    if valueTmp.strlen ≥ propValueMax then .error .outOfBounds
    else
      let (v, m) ← mpMalloc (some tmpPool) (valueTmp.strlen + 1) m
      let v ← deref v
      let m := m.setEntry data { e with val := v, slot := valueTmp.strlen + 1 }
      let m ← m.storeStr v valueTmp
      reallocLoop n (← mapNext data m) tmpPool m

/-- `realloc_value_memory`. What it first assigns to `tmp_pool` is overwritten by the new pool. -/
def reallocValueMemory (m : Mem) : Outcome Mem := do
  let (tmpPool, m) := m.newPool
  let m ← reallocLoop (m.tree.next + 1) (← mapFirst m) tmpPool m
  let m ← mpFreeAll m.curPool m
  .ok { m with curPool := some tmpPool }

/-- The loop of `get`. -/
def getLoop : Nat → CStr → Option Ptr → Mem → Outcome (Option Ptr)
  | 0, _, _, _ => .error .loopBound
  | _ + 1, _, none, _ => .ok none
  | n + 1, str, some node, m => do
    let data ← m.entry node
    let links ← m.tree.node node
    match CStr.strcmp str data.key with
    | .lt => getLoop n str links.rbLeft m
    | .gt => getLoop n str links.rbRight m
    | .eq => .ok (some node)

/-- `get`. -/
def get (str : CStr) (m : Mem) : Outcome (Option Ptr) :=
  getLoop (m.tree.next + 1) str m.tree.root m

/-- The value that `get` finds, as its callers read it. -/
def getVal (str : CStr) (m : Mem) : Outcome (Option CStr) := do
  match ← get str m with
  | none => .ok none
  | some p => do
    let e ← m.entry p
    .ok (some (← m.loadStr e.val))

/-- The binding of a key, as `get` and its callers see it. -/
def Mem.value (m : Mem) (key : CStr) : Option CStr :=
  match getVal key m with
  | .ok v => v
  | .error _ => none

/-- `cur_pool->remain_size`. -/
def Mem.remain (m : Mem) : Int :=
  match m.curPool.bind m.pools with
  | some p => p.remainSize
  | none => 0

/-- `put` asks `mp_malloc` for a slot: the key is new, or its text gets longer. -/
def needsSlot (key val : CStr) (m : Mem) : Bool :=
  match m.value key with
  | some old => val.strlen > old.strlen
  | none => true

/-- The call of `put` exhausts the pool. -/
def exhausts (key val : CStr) (m : Mem) : Bool :=
  needsSlot key val m && decide (m.remain < val.strlen + 1)

/-- The loop of `put`: the node with the key, if there is one, and the place where the
search ended, as `new_node` and `parent`. -/
def putLoop : Nat → CStr → Link → Option Ptr → Mem → Outcome (Option Ptr × Link × Option Ptr)
  | 0, _, _, _, _ => .error .loopBound
  | n + 1, key, newNode, parent, m => do
    match ← m.tree.readLink newNode with
    | none => .ok (none, newNode, parent)
    | some thisNode =>
      let e ← m.entry thisNode
      match CStr.strcmp key e.key with
      | .lt => putLoop n key (.child thisNode .left) (some thisNode) m
      | .gt => putLoop n key (.child thisNode .right) (some thisNode) m
      | .eq => .ok (some thisNode, newNode, parent)

/-- `put`. -/
def put (key val : CStr) (m : Mem) : Outcome (Int × Mem) := do
  let m := m.enter
  let (found, newNode, parent) ← putLoop (m.tree.next + 1) key .root none m
  match found with
  | some thisNode =>
    let e ← m.entry thisNode
    let old ← m.loadStr e.val
    if val.strlen > old.strlen then
      let (newValue, m) ← mpMalloc m.curPool (val.strlen + 1) m
      match newValue with
      | none => do
        let m ← reallocValueMemory m
        .ok (0, m)
      | some v => do
        let m ← m.storeStr v val
        .ok (0, m.setEntry thisNode { e with val := v, slot := val.strlen + 1 })
    else
      let m ← m.storeStr e.val val
      .ok (0, m)
  | none =>
    let (data, m) := m.newNode
    let (v, m) ← mpMalloc m.curPool (val.strlen + 1) m
    match v with
    | none => do
      -- `data` and its key are not linked anywhere and leak
      let m ← reallocValueMemory m
      .ok (0, m)
    | some v => do
      let m := m.setEntry data ⟨key, v, val.strlen + 1⟩
      let m ← m.storeStr v val
      let tree ← rbLinkNode data parent newNode m.tree
      let tree ← rbInsertColor data tree
      .ok (1, { m with tree := tree })

/-- `map_free`. -/
def mapFree (p : Ptr) (m : Mem) : Mem :=
  { m with
    tree := { m.tree with heap := Function.update m.tree.heap p none }
    maps := Function.update m.maps p none }

/-- `memory_destroy`. -/
def memoryDestroy (m : Mem) : Outcome Mem := do
  let m ← mpFreeAll m.curPool m
  .ok { m with curPool := none, poolBk := none, pool := none }

/-- The drain loop of `__prop_memory_destroy`. -/
def drainLoop : Nat → Mem → Outcome Mem
  | 0, _ => .error .loopBound
  | n + 1, m => do
    match ← mapFirst m with
    | none => .ok m
    | some nodeFree =>
      let tree ← rbErase nodeFree m.tree
      drainLoop n (mapFree nodeFree { m with tree := tree })

/-- `__prop_memory_destroy`. -/
def propMemoryDestroy (m : Mem) : Outcome Mem := do
  let m ← drainLoop (m.tree.next + 1) m
  memoryDestroy m

end CodeBackup.Property
