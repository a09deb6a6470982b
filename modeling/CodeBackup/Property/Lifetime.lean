import CodeBackup.Property.Api
import CodeBackup.Run.Calls

/-!
# The life of a pool

Runs of `load_all_props`, `set_property` and `release_all_props`. The ghost
record `calls` holds the store at every entry of `put`, `mp_malloc` and
`mp_free_all`; `PoolLive` of each of them says that the pool in use was live.

`memory_init` keeps `cur_pool` in step with `pool` as long as no compaction has
moved the values since `pool` was set. `InStep` is that condition on a call;
what each call does to a settled memory is said here once for every run of them.
-/

namespace CodeBackup.Property

open C C.Outcome Rbtree ColorTree CStr Binding Run

/-- A call of the service. -/
inductive ApiCall where
  | loadAllProps
  | setProperty (key val : CStr)
  | releaseAllProps
  deriving DecidableEq

/-- The call, its result dropped. -/
def ApiCall.step (depth : Nat) : ApiCall → World → Outcome World
  | .loadAllProps, w => Property.loadAllProps depth w
  | .setProperty key val, w => Prod.snd <$> Property.setProperty key val w
  | .releaseAllProps, w => Property.releaseAllProps w

/-- The memory between two calls: loaded, or vacant. -/
def Settled (w : World) : Prop := Good w.mem ∨ Vacant w.mem

/-- The condition under which a call leaves the pools in step. -/
def InStep : ApiCall → World → Prop
  | .loadAllProps, w => w.mem.curPool = none ∨ w.mem.curPool = w.mem.pool
  | .setProperty _ _, w => w.mem.curPool ≠ none
  | .releaseAllProps, w => w.mem.curPool ≠ none

theorem Good.cur_ne {m : Mem} (h : Good m) : m.curPool ≠ none := by
  obtain ⟨T, ent, txt, id, p, h⟩ := h
  simp [h.cur]

/-! ## Loading -/

theorem memoryInit_good {m : Mem} (h : Good m) (same : m.curPool = m.pool) : memoryInit m = m := by
  rw [memoryInit, if_neg h.cur_ne]
  obtain ⟨⟨tree, maps, pools, next, pool, bk, cur⟩, calls⟩ := m
  obtain rfl : cur = pool := same
  rfl

theorem memoryInit_calls (m : Mem) : (memoryInit m).calls = m.calls := by
  unfold memoryInit
  split <;> rfl

/-- A load of one file keeps the store good. -/
theorem load_good {m m' : Mem} {files : Files} {depth : Nat} {fn : CStr} {filter : Option CStr}
    (good : Good m) (run : loadPropertiesFromFile addProperty files depth fn filter m = .ok m') :
    Good m' ∧ CallsLive m m' := by
  refine loadPropertiesFromFile_keeps (P := fun m₁ => Good m₁ ∧ CallsLive m m₁)
    (fun k v s s' _ h run => ?_) ⟨good, .refl m⟩ run
  obtain ⟨s₁, run', spec⟩ := addProperty_spec h.1 k v
  cases unique run' run
  exact ⟨spec.good, h.2.trans spec.calls⟩

theorem loadAllProps_good {w w' : World} {depth : Nat} (good : Good (memoryInit w.mem))
    (run : loadAllProps depth w = .ok w') :
    Good w'.mem ∧ CallsLive (memoryInit w.mem) w'.mem ∧ w'.files = w.files := by
  simp only [loadAllProps, bind_eq_ok] at run
  obtain ⟨m₁, run₁, m₂, run₂, e⟩ := run
  cases e
  obtain ⟨good₁, calls₁⟩ := load_good good run₁
  obtain ⟨good₂, calls₂⟩ := load_good good₁ run₂
  exact ⟨good₂, calls₁.trans calls₂, rfl⟩

/-! ## Setting -/

/-- What a `set_property` that returns has done. -/
theorem setProperty_of_run {w w' : World} {key val : CStr} {r : Int} (good : Good w.mem)
    (run : setProperty key val w = .ok (r, w')) :
    (legalName key = false ∧ r = -1 ∧ w' = w) ∨
    (legalName key = true ∧ refuses key val w.mem = true ∧ r = 0 ∧ w' = w) ∨
    (legalName key = true ∧ refuses key val w.mem = false ∧ r = 0 ∧ PutSpec key val w.mem w'.mem ∧
      fileUpdate key val w = .ok w'.files) := by
  cases legal : legalName key with
  | false =>
    simp only [setProperty, isLegalPropertyName_spec, ok_bind, legal] at run
    cases run
    exact .inl ⟨rfl, rfl, rfl⟩
  | true =>
    rw [setProperty_eq good legal] at run
    cases refused : refuses key val w.mem with
    | true =>
      rw [refused] at run
      cases run
      exact .inr (.inl ⟨rfl, rfl, rfl, rfl⟩)
    | false =>
      simp only [refused, Bool.false_eq_true, if_false, bind_eq_ok] at run
      obtain ⟨files, file, ⟨r', m⟩, put_, e⟩ := run
      cases e
      have short := (refuses_eq_false.1 refused).1
      exact .inr (.inr ⟨rfl, rfl, rfl, .of_run good short put_, file⟩)

theorem setProperty_good {w w' : World} {key val : CStr} {r : Int} (good : Good w.mem)
    (run : setProperty key val w = .ok (r, w')) : Good w'.mem ∧ CallsLive w.mem w'.mem := by
  rcases setProperty_of_run good run with ⟨-, -, rfl⟩ | ⟨-, -, -, rfl⟩ | ⟨-, -, -, spec, -⟩
  · exact ⟨good, .refl _⟩
  · exact ⟨good, .refl _⟩
  · exact ⟨spec.good, spec.calls⟩

/-! ## Release -/

theorem rbFirst_none {t : RbTree} (h : rbFirst t = .ok none) : t.root = none := by
  unfold rbFirst at h
  split at h
  · assumption
  · obtain ⟨q, -, e⟩ := bind_eq_ok.1 h
    cases e

/-- The drain loop ends with an empty tree, and leaves the pools alone. -/
theorem drainLoop_of_run : ∀ {n : Nat} {m m' : Mem}, drainLoop n m = .ok m' →
    m'.tree.root = none ∧ m'.pools = m.pools ∧ m'.nextPool = m.nextPool ∧ m'.curPool = m.curPool ∧
      m'.calls = m.calls
  | 0, _, _, run => by cases run
  | n + 1, m, m', run => by
    simp only [drainLoop, bind_eq_ok] at run
    obtain ⟨first, hfirst, run⟩ := run
    cases first with
    | none =>
      cases run
      exact ⟨rbFirst_none hfirst, rfl, rfl, rfl, rfl⟩
    | some q =>
      obtain ⟨tree, -, run⟩ := bind_eq_ok.1 run
      have rest := drainLoop_of_run run
      exact rest

theorem Store.not_linked {s : Store} (root : s.tree.root = none) {q : Ptr} : ¬ s.Linked q := by
  intro h
  induction h with
  | root e => rw [root] at e; cases e
  | child _ _ _ _ ih => exact ih

/-- Without nodes, it is enough that the current pool is live. -/
theorem Store.PoolLive.of_vacant {s : Store} {id : PoolId} {p : Mempool} (root : s.tree.root = none)
    (cur : s.curPool = some id) (live : s.pools id = some p) : s.PoolLive :=
  ⟨⟨id, p, cur, live⟩, fun _ hq => absurd hq (Store.not_linked root)⟩

theorem releaseAllProps_vacant {w w' : World} (good : Good w.mem) (run : releaseAllProps w = .ok w') :
    Vacant w'.mem ∧ CallsLive w.mem w'.mem := by
  obtain ⟨T, ent, txt, id, p, h⟩ := good
  simp only [releaseAllProps, propMemoryDestroy, memoryDestroy, bind_eq_ok] at run
  obtain ⟨m₂, ⟨m₁, drain, m₃, free, e⟩, e'⟩ := run
  cases e
  cases e'
  obtain ⟨root, pools, next, cur, calls⟩ := drainLoop_of_run drain
  have cur₁ : m₁.curPool = some id := cur.trans h.cur
  have live₁ : m₁.pools id = some p := by rw [pools]; exact h.live
  have live₂ : m₁.enter.pools id = some p := live₁
  rw [cur₁] at free
  simp only [mpFreeAll, deref_some, ok_bind, Mem.poolAt_of live₂] at free
  cases free
  refine ⟨⟨root, rfl, fun i hi => ?_⟩, ?_⟩
  · have : m₁.pools i = none := by
      rw [pools]
      exact h.freshPools i (next ▸ hi)
    by_cases e : i = id
    · simp [e]
    · simpa [e, Mem.enter] using this
  · intro s hs
    rcases List.mem_cons.1 hs with rfl | hs
    · exact .inr (.of_vacant root cur₁ live₁)
    · exact .inl (calls ▸ hs)

end CodeBackup.Property
