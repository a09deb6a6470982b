import CodeBackup.Property.Lifetime

/-!
# A run that exhausts the pool

One key whose value grows by a byte at a time uses up the pool: each longer
text takes a new slot and the old ones are not reused. After ninety calls one
byte is left (`fill`), and the next call of `put` compacts.
-/

namespace CodeBackup.Property

open C C.Outcome Rbtree ColorTree CStr Binding Run

/-- The text `11…1`. -/
def ones (n : Nat) : CStr := ⟨List.replicate n 49, by simp⟩

@[simp] theorem ones_strlen (n : Nat) : (ones n).strlen = n := by simp [ones, strlen]

def fillKey : CStr := .lit "a"

/-- The store after the value of `fillKey` has had every length below `n`, beside the bindings `base`, with `room` bytes
left when it had none. -/
structure Grown (base : CStr → Option CStr) (room : Int) (n : Nat) (m : Mem) : Prop where
  good : Good m
  unbound : base fillKey = none
  value : ∀ k, m.value k = if k = fillKey ∧ 0 < n then some (ones (n - 1)) else base k
  remain : 2 * m.remain + (n : Int) * (n + 1) = 2 * room

namespace Grown

variable {base : CStr → Option CStr} {room : Int} {n : Nat} {m : Mem}

/-- The next length takes a new slot. -/
theorem needs (h : Grown base room n m) : needsSlot fillKey (ones n) m = true := by
  rw [needsSlot, h.value]
  by_cases zero : 0 < n
  · simp [zero]
  · simp [zero, h.unbound]

/-- **The next length**, while there is room for it. -/
theorem put (h : Grown base room n m) (short : n < propValueMax) (fits : ((n : Int) + 1) * (n + 2) ≤ 2 * room) :
    exhausts fillKey (ones n) m = false ∧ ∃ r m', Property.put fillKey (ones n) m = .ok (r, m') ∧
      Grown base room (n + 1) m' ∧ m'.curPool = m.curPool ∧ m'.pool = m.pool := by
  have remain := h.remain
  have left : (n : Int) + 1 ≤ m.remain := by linarith
  have stays : exhausts fillKey (ones n) m = false := by
    simp [exhausts, h.needs, Int.lt_of_add_one_le left]
  obtain ⟨r, m', run, spec⟩ := put_spec h.good fillKey (show (ones n).strlen < propValueMax by simpa using short)
  obtain ⟨cur, rem⟩ := spec.stays stays
  refine ⟨stays, r, m', run, ⟨spec.good, h.unbound, fun k => ?_, ?_⟩, cur, spec.pool⟩
  · rw [spec.value, h.value, stays]
    by_cases hk : k = fillKey <;> simp [hk]
  · rw [rem, h.needs, if_pos rfl, ones_strlen]
    push_cast
    linarith

/-- **A run** of `put` through the next lengths. -/
theorem run : ∀ {k n : Nat} {m : Mem}, Grown base room n m → n + k ≤ propValueMax →
    ((n + k : Nat) : Int) * (n + k + 1) ≤ 2 * room →
    ∃ log m', runPuts ((List.range' n k).map fun i => (fillKey, ones i)) m = .ok (log, m') ∧
      Grown base room (n + k) m'
  | 0, n, m, h, _, _ => ⟨[], m, rfl, h⟩
  | k + 1, n, m, h, short, fits => by
    have step : ((n : Int) + 1) * (n + 2) ≤ 2 * room := by
      push_cast at fits
      nlinarith
    obtain ⟨-, r, m₁, put₁, h₁, -⟩ := h.put (by omega) step
    obtain ⟨log, m₂, rest, h₂⟩ := run (k := k) h₁ (by omega) (by push_cast at fits ⊢; linarith)
    rw [Nat.add_right_comm] at h₂
    exact ⟨_, m₂, by simp only [List.range'_succ, List.map_cons, runPuts, put₁, ok_bind, rest]; rfl, h₂⟩

end Grown

/-- A file system in which `build.prop` is empty and no other file exists. -/
def emptyBuild : Files := Function.update (fun _ => none) propPathSystemBuild (some [])

/-- The state after the value of `fillKey` has had every length below `n`. -/
structure Filled (n : Nat) (w : World) : Prop where
  good : Good w.mem
  files : w.files = emptyBuild
  value : ∀ k, w.mem.value k = if k = fillKey ∧ 0 < n then some (ones (n - 1)) else none
  remain : 2 * w.mem.remain + (n : Int) * (n + 1) = 2 * blocksize
  pool : w.mem.curPool = w.mem.pool

/-- Nothing but `fillKey` is bound. -/
theorem Filled.grown {n : Nat} {w : World} (h : Filled n w) : Grown (fun _ => none) blocksize n w.mem :=
  ⟨h.good, rfl, h.value, h.remain⟩

theorem Filled.step {n : Nat} {w : World} (h : Filled n w) (hn : n < 90) :
    ∃ w', setProperty fillKey (ones n) w = .ok (0, w') ∧ Filled (n + 1) w' := by
  have short : n < propValueMax := hn.trans (by decide)
  have fits : ((n : Int) + 1) * (n + 2) ≤ 2 * (blocksize : Nat) := by
    have size : (blocksize : Int) = 4096 := by norm_num [blocksize]
    have : ((n : Int) + 1) * (n + 2) ≤ 90 * 91 := by
      gcongr <;> omega
    linarith
  have refused : refuses fillKey (ones n) w.mem = false := by
    have : startsWith fillKey roPrefix = false := by decide
    simp [refuses, this, short]
  have file : fileUpdate fillKey (ones n) w = .ok w.files := by
    rw [fileUpdate, if_neg (by decide)]
  obtain ⟨-, r, m, run, grown, cur, pool⟩ := h.grown.put short fits
  refine ⟨⟨m, w.files⟩, ?_, grown.good, h.files, grown.value, grown.remain, ?_⟩
  · rw [setProperty_eq h.good (by decide), refused, file, run]
    rfl
  · show m.curPool = m.pool
    rw [cur, pool, h.pool]

/-- The calls that fill the pool. -/
def fillCalls (n : Nat) : List ApiCall := (List.range n).map fun i => .setProperty fillKey (ones i)

/-- **The pool fills up.** -/
theorem fill (depth : Nat) {w : World} (h : Filled 0 w) :
    ∀ n ≤ 90, ∃ w', run (ApiCall.step depth) (fillCalls n) w = .ok w' ∧ Filled n w'
  | 0, _ => ⟨w, rfl, h⟩
  | n + 1, hn => by
    obtain ⟨w₁, ret₁, h₁⟩ := fill depth h n (by omega)
    obtain ⟨w₂, ret₂, h₂⟩ := h₁.step (by omega)
    refine ⟨w₂, ?_, h₂⟩
    have step : (ApiCall.setProperty fillKey (ones n)).step depth w₁ = .ok w₂ := by
      simp [ApiCall.step, ret₂]
    rw [fillCalls, List.range_succ, List.map_append, run_append]
    unfold fillCalls at ret₁
    simp [ret₁, run, step]

/-- Loading the empty file does nothing. -/
theorem load_emptyBuild (m : Mem) :
    loadPropertiesFromFile addProperty emptyBuild 1 propPathSystemBuild none m = .ok m ∧
      loadPropertiesFromFile addProperty emptyBuild 1 propPathOtaConfig none m = .ok m := by
  constructor <;> rfl

theorem loadAllProps_emptyBuild (m : Mem) :
    loadAllProps 1 ⟨m, emptyBuild⟩ = .ok ⟨memoryInit m, emptyBuild⟩ := by
  simp [loadAllProps, load_emptyBuild]

theorem filled_zero : Filled 0 ⟨memoryInit .fresh, emptyBuild⟩ where
  good := vacant_fresh.good
  files := rfl
  value k := by simp [vacant_fresh.value]
  remain := by simp [vacant_fresh.remain]
  pool := rfl

/-- The next call with a longer value exhausts the full pool. -/
theorem Filled.exhausts {w : World} (h : Filled 90 w) {key val : CStr} (needs : needsSlot key val w.mem)
    (pos : 0 < val.strlen) : exhausts key val w.mem = true := by
  have remain := h.remain
  have size : (blocksize : Int) = 4096 := by norm_num [blocksize]
  have left : w.mem.remain = 1 := by push_cast at remain; linarith
  simp only [Property.exhausts, needs, left, Bool.true_and, decide_eq_true_eq]
  omega

/-! ## A load after a compaction -/

/-- `set_property` comes only while the store is loaded. -/
def setsLoaded : Bool → List ApiCall → Bool
  | _, [] => true
  | _, .loadAllProps :: cs => setsLoaded true cs
  | loaded, .setProperty _ _ :: cs => loaded && setsLoaded loaded cs
  | _, .releaseAllProps :: cs => setsLoaded false cs

theorem setsLoaded_append (cs : List ApiCall) (h : ∀ c ∈ cs, ∃ key val, c = .setProperty key val)
    (cs' : List ApiCall) : setsLoaded true (cs ++ cs') = setsLoaded true cs' := by
  induction cs with
  | nil => rfl
  | cons c cs ih =>
    obtain ⟨key, val, rfl⟩ := h c (by simp)
    simpa [setsLoaded] using ih fun c hc => h c (by simp [hc])

/-- The search of `put` reads the tree and the entries only. -/
theorem putLoop_congr {m m' : Mem} (tree : m'.tree = m.tree) (maps : m'.maps = m.maps) (key : CStr) :
    ∀ (n : Nat) (l : Link) (p : Option Ptr), putLoop n key l p m' = putLoop n key l p m
  | 0, _, _ => rfl
  | n + 1, l, p => by
    simp only [putLoop, Mem.entry, maps, tree, putLoop_congr tree maps key n]

/-- `put` reads `cur_pool` only for a value that is longer than the old one. -/
theorem put_stale {m : Mem} {key val old : CStr} {q : Ptr} {e : MapEntry} {p : Mempool}
    {l : Link} {par : Option Ptr} (search : putLoop (m.tree.next + 1) key .root none m = .ok (some q, l, par))
    (entry : m.maps q = some e) (live : m.pools e.val.pool = some p) (load : m.loadStr e.val = .ok old)
    (le : val.strlen ≤ old.strlen) (fits : e.val.off + val.strlen + 1 ≤ p.blockSize.toNat) :
    ∃ m', put key val m = .ok (0, m') ∧ m'.calls = m.toStore :: m.calls := by
  have live' : m.enter.pools e.val.pool = some p := live
  have search' : putLoop (m.enter.tree.next + 1) key .root none m.enter = .ok (some q, l, par) := by
    rw [← search]
    exact @putLoop_congr m m.enter rfl rfl key _ _ _
  have load' : m.enter.loadStr e.val = .ok old := load
  refine ⟨m.enter.setPool e.val.pool { p with soblock := writeStr p.soblock e.val.off val }, ?_, rfl⟩
  rw [put, search', ok_bind]
  simp only [Mem.entry_of (show m.enter.maps q = some e from entry), ok_bind, load', gt_iff_lt,
    if_neg (Nat.not_lt.2 le), Mem.storeStr_of live' fits]

/-- In a good store a bound key is overwritten whatever `cur_pool` has become. -/
theorem Good.put_stale {m : Mem} (good : Good m) {key val old : CStr} (bound : m.value key = some old)
    (le : val.strlen ≤ old.strlen) (cur : Option PoolId) :
    ∃ m', put key val { m with curPool := cur } = .ok (0, m') ∧
      m'.calls = { m with curPool := cur }.toStore :: m.calls := by
  obtain ⟨T, ent, txt, id, p, inv⟩ := good
  rcases inv.seek_cases key with ⟨k, c, l, q, r, hk, -, rfl, hq⟩ | ⟨k, -, absent⟩
  · obtain rfl : txt q = old := Option.some.inj ((inv.value_mem hq).symm.trans bound)
    have search := inv.putLoop_spec (ent q).key (n := m.tree.next + 1) (k := []) (S := T) rfl
      (Nat.lt_succ_of_le inv.tree.length_le)
    have fits : (ent q).val.off + val.strlen + 1 ≤ p.blockSize.toNat := by
      have slot := inv.slots.fits q hq
      have below := inv.slots.below q hq
      have account := inv.ok.account
      have remain := inv.ok.remain
      omega
    rw [hk, ← @putLoop_congr m { m with curPool := cur } rfl rfl] at search
    have live : m.pools (ent q).val.pool = some p := by
      rw [inv.slots.inPool q hq]
      exact inv.live
    exact Property.put_stale search (inv.entries q hq) live (inv.load hq) le fits
  · rw [inv.value_absent absent] at bound
    cases bound

/-- One more value moves the values to a new pool, and `pool` points to the one that is freed. -/
theorem Filled.compact {w : World} (h : Filled 90 w) :
    ∃ m id, setProperty fillKey (ones 90) w = .ok (0, ⟨m, emptyBuild⟩) ∧ Good m ∧
      m.value fillKey = some (ones 89) ∧ m.curPool ≠ none ∧ m.pool = some id ∧ m.pools id = none := by
  have bound : w.mem.value fillKey = some (ones 89) := by rw [h.value]; simp
  have full : Property.exhausts fillKey (ones 90) w.mem = true :=
    h.exhausts (by simp [needsSlot, bound]) (by simp)
  obtain ⟨r, m, run, spec⟩ := put_spec h.good fillKey (show (ones 90).strlen < propValueMax by simp [propValueMax])
  obtain ⟨cur, freed⟩ := spec.moves full
  obtain ⟨id, hid⟩ := Option.ne_none_iff_exists'.1 h.good.cur_ne
  have refused : refuses fillKey (ones 90) w.mem = false := by
    have : startsWith fillKey roPrefix = false := by decide
    simp [refuses, this, propValueMax]
  have file : fileUpdate fillKey (ones 90) w = .ok emptyBuild := by
    rw [fileUpdate, if_neg (by decide), h.files]
  refine ⟨m, id, ?_, spec.good, ?_, spec.good.cur_ne, ?_, freed id hid⟩
  · rw [setProperty_eq h.good (by decide), refused, file, run]
    rfl
  · simpa [full, bound] using spec.value fillKey
  · rw [spec.pool, ← h.pool, hid]

/-- The calls: load, fill the pool, exhaust it, load again, and set a value that fits its old slot. -/
def reloadCalls : List ApiCall :=
  .loadAllProps :: (fillCalls 90 ++
    [.setProperty fillKey (ones 90), .loadAllProps, .setProperty fillKey (.lit "")])

theorem setsLoaded_reloadCalls : setsLoaded false reloadCalls := by
  rw [reloadCalls, setsLoaded, setsLoaded_append _ fun c hc => ?_]
  · rfl
  · obtain ⟨i, -, rfl⟩ := List.mem_map.1 hc
    exact ⟨_, _, rfl⟩

/-- A short value for `fillKey` goes to `put` without a look at the file or at `cur_pool`. -/
theorem setProperty_stale {m m' : Mem} (good : Good m) (bound : m.value fillKey ≠ none) {cur : Option PoolId}
    {files : Files} (run : put fillKey (.lit "") { m with curPool := cur } = .ok (0, m')) :
    setProperty fillKey (.lit "") ⟨{ m with curPool := cur }, files⟩ = .ok (0, ⟨m', files⟩) := by
  have legal : legalName fillKey = true := by decide
  have notRo : startsWith fillKey roPrefix = false := by decide
  have notPersist : startsWith fillKey persistPrefix = false := by decide
  obtain ⟨q, found⟩ : ∃ q, get fillKey { m with curPool := cur } = .ok (some q) := by
    rw [@get_congr m { m with curPool := cur } rfl fun _ => rfl]
    rcases good.get_cases fillKey with ⟨absent, -⟩ | ⟨q, -, -, -, found, -⟩
    · exact absurd absent bound
    · exact ⟨q, found⟩
  simp only [setProperty, isLegalPropertyName_spec, ok_bind, legal, Bool.not_true, Bool.false_eq_true,
    if_false, systemPropertySet]
  rw [if_neg (by decide), if_neg (by decide), if_neg (by decide)]
  simp [found, notRo, notPersist, run]

/-- After these calls, `put` has been entered with `cur_pool` a pool that was freed. -/
theorem run_reloadCalls : ∃ m id s, run (ApiCall.step 1) reloadCalls ⟨.fresh, emptyBuild⟩ = .ok ⟨m, emptyBuild⟩ ∧
    s ∈ m.calls ∧ s.curPool = some id ∧ s.pools id = none := by
  obtain ⟨w₁, ret₁, h₁⟩ := fill 1 filled_zero 90 le_rfl
  obtain ⟨m₂, id, set₂, good₂, bound₂, cur₂, pool₂, dead⟩ := h₁.compact
  -- `memory_init` goes back to the pool that was freed
  have init : memoryInit m₂ = { m₂ with curPool := some id } := by
    rw [memoryInit, if_neg cur₂, pool₂]
  have shorter : (lit "").strlen ≤ (ones 89).strlen := Nat.zero_le _
  obtain ⟨m₄, put₄, calls₄⟩ := good₂.put_stale bound₂ shorter (some id)
  have set₄ : setProperty fillKey (.lit "") ⟨{ m₂ with curPool := some id }, emptyBuild⟩ = .ok (0, ⟨m₄, emptyBuild⟩) :=
    setProperty_stale good₂ (by simp [bound₂]) put₄
  have step₁ : ApiCall.loadAllProps.step 1 ⟨.fresh, emptyBuild⟩ = .ok ⟨memoryInit .fresh, emptyBuild⟩ :=
    loadAllProps_emptyBuild .fresh
  have step₂ : (ApiCall.setProperty fillKey (ones 90)).step 1 w₁ = .ok ⟨m₂, emptyBuild⟩ := by
    simp [ApiCall.step, set₂]
  have step₃ : ApiCall.loadAllProps.step 1 ⟨m₂, emptyBuild⟩ = .ok ⟨{ m₂ with curPool := some id }, emptyBuild⟩ :=
    init ▸ loadAllProps_emptyBuild m₂
  have step₄ : (ApiCall.setProperty fillKey (.lit "")).step 1 ⟨{ m₂ with curPool := some id }, emptyBuild⟩ =
      .ok ⟨m₄, emptyBuild⟩ := by
    simp [ApiCall.step, set₄]
  refine ⟨m₄, id, { m₂ with curPool := some id }.toStore, ?_, by simp [calls₄], rfl, dead⟩
  rw [reloadCalls, run, step₁, ok_bind, run_append, ret₁, ok_bind]
  simp only [run, step₂, step₃, step₄, ok_bind]

/-- **A load after a compaction** sets `cur_pool` to the pool that the compaction has freed. -/
theorem reload_uses_freed_pool : ¬ ∀ (depth : Nat) (files : Files) (cs : List ApiCall) (w : World),
    cs.head? = some .loadAllProps → setsLoaded false cs →
    run (ApiCall.step depth) cs ⟨.fresh, files⟩ = .ok w → ∀ s ∈ w.mem.calls, s.PoolLive := by
  intro always
  obtain ⟨m, id, s, ret, hs, cur, dead⟩ := run_reloadCalls
  obtain ⟨id', p, cur', live⟩ := (always 1 emptyBuild reloadCalls _ rfl setsLoaded_reloadCalls ret s hs).cur
  obtain rfl : id = id' := Option.some.inj (cur.symm.trans cur')
  rw [dead] at live
  cases live

end CodeBackup.Property
