import CodeBackup.Property.Exhaust

/-!
# Compaction

A `put` that runs out of pool copies the values to a fresh block and gives up.
The copy always fits, as the slots of the values are disjoint and none is
smaller than its text; so what is left of the block is what the texts leave,
and the same `put`, called again, succeeds exactly if its value fits beside all
of them, its own old value included (`compaction_exact`).
-/

namespace CodeBackup.Property

open C C.Outcome Rbtree ColorTree CStr Binding

/-- The call of `put` returns, and the key has the value. -/
def TakesEffect (key val : CStr) (m : Mem) : Prop :=
  ∃ r m', put key val m = .ok (r, m') ∧ getVal key m' = .ok (some val)

/-- A `put` that asks for a slot does not give the key a value it has. -/
theorem value_ne_of_needsSlot {key val : CStr} {m : Mem} (needs : needsSlot key val m) : m.value key ≠ some val := by
  intro bound
  simp [needsSlot, bound] at needs

/-- A `put` takes effect exactly if it does not exhaust the pool, when it asks for a slot. -/
theorem takesEffect_iff {m : Mem} (good : Good m) {key val : CStr} (needs : needsSlot key val m) :
    TakesEffect key val m ↔ exhausts key val m = false := by
  constructor
  · rintro ⟨r, m', run, bound⟩
    by_contra full
    rw [Bool.not_eq_false] at full
    obtain ⟨T, ent, txt, id, p, h⟩ := good
    obtain ⟨m₀, run₀, h₀, next, pool, calls⟩ := h.put_full full
    obtain ⟨m₁, compact, spec⟩ := h.put_compact h₀ next pool calls full
    rw [run₀, compact, ok_bind] at run
    cases run
    rw [spec.good.getVal, spec.value, full] at bound
    exact value_ne_of_needsSlot needs (by simpa using bound)
  · intro stays
    obtain ⟨r, m', run, bound, -⟩ := put_room good stays
    exact ⟨r, m', run, bound⟩

/-- **Compaction is safe, and as good as it can be.** Take the store after any run of `put` with short values, and any
`put` that exhausts its pool. It returns (a value without a slot in the new pool would be a null pointer for `strcpy`),
with the values in another pool, where every key has the value it had, and no other key is bound. Called again at once
it takes effect exactly if the values of the bound keys, its own among them, and the new one fit a block together. -/
theorem compaction_exact {calls : List (CStr × CStr)} (short : ∀ c ∈ calls, c.2.strlen < propValueMax)
    {log : List (CStr × CStr)} {m : Mem} (run : runPuts calls (memoryInit .fresh) = .ok (log, m)) {key val : CStr}
    (full : exhausts key val m) :
    ∃ m' l, put key val m = .ok (0, m') ∧ m'.curPool ≠ m.curPool ∧
      (∀ k, getVal k m' = getVal k m) ∧ systemPropertyList m = .ok l ∧ systemPropertyList m' = .ok l ∧
      (l.map Prod.fst).Nodup ∧ (∀ k v, (k, v) ∈ l ↔ getVal k m = .ok (some v)) ∧
      (TakesEffect key val m' ↔ (l.map fun b => b.2.strlen + 1).sum + (val.strlen + 1) ≤ blocksize) := by
  obtain ⟨log', m₁, run', good, -⟩ := runPuts_spec vacant_fresh.good short
  cases unique run run'
  obtain ⟨T, ent, txt, id, p, h⟩ := good
  obtain ⟨m₀, run₀, h₀, next, pool, live⟩ := h.put_full full
  obtain ⟨m', ent', p', compact, h', keys, used, -⟩ := reallocValueMemory_spec h₀
  have put_ : put key val m = .ok (0, m') := by rw [run₀, compact, ok_bind]
  have same : ∀ k, m'.value k = m.value k := h.value_congr h' (fun q _ => keys q) fun _ _ => rfl
  have needs : needsSlot key val m := by
    simp only [exhausts, Bool.and_eq_true] at full
    exact full.1
  have needs' : needsSlot key val m' := by
    unfold needsSlot at needs ⊢
    rwa [same]
  have account := h'.ok.account
  have size := h'.ok.size
  refine ⟨m', T.toList.map fun q => ((ent q).key, txt q), put_, ?_, fun k => ?_, h.list, ?_, ?_, fun k v => ?_, ?_⟩
  · rw [h'.cur, h.cur, next]
    exact fun e => h.ne_of_fresh le_rfl (Option.some.inj e)
  · rw [h'.getVal, h.getVal, same]
  · rw [h'.list]
    simp only [keys]
  · rw [List.map_map]
    exact (List.nodup_map_iff_inj_on h.tree.nodup).2 fun q hq q' hq' e => h.key_inj hq hq' e
  · rw [h.getVal, Except.ok.injEq, h.value_eq_some]
    simp
  · have texts : ((T.toList.map fun q => ((ent q).key, txt q)).map fun b => b.2.strlen + 1).sum =
        textSize (T.toList.map txt) := by
      rw [textSize, List.map_map, List.map_map]
      rfl
    rw [takesEffect_iff h'.good needs', texts, ← used, ← Bool.not_eq_true, h'.exhausts_iff needs']
    push_cast
    omega

/-- Two keys, and then `fillKey` with a value that grows until all but 86 bytes of the pool are used up. -/
def growPuts : List (CStr × CStr) :=
  (.lit "b", .lit "1") :: (.lit "c", .lit "22") :: (List.range' 0 89).map fun i => (fillKey, ones i)

/-- What is bound beside `fillKey`. -/
def growBase (k : CStr) : Option CStr :=
  if k = .lit "c" then some (.lit "22") else if k = .lit "b" then some (.lit "1") else none

/-- A new key takes a new slot. -/
theorem put_new {m : Mem} (good : Good m) {key val : CStr} (absent : m.value key = none)
    (short : val.strlen < propValueMax) (room : (val.strlen : Int) + 1 ≤ m.remain) :
    ∃ r m', put key val m = .ok (r, m') ∧ Good m' ∧ (∀ k, m'.value k = if k = key then some val else m.value k) ∧
      m'.remain = m.remain - (val.strlen + 1) := by
  have needs : needsSlot key val m = true := by rw [needsSlot, absent]
  have stays : exhausts key val m = false := by
    simp [exhausts, needs, Int.lt_of_add_one_le room]
  obtain ⟨r, m', run, spec⟩ := put_spec good key short
  refine ⟨r, m', run, spec.good, fun k => by simpa [stays] using spec.value k, ?_⟩
  rw [(spec.stays stays).2, needs, if_pos rfl]
  push_cast
  rfl

theorem growPuts_run : ∃ log m, runPuts growPuts (memoryInit .fresh) = .ok (log, m) ∧ Grown growBase 4091 89 m := by
  have empty : ∀ k, (memoryInit .fresh).value k = none := vacant_fresh.value
  have size : (memoryInit .fresh).remain = 4096 := vacant_fresh.remain
  obtain ⟨r₁, m₁, put₁, good₁, value₁, rem₁⟩ := put_new vacant_fresh.good (empty (.lit "b"))
    (show (CStr.lit "1").strlen < propValueMax by decide) (by rw [size]; decide)
  obtain ⟨r₂, m₂, put₂, good₂, value₂, rem₂⟩ := put_new good₁ (show m₁.value (.lit "c") = none by rw [value₁, empty]; rfl)
    (show (CStr.lit "22").strlen < propValueMax by decide) (by rw [rem₁, size]; decide)
  have start : Grown growBase 4091 0 m₂ := {
    good := good₂
    unbound := rfl
    value := fun k => by simp [value₂, value₁, empty, growBase]
    remain := by rw [rem₂, rem₁, size]; decide }
  obtain ⟨log, m, run, grown⟩ := start.run (k := 89) (by decide) (by decide)
  exact ⟨_, m, by simp only [growPuts, runPuts, put₁, put₂, run, ok_bind]; rfl, grown⟩

/-- What the three values take in a block. -/
theorem Grown.total {m : Mem} (h : Grown growBase 4091 89 m) {l : List (CStr × CStr)} (nodup : (l.map Prod.fst).Nodup)
    (listed : ∀ k v, (k, v) ∈ l ↔ getVal k m = .ok (some v)) : (l.map fun b => b.2.strlen + 1).sum = 94 := by
  have bound : l.Perm [(fillKey, ones 88), (.lit "c", .lit "22"), (.lit "b", .lit "1")] := by
    apply (List.perm_ext_iff_of_nodup nodup.of_map (by decide)).2
    rintro ⟨k, v⟩
    have cb : CStr.lit "c" ≠ .lit "b" := by decide
    have ca : CStr.lit "c" ≠ fillKey := by decide
    have ba : CStr.lit "b" ≠ fillKey := by decide
    rw [listed, h.good.getVal, h.value, growBase, Except.ok.injEq]
    by_cases ha : k = fillKey
    · simp [ha, ca.symm, ba.symm, eq_comm]
    · by_cases hc : k = .lit "c"
      · simp [hc, ca, ca.symm, cb.symm, eq_comm]
      · simp [ha, hc, eq_comm]
  rw [(bound.map _).sum_eq]
  rfl

/-- **A retry that fits.** Three keys are bound, and 3916 bytes of the pool are texts that are no longer used. One more
byte for the longest value exhausts the pool, and the retry takes effect. -/
theorem compaction_exact_grown : ∃ log m, runPuts growPuts (memoryInit .fresh) = .ok (log, m) ∧
    exhausts fillKey (ones 89) m ∧
    ∃ m' l, put fillKey (ones 89) m = .ok (0, m') ∧ m'.curPool ≠ m.curPool ∧ (∀ k, getVal k m' = getVal k m) ∧
      systemPropertyList m = .ok l ∧ systemPropertyList m' = .ok l ∧ (l.map Prod.fst).Nodup ∧
      (∀ k v, (k, v) ∈ l ↔ getVal k m = .ok (some v)) ∧
      (TakesEffect fillKey (ones 89) m' ↔ (l.map fun b => b.2.strlen + 1).sum + ((ones 89).strlen + 1) ≤ blocksize) ∧
      TakesEffect fillKey (ones 89) m' := by
  obtain ⟨log, m, run, grown⟩ := growPuts_run
  have full : exhausts fillKey (ones 89) m := by
    have remain := grown.remain
    have left : m.remain < 90 := by push_cast at remain; omega
    simp [exhausts, grown.needs, left]
  have short : ∀ c ∈ growPuts, c.2.strlen < propValueMax := by decide
  obtain ⟨m', l, put_, pool, same, list, list', nodup, listed, retry⟩ := compaction_exact short run full
  refine ⟨log, m, run, full, m', l, put_, pool, same, list, list', nodup, listed, retry, retry.2 ?_⟩
  rw [grown.total nodup listed]
  decide

end CodeBackup.Property
