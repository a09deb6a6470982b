import CodeBackup.Binding.Last
import CodeBackup.Property.Put
import CodeBackup.Property.Service

/-!
# The map is a finite map

A run of `put` from the memory that `memory_init` leaves. `runPuts` keeps a log
of the calls that did not exhaust the pool; the map is that log, read from its
end (`puts_refine_log`), and the loop over `map_first` and `map_next` lists it
in the order of the keys. `Stored` says how the values of a map lie in its
pool, and `puts_stored` that every run keeps it.
-/

namespace CodeBackup.Property

open C C.Outcome Rbtree ColorTree CStr Binding

/-- `exhausts` says when a `put` moves the values to a new pool. -/
theorem put_moves_iff {m m' : Mem} {key val : CStr} {r : Int} (good : Good m)
    (short : val.strlen < propValueMax) (run : put key val m = .ok (r, m')) :
    m'.curPool ≠ m.curPool ↔ exhausts key val m = true := by
  have spec := PutSpec.of_run good short run
  obtain ⟨T, ent, txt, id, p, h⟩ := good
  cases e : exhausts key val m with
  | false => simpa using (spec.stays e).1
  | true =>
    rw [(spec.moves e).1, h.cur]
    simpa using h.ne_of_fresh le_rfl

/-! ## Enumeration -/

namespace Inv

variable {m : Mem} {T : Shape Ptr} {ent : Ptr → MapEntry} {txt : Ptr → CStr} {id : PoolId} {p : Mempool}

theorem listLoop (h : Inv m T ent txt id p) : ∀ {ys xs : List Ptr} {n : Nat}, T.toList = xs ++ ys →
    ys.length < n → listLoop n ys.head? m = .ok (ys.map fun q => ((ent q).key, txt q))
  | ys, xs, 0, _, hn => by omega
  | [], xs, n + 1, _, _ => rfl
  | q :: ys, xs, n + 1, e, hn => by
    have hq : q ∈ T.toList := by rw [e]; simp
    have next : mapNext q m = .ok ys.head? := h.tree.next_of e
    have split : T.toList = (xs ++ [q]) ++ ys := by simp [e]
    have short : ys.length < n := by simpa using hn
    have rest := h.listLoop split short
    simp [Property.listLoop, Mem.entry_of (h.entries q hq), h.load hq, next, rest]

/-- The loop lists the nodes in order. -/
theorem list (h : Inv m T ent txt id p) :
    systemPropertyList m = .ok (T.toList.map fun q => ((ent q).key, txt q)) := by
  have first : mapFirst m = .ok T.toList.head? := h.tree.first
  rw [systemPropertyList, first, ok_bind]
  exact h.listLoop (show T.toList = [] ++ T.toList from rfl) (Nat.lt_succ_of_le h.tree.length_le)

end Inv

/-- **Enumeration** of a good store: the bound keys, in strictly increasing order. -/
theorem Good.list {m : Mem} (good : Good m) : ∃ l, systemPropertyList m = .ok l ∧
    l.Pairwise (fun a b => strcmp a.1 b.1 = .lt) ∧ ∀ k v, (k, v) ∈ l ↔ m.value k = some v := by
  obtain ⟨T, ent, txt, id, p, h⟩ := good
  refine ⟨_, h.list, List.pairwise_map.2 h.sorted, fun k v => ?_⟩
  rw [h.value_eq_some]
  simp

/-! ## Runs -/

/-- A sequence of `put` calls, with the log of those that did not exhaust the pool. -/
def runPuts : List (CStr × CStr) → Mem → Outcome (List (CStr × CStr) × Mem)
  | [], m => .ok ([], m)
  | (key, val) :: calls, m => do
    let (_, m') ← put key val m
    let (log, m'') ← runPuts calls m'
    .ok (if exhausts key val m then log else (key, val) :: log, m'')

/-- **A run** of `put` returns, and what is bound is the log over what was bound. -/
theorem runPuts_spec : ∀ {calls : List (CStr × CStr)} {m : Mem}, Good m →
    (∀ c ∈ calls, c.2.strlen < propValueMax) →
    ∃ log m', runPuts calls m = .ok (log, m') ∧ Good m' ∧ CallsLive m m' ∧
      ∀ k, m'.value k = (lastOf log k).or (m.value k)
  | [], m, good, _ => ⟨[], m, rfl, good, .refl m, fun k => by simp⟩
  | (key, val) :: calls, m, good, short => by
    have short₀ : val.strlen < propValueMax := short (key, val) (by simp)
    obtain ⟨r, m₁, run, spec⟩ := put_spec good key short₀
    obtain ⟨log, m₂, rest, good₂, calls₂, value⟩ := runPuts_spec spec.good fun c hc =>
      short c (List.mem_cons_of_mem _ hc)
    refine ⟨if exhausts key val m then log else (key, val) :: log, m₂, by simp [runPuts, run, rest],
      good₂, spec.calls.trans calls₂, fun k => ?_⟩
    rw [value, spec.value]
    cases e : exhausts key val m with
    | true => simp
    | false =>
      by_cases hk : k = key
      · subst hk; simp [lastOf_cons]
      · simp [lastOf_cons, hk, Ne.symm hk]

theorem Vacant.good {m : Mem} (h : Vacant m) : Good (memoryInit m) := (Inv.init h).good

theorem Vacant.value {m : Mem} (h : Vacant m) (k : CStr) : (memoryInit m).value k = none :=
  (Inv.init h).value_absent (by simp)

theorem Vacant.remain {m : Mem} (h : Vacant m) : (memoryInit m).remain = blocksize := (Inv.init h).remain

/-- **The map refines the log of its calls.** After any run of `put` with short values, the calls
that exhaust the pool included, `get` finds the value of the last call on the key that did not
exhaust the pool, and the loop over `map_first` and `map_next` ends after it has listed every bound
key once, in strictly increasing order. -/
theorem puts_refine_log (calls : List (CStr × CStr)) (short : ∀ c ∈ calls, c.2.strlen < propValueMax) :
    ∃ log m, runPuts calls (memoryInit .fresh) = .ok (log, m) ∧
      (∀ k, getVal k m = .ok (lastOf log k)) ∧
      ∃ l, systemPropertyList m = .ok l ∧ l.Pairwise (fun a b => strcmp a.1 b.1 = .lt) ∧
        ∀ k v, (k, v) ∈ l ↔ lastOf log k = some v := by
  obtain ⟨log, m, run, good, -, value⟩ := runPuts_spec vacant_fresh.good short
  have value' : ∀ k, m.value k = lastOf log k := fun k => by rw [value, vacant_fresh.value, Option.or_none]
  obtain ⟨l, list, sorted, mem⟩ := good.list
  exact ⟨log, m, run, fun k => by rw [good.getVal, value'], l, list, sorted,
    fun k v => by rw [mem, value']⟩

/-- Two keys, one of them bound twice. -/
theorem puts_refine_log_two : ∃ log m,
    runPuts [(.lit "b", .lit "1"), (.lit "a", .lit "2"), (.lit "b", .lit "31")] (memoryInit .fresh) =
      .ok (log, m) ∧
    (∀ k, getVal k m = .ok (lastOf log k)) ∧
    ∃ l, systemPropertyList m = .ok l ∧ l.Pairwise (fun a b => strcmp a.1 b.1 = .lt) ∧
      ∀ k v, (k, v) ∈ l ↔ lastOf log k = some v :=
  puts_refine_log _ (by decide)

/-! ## The values in the pool -/

/-- How the values of a map lie in its pool: the pool `id` is current and live, its accounts
are right, and every bound key has a slot of its own below `pvalue` that holds its text. -/
structure Stored (m : Mem) (id : PoolId) (p : Mempool) : Prop where
  cur : m.curPool = some id
  live : m.pools id = some p
  account : (p.pvalue : Int) + p.remainSize = p.blockSize
  remain : 0 ≤ p.remainSize
  slot : ∀ k q, get k m = .ok (some q) → ∃ e s, m.maps q = some e ∧ e.key = k ∧ e.val.pool = id ∧
    StrAt p.soblock e.val.off s ∧ s.strlen + 1 ≤ e.slot ∧ e.val.off + e.slot ≤ p.pvalue
  disjoint : ∀ k k' q q' e e', k ≠ k' → get k m = .ok (some q) → get k' m = .ok (some q') →
    m.maps q = some e → m.maps q' = some e' → Apart e e'

namespace Inv

variable {m : Mem} {T : Shape Ptr} {ent : Ptr → MapEntry} {txt : Ptr → CStr} {id : PoolId} {p : Mempool}

/-- `get` returns the node with the key. -/
theorem get_mem (h : Inv m T ent txt id p) {k : CStr} {q : Ptr} (hq : get k m = .ok (some q)) :
    q ∈ T.toList ∧ (ent q).key = k := by
  rw [h.get_spec] at hq
  rcases h.seek_cases k with ⟨k', c, l, q', r, e, -, hkey, hmem⟩ | ⟨k', e, -⟩
  · rw [e] at hq
    obtain rfl : q' = q := by simpa using hq
    exact ⟨hmem, hkey⟩
  · rw [e] at hq
    simp at hq

theorem stored (h : Inv m T ent txt id p) : Stored m id p where
  cur := h.cur
  live := h.live
  account := h.ok.account
  remain := h.ok.remain
  slot k q hq := by
    obtain ⟨hmem, hkey⟩ := h.get_mem hq
    exact ⟨ent q, txt q, h.entries q hmem, hkey, h.slots.inPool q hmem, h.slots.text q hmem,
      h.slots.fits q hmem, h.slots.below q hmem⟩
  disjoint k k' q q' e e' ne hq hq' he he' := by
    obtain ⟨hmem, hkey⟩ := h.get_mem hq
    obtain ⟨hmem', hkey'⟩ := h.get_mem hq'
    obtain rfl : ent q = e := Option.some.inj ((h.entries q hmem).symm.trans he)
    obtain rfl : ent q' = e' := Option.some.inj ((h.entries q' hmem').symm.trans he')
    exact h.slots.apart hmem hmem' fun eq => ne (by rw [← hkey, ← hkey', eq])

end Inv

/-- **Values are stored safely.** After any run of `put` with short values, each bound key's text
stands, with its terminator, in the slot that was allocated for it, inside the block of the current
pool; slots are disjoint, and the pool's accounts are right. -/
theorem puts_stored (calls : List (CStr × CStr)) (short : ∀ c ∈ calls, c.2.strlen < propValueMax) :
    ∃ log m id p, runPuts calls (memoryInit .fresh) = .ok (log, m) ∧ Stored m id p := by
  obtain ⟨log, m, run, ⟨T, ent, txt, id, p, h⟩, -, -⟩ := runPuts_spec vacant_fresh.good short
  exact ⟨log, m, id, p, run, h.stored⟩

/-- A value that shrinks and then outgrows its slot. -/
theorem puts_stored_regrow : ∃ log m id p,
    runPuts [(.lit "a", .lit "123"), (.lit "a", .lit "1"), (.lit "a", .lit "1234")]
      (memoryInit .fresh) = .ok (log, m) ∧ Stored m id p :=
  puts_stored _ (by decide)

end CodeBackup.Property
