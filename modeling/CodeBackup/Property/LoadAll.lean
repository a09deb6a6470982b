import CodeBackup.Binding.Arena
import CodeBackup.Property.Durable
import CodeBackup.Property.Update

/-!
# What a load of everything binds

`load_all_props` puts the pairs of the two files into a pool of `BLOCKSIZE`
bytes, and `put` drops the pair that exhausts it. The lengths of the values
decide which pairs these are: `Accounts L m` says that the ledger `L` is the
account of the pool of `m`, and every `put` keeps it (`Accounts.put`). So each
key ends with its last value exactly if the last pair of each key finds room
(`loadAllProps_lastOf_iff`); a key that grows line by line is cut short though
all that is stored is one value (`load_drops_last_line`).
-/

namespace CodeBackup.Property

open C C.Outcome Rbtree ColorTree CStr Binding Run

/-- The ledger accounts for the pool of the store. -/
structure Accounts (L : Ledger CStr) (m : Mem) : Prop where
  good : Good m
  sizes : L.Sized strlen m.value
  remain : m.remain = blocksize - L.used

namespace Accounts

variable {L : Ledger CStr} {m : Mem} {key val : CStr}

theorem needsSlot_eq (h : Accounts L m) : needsSlot key val m = L.grows key val.strlen := by
  have e := h.sizes key
  cases bound : m.value key with
  | none =>
    rw [bound, Option.map_none] at e
    simp [needsSlot, Ledger.grows, bound, ← e]
  | some old =>
    rw [bound, Option.map_some] at e
    simp [needsSlot, Ledger.grows, bound, ← e]

/-- The pool is exhausted if the ledger has no room. -/
theorem exhausts_iff (h : Accounts L m) : exhausts key val m = false ↔ L.Room blocksize key val.strlen := by
  rw [exhausts, h.needsSlot_eq, Ledger.Room, h.remain]
  cases L.grows key val.strlen with
  | false => simp
  | true =>
    simp only [Bool.true_and, decide_eq_false_iff_not, forall_const]
    omega

/-- The bytes of the values, node by node or key by key. -/
theorem textSize_eq (h : Accounts L m) {T : Shape Ptr} {ent : Ptr → MapEntry} {txt : Ptr → CStr} {id : PoolId}
    {p : Mempool} (inv : Inv m T ent txt id p) : textSize (T.toList.map txt) = L.live := by
  set pair : Ptr → Sigma fun _ : CStr => Nat := fun q => ⟨(ent q).key, (txt q).strlen⟩ with hpair
  have nodup : (T.toList.map pair).Nodup := by
    refine (List.nodup_map_iff_inj_on inv.tree.nodup).2 fun q hq q' hq' e => inv.key_inj hq hq' ?_
    exact congrArg Sigma.fst e
  have same : (T.toList.map pair).Perm L.sizes.entries := by
    refine (List.perm_ext_iff_of_nodup nodup L.sizes.nodupKeys.nodup).2 fun ⟨k, n⟩ => ?_
    rw [← AList.mem_lookup_iff, ← h.sizes k, Option.mem_def, Option.map_eq_some_iff, List.mem_map]
    constructor
    · rintro ⟨q, hq, e⟩
      obtain ⟨rfl, rfl⟩ : (ent q).key = k ∧ (txt q).strlen = n := by simpa [hpair] using e
      exact ⟨txt q, inv.value_mem hq, rfl⟩
    · rintro ⟨v, bound, rfl⟩
      obtain ⟨q, hq, rfl, rfl⟩ := inv.value_eq_some.1 bound
      exact ⟨q, hq, rfl⟩
  calc textSize (T.toList.map txt)
      = ((T.toList.map pair).map fun e => e.2 + 1).sum := by rw [textSize, List.map_map, List.map_map]; rfl
    _ = L.live := (same.map _).sum_eq

/-- **`put`** does to the ledger what it does to the pool. -/
theorem put (h : Accounts L m) (key : CStr) {val : CStr} (short : val.strlen < propValueMax) :
    ∃ r m', Property.put key val m = .ok (r, m') ∧ Accounts (L.store blocksize key val.strlen) m' ∧
      m'.value = if L.Room blocksize key val.strlen then Function.update m.value key (some val) else m.value := by
  obtain ⟨r, m', run, spec⟩ := put_spec h.good key short
  have value : m'.value =
      if L.Room blocksize key val.strlen then Function.update m.value key (some val) else m.value := by
    funext k
    rw [spec.value]
    by_cases room : L.Room blocksize key val.strlen
    · simp [room, h.exhausts_iff.2 room, Function.update_apply]
    · have full : exhausts key val m = true := by simpa using mt h.exhausts_iff.1 room
      simp [room, full]
  refine ⟨r, m', run, ⟨spec.good, ?_, ?_⟩, value⟩
  · rw [value]
    exact h.sizes.store key val
  · by_cases room : L.Room blocksize key val.strlen
    · rw [(spec.stays (h.exhausts_iff.2 room)).2, Ledger.store, if_pos room, h.needsSlot_eq, h.remain]
      cases L.grows key val.strlen with
      | false => simp
      | true =>
        simp only [if_true]
        push_cast
        omega
    · obtain ⟨T, ent, txt, id, p, inv⟩ := h.good
      have full : exhausts key val m = true := by simpa using mt h.exhausts_iff.1 room
      rw [inv.remain_of_full full run, Ledger.store, if_neg room, h.textSize_eq inv]

/-- **Lines without imports**, whether or not their values fit the pool. -/
theorem performLines (importFile : CStr → Option CStr → Mem → Outcome Mem) :
    ∀ {ls : List (List UInt8)} {L : Ledger CStr} {m : Mem}, Accounts L m →
      (∀ line ∈ ls, ¬ importPrefix.bytes <+: trimStart line) →
      ∃ m', Property.performLines addProperty importFile none ls m = .ok m' ∧
        Accounts (L.run blocksize strlen (ls.filterMap lineBinding)) m' ∧
        m'.value = L.stored blocksize strlen (ls.filterMap lineBinding) m.value
  | [], L, m, h, _ => ⟨m, rfl, h, rfl⟩
  | line :: ls, L, m, h, plain => by
    have plain' := fun l hl => plain l (List.mem_cons_of_mem _ hl)
    rw [Property.performLines, perform_plain (plain line List.mem_cons_self)]
    rcases b : lineBinding line with _ | ⟨key, value⟩
    · rw [List.filterMap_cons_none b]
      exact performLines importFile h plain'
    · rw [List.filterMap_cons_some b]
      have add := lineBinding_addable b
      obtain ⟨r, m₁, run₁, h₁, value₁⟩ := h.put key (lineBinding_some b).2
      obtain ⟨m', run, h', value'⟩ := performLines importFile h₁ plain'
      refine ⟨m', ?_, h', ?_⟩
      · simp only [addProperty, systemPropertyAdd_addable add, run₁, ok_bind]
        exact run
      · rw [value', value₁]
        rfl

/-- A load of a file without imports. -/
theorem load (h : Accounts L m) {files : Files} (depth : Nat) {fn : CStr} {content : List UInt8}
    (file : files fn = some content) (free : ImportFree content) :
    ∃ m', loadPropertiesFromFile addProperty files (depth + 1) fn none m = .ok m' ∧
      Accounts (L.run blocksize strlen (bindings content)) m' ∧
      m'.value = L.stored blocksize strlen (bindings content) m.value := by
  have plain : ∀ line ∈ lines content, ¬ importPrefix.bytes <+: trimStart line :=
    fun line hl => free line ((lines_prefix_segments content).subset hl)
  obtain ⟨m', run, rest⟩ := h.performLines (loadPropertiesFromFile addProperty files depth) plain
  refine ⟨m', ?_, rest⟩
  unfold loadPropertiesFromFile
  simp only [readFile, file, Option.map_some]
  rw [loadProperties_eq]
  exact run

/-- The pool that `memory_init` makes. -/
theorem init {m : Mem} (h : Vacant m) : Accounts ⟨∅, 0⟩ (memoryInit m) where
  good := h.good
  sizes k := by simp [h.value]
  remain := by simp [h.remain]

end Accounts

/-- The last pair of each key finds room in a new pool. -/
def LastsFit (log : List (CStr × CStr)) : Prop := Ledger.Fits blocksize strlen ⟨∅, 0⟩ log

instance (log : List (CStr × CStr)) : Decidable (LastsFit log) := Ledger.decidableFits _ _ _ log

/-- **A load of everything**, of any two contents without imports, binds each key to its last value and no
other key, exactly if the last pair of each key finds room in the pool. -/
theorem loadAllProps_lastOf_iff {files : Files} {content content' : List UInt8}
    (build : files propPathSystemBuild = some content) (ota : files propPathOtaConfig = some content')
    (free : ImportFree content) (free' : ImportFree content') (depth : Nat) :
    ∃ w, loadAllProps (depth + 1) ⟨.fresh, files⟩ = .ok w ∧
      ((∀ k, getVal k w.mem = .ok (lastOf (bindings content ++ bindings content') k)) ↔
        LastsFit (bindings content ++ bindings content')) := by
  obtain ⟨m₁, run₁, h₁, value₁⟩ := (Accounts.init vacant_fresh).load depth build free
  obtain ⟨m₂, run₂, h₂, value₂⟩ := h₁.load depth ota free'
  refine ⟨⟨m₂, files⟩, by simp only [loadAllProps, run₁, run₂, ok_bind], ?_⟩
  rw [LastsFit, ← Ledger.stored_eq_lastOf_iff (Accounts.init vacant_fresh).sizes]
  apply forall_congr'
  intro k
  rw [h₂.good.getVal, value₂, value₁, ← Ledger.stored_append, vacant_fresh.value, Option.or_none]
  exact ⟨Except.ok.inj, congrArg Except.ok⟩

/-- One of the values is bound twice. -/
theorem loadAllProps_lastOf_iff_two : ∃ w,
    loadAllProps 1 ⟨.fresh, twoFiles (.lit "ro.b=2\n persist.a=1\n") (.lit "persist.a = 31")⟩ = .ok w ∧
      ((∀ k, getVal k w.mem = .ok (lastOf (bindings (lit "ro.b=2\n persist.a=1\n").bytes ++
          bindings (lit "persist.a = 31").bytes) k)) ↔
        LastsFit (bindings (lit "ro.b=2\n persist.a=1\n").bytes ++ bindings (lit "persist.a = 31").bytes)) :=
  @loadAllProps_lastOf_iff (twoFiles (.lit "ro.b=2\n persist.a=1\n") (.lit "persist.a = 31")) _ _ (by decide)
    (by decide) (by decide) (by decide) 0

/-! ## A key that grows -/

/-- A line for each length below `n`, all of one key. -/
def growing (n : Nat) : List (CStr × CStr) := (List.range n).map fun i => (.lit "persist.a", ones i)

theorem growing_written {n : Nat} (hn : n ≤ propValueMax) : ∀ p ∈ growing n, Written p := by
  intro p hp
  obtain ⟨i, hi, rfl⟩ := List.mem_map.1 hp
  have hi : i < n := List.mem_range.1 hi
  have key : Persistent (.lit "persist.a") := ⟨by decide, by decide⟩
  refine ⟨key, ?_, fun b hb => ?_⟩
  · simp only [ones, strlen, List.length_replicate]
    omega
  · obtain rfl : b = 49 := List.eq_of_mem_replicate hb
    decide

theorem not_lastsFit_growing : ¬ LastsFit (growing 91) := by
  decide +kernel

/-- **Ninety-one lines of one key**: the last one finds the pool used up by those before it, and is dropped. -/
theorem load_drops_last_line : ¬ ∀ (files : Files) (content content' : List UInt8) (depth : Nat) (w : World),
    files propPathSystemBuild = some content → files propPathOtaConfig = some content' → 0 ∉ content →
      0 ∉ content' → ImportFree content → ImportFree content' → loadAllProps depth ⟨.fresh, files⟩ = .ok w →
      ∀ k, getVal k w.mem = .ok (lastOf (bindings content ++ bindings content') k) := by
  intro always
  have written := growing_written (n := 91) (by decide)
  set files : Files := twoFiles (.ofBytes (render (growing 91))) (.lit "") with hfiles
  have build : files propPathSystemBuild = some (render (growing 91)) := by
    simp [hfiles, twoFiles, ofBytes_bytes (render_nulFree written)]
  have ota : files propPathOtaConfig = some [] := by
    have ne : propPathOtaConfig ≠ propPathSystemBuild := by decide
    simpa [hfiles, twoFiles, ne] using (by decide : (lit "").bytes = [])
  obtain ⟨m₁, run₁, h₁, value₁⟩ := (Accounts.init vacant_fresh).load 0 build (importFree_render written)
  obtain ⟨m₂, run₂, h₂, value₂⟩ := h₁.load 0 ota (by decide)
  have last := always files _ _ 1 ⟨m₂, files⟩ build ota (render_nulFree written) (by simp)
    (importFree_render written) (by decide) (by simp only [loadAllProps, run₁, run₂, ok_bind])
  apply not_lastsFit_growing
  rw [LastsFit, ← Ledger.stored_eq_lastOf_iff (Accounts.init vacant_fresh).sizes]
  intro k
  have := last k
  rw [h₂.good.getVal, value₂, value₁, ← Ledger.stored_append, bindings_render written] at this
  simpa [vacant_fresh.value, show bindings [] = [] by decide] using Except.ok.inj this

end CodeBackup.Property
