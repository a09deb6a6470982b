import CodeBackup.Property.Lifetime
import CodeBackup.Property.Loader

/-!
# What a load gives

The loader over the store. A line without an import binds at most one pair
(`lineBinding`), so a file without imports is a log of pairs (`bindings`), and
a load of it binds every key to its last value there, as long as the values
fit the pool (`performLines_spec`). `LoadsTo files f` says that a load of
`build.prop` into an empty store gives the bindings `f`.
-/

namespace CodeBackup.Property

open C C.Outcome Rbtree ColorTree CStr Binding

/-- The pair that a line binds: `__system_property_add` refuses a long value. -/
def lineBinding (line : List UInt8) : Option (CStr × CStr) :=
  match lineAction none line with
  | .binding key value => if value.strlen < propValueMax then some (key, value) else none
  | _ => none

/-- No line of the text imports a file. -/
def ImportFree (content : List UInt8) : Prop :=
  ∀ line ∈ segments content, ¬ importPrefix.bytes <+: trimStart line

instance (content : List UInt8) : Decidable (ImportFree content) :=
  inferInstanceAs (Decidable (∀ line ∈ segments content, ¬ importPrefix.bytes <+: trimStart line))

/-- The pairs that a load of the text binds, in order. -/
def bindings (content : List UInt8) : List (CStr × CStr) := (lines content).filterMap lineBinding

/-- The bytes that the values in the lines of a text take in a pool. -/
def valueSize (content : List UInt8) : Nat :=
  textSize (((segments content).filterMap lineBinding).map Prod.snd)

/-- Loading `build.prop` into an empty store gives the bindings `f`. -/
def LoadsTo (files : Files) (f : CStr → Option CStr) : Prop :=
  ∃ depth m, loadPropertiesFromFile addProperty files depth propPathSystemBuild none (memoryInit .fresh) = .ok m ∧
    ∀ k, getVal k m = .ok (f k)

/-! ## The size of the values -/

theorem textSize_sublist {l l' : List CStr} (h : l.Sublist l') : textSize l ≤ textSize l' :=
  (h.map _).sum_le_sum fun _ _ => Nat.zero_le _

theorem textSize_bindings (content : List UInt8) : textSize ((bindings content).map Prod.snd) ≤ valueSize content :=
  textSize_sublist (((lines_prefix_segments content).sublist.filterMap _).map _)

/-! ## One line -/

theorem trim_prefix_trimStart (line : List UInt8) : trim line <+: trimStart line := List.rdropWhile_prefix _ _

/-- A line without an import does nothing but bind its pair. -/
theorem perform_plain {line : List UInt8} (plain : ¬ importPrefix.bytes <+: trimStart line)
    (importFile : CStr → Option CStr → Mem → Outcome Mem) (m : Mem) :
    perform addProperty importFile (lineAction none line) m =
      match lineBinding line with
      | some (key, value) => addProperty key value m
      | none => .ok m := by
  have noImport : importPrefix.bytes.isPrefixOf (trim line) = false := by
    by_contra h
    exact plain ((List.isPrefixOf_iff_prefix.1 (by simpa using h)).trans (trim_prefix_trimStart line))
  unfold lineBinding
  by_cases hash : (trimStart line).head? = some chHash
  · simp [lineAction, hash, perform]
  · rw [lineAction, if_neg hash, noImport, Bool.false_and, if_neg (by simp), bindingAction]
    rcases cut chEq (trim line) with _ | ⟨key, value⟩
    · rfl
    · dsimp only
      split
      · by_cases long : (CStr.ofBytes (trimStart value)).strlen < propValueMax
        · simp [perform, long]
        · simp [perform, long, addProperty, systemPropertyAdd_refused, addable]
      · rfl

theorem lineBinding_some {line : List UInt8} {key value : CStr} (h : lineBinding line = some (key, value)) :
    lineAction none line = .binding key value ∧ value.strlen < propValueMax := by
  unfold lineBinding at h
  split at h
  · next k v e =>
    split at h
    · next short =>
      cases h
      exact ⟨e, short⟩
    · cases h
  · cases h

theorem lineBinding_legal {line : List UInt8} {key value : CStr} (h : lineBinding line = some (key, value)) :
    legalName key := lineAction_legal (lineBinding_some h).1

theorem lineBinding_addable {line : List UInt8} {key value : CStr} (h : lineBinding line = some (key, value)) :
    addable key value := by
  have legal := lineBinding_legal h
  simp [addable, legalName.pos legal, legalName.strlen_lt legal, (lineBinding_some h).2]

/-! ## A list of lines -/

/-- The pairs of a log are bound over what a store holds, and at most their bytes are taken from the pool. -/
structure Logged (log : List (CStr × CStr)) (m m' : Mem) : Prop where
  good : Good m'
  value : ∀ k, m'.value k = (lastOf log k).or (m.value k)
  remain : m.remain - textSize (log.map Prod.snd) ≤ m'.remain

theorem addProperty_logged {m : Mem} (good : Good m) {key value : CStr} (ok : addable key value)
    (room : (value.strlen : Int) + 1 ≤ m.remain) :
    ∃ m', addProperty key value m = .ok m' ∧ Logged [(key, value)] m m' := by
  obtain ⟨m', run, spec⟩ := addProperty_spec good key value
  have stays : exhausts key value m = false := by
    simp only [exhausts, Bool.and_eq_false_iff, decide_eq_false_iff_not]
    exact .inr (by omega)
  refine ⟨m', run, spec.good, fun k => ?_, ?_⟩
  · rw [spec.value]
    by_cases hk : k = key
    · simp [hk, binds, ok, stays, lastOf_cons]
    · simp [hk, Ne.symm hk, lastOf_cons]
  · rw [(spec.stays fun _ => stays).2.2]
    simp only [List.map_cons, List.map_nil, textSize_cons, textSize_nil]
    split <;> push_cast <;> omega

/-- **Lines without imports** bind their pairs, if the values fit the pool. -/
theorem performLines_spec (importFile : CStr → Option CStr → Mem → Outcome Mem) :
    ∀ {ls : List (List UInt8)} {m : Mem}, Good m → (∀ line ∈ ls, ¬ importPrefix.bytes <+: trimStart line) →
      (textSize ((ls.filterMap lineBinding).map Prod.snd) : Int) ≤ m.remain →
      ∃ m', performLines addProperty importFile none ls m = .ok m' ∧ Logged (ls.filterMap lineBinding) m m'
  | [], m, good, _, _ => ⟨m, rfl, good, fun k => by simp, by simp⟩
  | line :: ls, m, good, plain, room => by
    have plain' := fun l hl => plain l (List.mem_cons_of_mem _ hl)
    rw [performLines, perform_plain (plain line List.mem_cons_self)]
    rcases h : lineBinding line with _ | ⟨key, value⟩
    · rw [List.filterMap_cons_none h] at room ⊢
      exact performLines_spec importFile good plain' room
    · rw [List.filterMap_cons_some h] at room ⊢
      simp only [List.map_cons, textSize_cons] at room
      push_cast at room
      obtain ⟨m₁, run₁, log₁⟩ := addProperty_logged good (lineBinding_addable h) (by omega)
      have remain₁ := log₁.remain
      simp only [List.map_cons, List.map_nil, textSize_cons, textSize_nil] at remain₁
      push_cast at remain₁
      obtain ⟨m', run, log⟩ := performLines_spec importFile log₁.good plain' (by omega)
      refine ⟨m', by simp only [run₁, ok_bind, run], log.good, fun k => ?_, ?_⟩
      · rw [log.value, log₁.value, lastOf_cons, lastOf_cons, lastOf_nil, Option.none_or, Option.or_assoc]
      · have := log.remain
        simp only [List.map_cons, textSize_cons]
        push_cast
        omega

/-! ## A load -/

/-- A load of a file without imports into a store with room for its values. -/
theorem load_logged {files : Files} {depth : Nat} {fn : CStr} {content : List UInt8} {m : Mem} (good : Good m)
    (file : files fn = some content) (free : ImportFree content)
    (room : (textSize ((bindings content).map Prod.snd) : Int) ≤ m.remain) :
    ∃ m', loadPropertiesFromFile addProperty files (depth + 1) fn none m = .ok m' ∧
      Logged (bindings content) m m' := by
  have plain : ∀ line ∈ lines content, ¬ importPrefix.bytes <+: trimStart line :=
    fun line hl => free line ((lines_prefix_segments content).subset hl)
  obtain ⟨m', run, log⟩ := performLines_spec (loadPropertiesFromFile addProperty files depth) good plain room
  refine ⟨m', ?_, log⟩
  unfold loadPropertiesFromFile
  simp only [readFile, file, Option.map_some]
  rw [loadProperties_eq]
  exact run

/-- **A load of `build.prop`** without imports gives each key its last value there. -/
theorem loadsTo_iff {files : Files} {content : List UInt8} (file : files propPathSystemBuild = some content)
    (free : ImportFree content) (room : textSize ((bindings content).map Prod.snd) ≤ blocksize)
    {f : CStr → Option CStr} : LoadsTo files f ↔ ∀ k, f k = lastOf (bindings content) k := by
  have gives : ∀ depth, ∃ m, loadPropertiesFromFile addProperty files (depth + 1) propPathSystemBuild none
      (memoryInit .fresh) = .ok m ∧ ∀ k, getVal k m = .ok (lastOf (bindings content) k) := fun depth => by
    obtain ⟨m, run, log⟩ := @load_logged files depth _ _ _ vacant_fresh.good file free
      (by rw [vacant_fresh.remain]; exact_mod_cast room)
    exact ⟨m, run, fun k => by rw [log.good.getVal, log.value, vacant_fresh.value, Option.or_none]⟩
  constructor
  · rintro ⟨depth, m, run, value⟩ k
    cases depth with
    | zero => cases run
    | succ depth =>
      obtain ⟨m', run', value'⟩ := gives depth
      cases unique run' run
      exact Except.ok.inj ((value k).symm.trans (value' k))
  · intro e
    obtain ⟨m, run, value⟩ := gives 0
    exact ⟨1, m, run, fun k => by rw [value, e]⟩

/-- Two contents with the same lines are read alike. -/
theorem loadPropertiesFromFile_congr {files files' : Files}
    (same : ∀ fn, (files fn).map lines = (files' fn).map lines) :
    ∀ (depth : Nat) (fn : CStr) (filter : Option CStr) (m : Mem),
      loadPropertiesFromFile addProperty files depth fn filter m =
        loadPropertiesFromFile addProperty files' depth fn filter m
  | 0, _, _, _ => rfl
  | depth + 1, fn, filter, m => by
    have imports : loadPropertiesFromFile addProperty files depth =
        loadPropertiesFromFile addProperty files' depth := by
      funext fn filter m
      exact loadPropertiesFromFile_congr same depth fn filter m
    have h := same fn
    rw [loadPropertiesFromFile, loadPropertiesFromFile]
    cases e : files fn with
    | none =>
      rw [e, Option.map_none, eq_comm, Option.map_eq_none_iff] at h
      simp [readFile, e, h]
    | some content =>
      rw [e, Option.map_some, eq_comm, Option.map_eq_some_iff] at h
      obtain ⟨content', e', eq⟩ := h
      simp only [readFile, e, e', Option.map_some]
      rw [loadProperties_eq, loadProperties_eq, eq, imports]

end CodeBackup.Property
