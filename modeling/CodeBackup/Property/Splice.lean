import CodeBackup.Property.Format

/-!
# What `op_prop_file` writes

For a bound key `op_prop_file` looks for the first place where the key's text
stands, wherever that is, and replaces as many bytes behind it as the value in
memory is long, one byte left out (`Splice`). For a new key it appends a line.
`setProperty_persistent` puts the two together with the `put` that follows.
-/

namespace CodeBackup.Property

open C C.Outcome CStr Binding

/-- The place where `op_prop_file` cuts the text: the key stands there for the first time, `c` is the
byte behind it, and `w` are the bytes it replaces. -/
structure Splice (key : CStr) (old : Nat) (mem p : List UInt8) (c : UInt8) (w y : List UInt8) : Prop where
  parts : mem = p ++ (key.bytes ++ c :: (w ++ y))
  length : w.length = old
  first : ∀ j < p.length, ¬ key.bytes <+: mem.drop j

/-! ## The search -/

theorem take_eq_iff {key : CStr} {l : List UInt8} : l.take key.strlen = key.bytes ↔ key.bytes <+: l := by
  rw [List.prefix_iff_eq_take, eq_comm]
  rfl

/-- The search finds the first place. -/
theorem scanLoop_first {key : CStr} {mem p z : List UInt8} (parts : mem = p ++ (key.bytes ++ z)) :
    ∀ {n i : Nat}, p.length < n + i → i ≤ p.length → (∀ j, i ≤ j → j < p.length → ¬ key.bytes <+: mem.drop j) →
      scanLoop key mem n i = .ok (some p.length)
  | 0, i, hn, hi, _ => by omega
  | n + 1, i, hn, hi, first => by
    have len : mem.length = p.length + (key.strlen + z.length) := by simp [parts, strlen]
    rw [scanLoop, if_neg (by omega)]
    by_cases here : i = p.length
    · rw [if_pos, here]
      rw [take_eq_iff, here, parts, List.drop_left]
      exact List.prefix_append _ _
    · rw [if_neg (fun h => first i le_rfl (by omega) (take_eq_iff.1 h))]
      exact scanLoop_first parts (by omega) (by omega) fun j hj => first j (by omega)

theorem scanLoop_of_run {key : CStr} {mem : List UInt8} : ∀ {n i k : Nat}, scanLoop key mem n i = .ok (some k) →
    i ≤ k ∧ key.bytes <+: mem.drop k ∧ ∀ j, i ≤ j → j < k → ¬ key.bytes <+: mem.drop j
  | 0, _, _, run => by cases run
  | n + 1, i, k, run => by
    unfold scanLoop at run
    split at run
    · cases run
    · split at run
      · next h =>
        cases run
        exact ⟨le_rfl, take_eq_iff.1 h, fun j hj hj' => by omega⟩
      · next h =>
        obtain ⟨le, found, first⟩ := scanLoop_of_run run
        refine ⟨by omega, found, fun j hj hj' => ?_⟩
        by_cases e : i = j
        · exact e ▸ fun hp => h (take_eq_iff.2 hp)
        · exact first j (by omega) hj'

/-- The search never ends without a place: it faults when the key's text is not there. -/
theorem scanLoop_ne_none {key : CStr} (pos : 0 < key.strlen) {mem : List UInt8} :
    ∀ {n i : Nat}, mem.length < n + i → i ≤ mem.length → scanLoop key mem n i ≠ .ok none
  | 0, i, hn, hi, _ => by omega
  | n + 1, i, hn, hi, run => by
    unfold scanLoop at run
    split at run
    · cases run
    · split at run
      · cases run
      · exact scanLoop_ne_none pos (by omega) (by omega) run

/-! ## The new text -/

/-- **The rewrite** of a bound key. -/
theorem rewrite_splice {key : CStr} {old : Nat} {mem p w y : List UInt8} {c : UInt8}
    (h : Splice key old mem p c w y) (value : CStr) :
    rewrite key value old true mem = .ok (p ++ (key.bytes ++ c :: (value.bytes ++ y))) := by
  have scan : scanLoop key mem (mem.length + 1) 0 = .ok (some p.length) := by
    refine scanLoop_first h.parts ?_ (Nat.zero_le _) fun j _ => h.first j
    rw [h.parts]
    simp
  have len : mem.length = p.length + (key.strlen + (1 + (old + y.length))) := by
    rw [h.parts, ← h.length]
    simp [strlen]
    omega
  have head : mem.take (p.length + key.strlen + 1) = p ++ (key.bytes ++ [c]) := by
    have : mem = (p ++ (key.bytes ++ [c])) ++ (w ++ y) := by rw [h.parts]; simp
    rw [this]
    exact List.take_left' (by simp [strlen]; omega)
  have tail : mem.drop (p.length + key.strlen + 1 + old) = y := by
    have : mem = (p ++ (key.bytes ++ c :: w)) ++ y := by rw [h.parts]; simp
    rw [this]
    exact List.drop_left' (by rw [← h.length]; simp [strlen]; omega)
  simp only [rewrite, if_true, scan, ok_bind]
  rw [if_neg (by omega), if_neg (by omega), head, tail, List.take_of_length_le (by omega)]
  simp

/-- The first place of the key's text, with enough bytes behind it. -/
theorem splice_of_first {key : CStr} {old i : Nat} {mem : List UInt8} (found : key.bytes <+: mem.drop i)
    (first : ∀ j < i, ¬ key.bytes <+: mem.drop j) (room : i + key.strlen + 1 + old ≤ mem.length) :
    ∃ c w y, Splice key old mem (mem.take i) c w y := by
  obtain ⟨z, hz⟩ := found
  have lenp : (mem.take i).length = i := by
    rw [List.length_take]
    omega
  have parts : mem = mem.take i ++ (key.bytes ++ z) := by rw [hz, List.take_append_drop]
  have lenz : mem.length = i + (key.strlen + z.length) := by
    conv_lhs => rw [parts]
    simp only [List.length_append, lenp, strlen]
  obtain ⟨c, z, rfl⟩ := List.exists_cons_of_length_pos (l := z) (by omega)
  rw [List.length_cons] at lenz
  refine ⟨c, z.take old, z.drop old, ?_, ?_, fun j hj => first j (lenp ▸ hj)⟩
  · rw [List.take_append_drop]
    exact parts
  · rw [List.length_take]
    omega

/-- A rewrite that returns has found a place to cut. -/
theorem splice_of_rewrite {key value : CStr} (pos : 0 < key.strlen) {old : Nat} {mem out : List UInt8}
    (run : rewrite key value old true mem = .ok out) : ∃ p c w y, Splice key old mem p c w y := by
  simp only [rewrite, if_true] at run
  obtain ⟨k, scan, run⟩ := bind_eq_ok.1 run
  cases k with
  | none => exact absurd scan (scanLoop_ne_none pos (by omega) (Nat.zero_le _))
  | some i =>
    obtain ⟨-, found, first⟩ := scanLoop_of_run scan
    dsimp only at run
    split at run
    · cases run
    · split at run
      · cases run
      · exact ⟨_, splice_of_first found (fun j => first j (Nat.zero_le _)) (by omega)⟩

/-- What the file holds after `op_prop_file` has been called for the key. -/
def rewriteFor (key value : CStr) (m : Mem) (mem : List UInt8) : Outcome (List UInt8) :=
  match m.value key with
  | none => rewrite key value 0 false mem
  | some old => rewrite key value old.strlen true mem

/-- A new key is appended. -/
theorem rewriteFor_new {key value : CStr} (pk : Persistent key) (short : value.strlen < propValueMax) {m : Mem}
    (new : m.value key = none) (mem : List UInt8) :
    rewriteFor key value m mem = .ok (mem ++ (key.bytes ++ chEq :: (value.bytes ++ [chNewline]))) := by
  have := legalName.strlen_lt pk.legal
  simp only [propKeyMax, propValueMax] at this short
  simp only [rewriteFor, new, rewrite]
  rw [if_neg (by simp), if_neg (by simp only [propKeyMax, propValueMax]; omega)]

/-- **`set_property`** for a persistent key and a short value: the file, then the `put`. -/
theorem setProperty_persistent {w : World} (good : Good w.mem) {key value : CStr} (pk : Persistent key)
    (short : value.strlen < propValueMax) {mem : List UInt8} (file : w.files propPathSystemBuild = some mem) :
    ∃ m, PutSpec key value w.mem m ∧ setProperty key value w =
      rewriteFor key value w.mem mem >>= fun out =>
        .ok (0, ⟨m, Function.update w.files propPathSystemBuild (some out)⟩) := by
  obtain ⟨r, m, run, spec⟩ := put_spec good key short
  have accepted : refuses key value w.mem = false := by
    simp [refuses, pk.ne_ro, Nat.not_le.2 short]
  have update : fileUpdate key value w = rewriteFor key value w.mem mem >>= fun out =>
      .ok (Function.update w.files propPathSystemBuild (some out)) := by
    rw [fileUpdate, if_pos pk.starts, rewriteFor]
    cases w.mem.value key with
    | none =>
      simp only [opPropFile, file, deref_some, ok_bind]
      cases rewrite key value 0 false mem <;> rfl
    | some old =>
      simp only [opPropFile, file, deref_some, ok_bind]
      cases rewrite key value old.strlen true mem <;> rfl
  refine ⟨m, spec, ?_⟩
  rw [setProperty_eq good pk.legal, accepted, if_neg (by simp), update, run]
  cases rewriteFor key value w.mem mem <;> rfl

end CodeBackup.Property
