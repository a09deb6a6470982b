import CodeBackup.Property.Get

/-!
# The fallback of a persistent key

A read of `persist.X` that finds nothing looks up another key: `ro.` and the 24
bytes that stand behind `persist.` in the key's buffer. That is `ro.X` as long
as `X` has no more bytes, but a key of the map may have 28 behind its `ro.`. So
a longer suffix is answered with the value of another key, unless the two keys
happen to have the same one (`fallback_exact`).
-/

namespace CodeBackup.Property

open C C.Outcome CStr

/-- A buffer of NULs. -/
def ValueBuf.zeros : ValueBuf := .of (.lit "") (by decide)

/-- A read of the key in a buffer of NULs yields the value of the key `alt`, or the empty string if it is not bound. -/
def YieldsValueOf (alt : CStr) (key : Buf) (m : Mem) : Prop := Reads key .zeros m ((m.value alt).getD (.lit ""))

theorem startsWith_append (a b : CStr) : startsWith (a.append b) a :=
  List.isPrefixOf_iff_prefix.2 (List.prefix_append a.bytes b.bytes)

theorem roKey_append (X : CStr) (n : Nat) : roKey (persistPrefix.append X) n = roPrefix.append (X.take n) := by
  have eight : persistPrefix.bytes.length = 8 := by decide
  apply CStr.ext
  simp only [roKey, append, take]
  rw [← eight, List.drop_left]

theorem zeros_getElem? {n : Nat} (h : n < propValueMax) : ValueBuf.zeros.bytes[n]? = some 0 := by
  have bytes : ValueBuf.zeros.bytes = List.replicate propValueMax 0 := by decide
  rw [bytes, List.getElem?_replicate, if_pos h]

theorem cleared_zeros : cleared ValueBuf.zeros.bytes = ValueBuf.zeros.bytes := by decide

/-- A value that is copied into a buffer of NULs is read back. -/
theorem str_zeros {m : Mem} (good : Good m) {key val : CStr} (bound : m.value key = some val) :
    Buf.str (val.bytes ++ ValueBuf.zeros.bytes.drop val.strlen) 0 = .ok val :=
  str_copied.2 (zeros_getElem? (good.value_short bound))

/-- **A read that finds nothing** yields the value of the fallback key. -/
theorem reads_fallback_iff {m : Mem} (good : Good m) {X : CStr} {rest : List UInt8}
    (unbound : m.value (persistPrefix.append X) = none) (s : CStr) :
    Reads ((persistPrefix.append X).bytes ++ 0 :: rest) .zeros m s ↔
      propKeyMax ≤ (persistPrefix.append X).strlen + 1 + rest.length ∧
        s = (m.value (roPrefix.append (X.take (propKeyMax - 8)))).getD (.lit "") := by
  rw [Reads, systemPropertyGet_eq good, unbound, ← roKey_append]
  simp only [startsWith_append, if_true]
  by_cases long : propKeyMax ≤ (persistPrefix.append X).strlen + 1 + rest.length
  · simp only [long, if_true, true_and, cleared_zeros]
    cases bound : m.value (roKey (persistPrefix.append X) (propKeyMax - 8)) with
    | none =>
      have empty : Buf.str ValueBuf.zeros.bytes 0 = .ok (.lit "") := cleared_zeros ▸ str_cleared ValueBuf.zeros.nul
      simp [empty, eq_comm]
    | some val =>
      simp [str_zeros good bound, eq_comm]
  · simp [long]

/-- **The fallback is exact**, of every store that satisfies the invariant of the map, as all do that are reached, of
every suffix and whatever stands behind the key in its buffer, exactly if the buffer is as long as a key can be and the
suffix is not longer than the copied part, or the key that is looked up instead yields the same. -/
theorem fallback_exact {m : Mem} (good : Good m) {X : CStr} {rest : List UInt8}
    (unbound : m.value (persistPrefix.append X) = none) :
    YieldsValueOf (roPrefix.append X) ((persistPrefix.append X).bytes ++ 0 :: rest) m ↔
      propKeyMax ≤ (persistPrefix.append X).strlen + 1 + rest.length ∧
        (X.strlen ≤ propKeyMax - 8 ∨ (m.value (roPrefix.append X)).getD (.lit "") =
          (m.value (roPrefix.append (X.take (propKeyMax - 8)))).getD (.lit "")) := by
  rw [YieldsValueOf, reads_fallback_iff good unbound]
  by_cases short : X.strlen ≤ propKeyMax - 8
  · simp [short, take_of_strlen_le short]
  · simp [short]

/-- Two keys of 27 and 28 bytes, the one the start of the other. -/
def fallbackFiles : Files :=
  twoFiles (.lit "ro.aaaaaaaaaaaaaaaaaaaaaaaa=1\nro.aaaaaaaaaaaaaaaaaaaaaaaaa=2\n") (.lit "")

/-- A suffix of 25 bytes. -/
def longSuffix : CStr := .lit "aaaaaaaaaaaaaaaaaaaaaaaaa"

theorem fallbackFiles_loaded : ∃ w, loadAllProps 1 ⟨.fresh, fallbackFiles⟩ = .ok w ∧ Good w.mem ∧
    w.mem.value (persistPrefix.append longSuffix) = none ∧
    w.mem.value (roPrefix.append longSuffix) = some (.lit "2") ∧
    w.mem.value (roPrefix.append (longSuffix.take (propKeyMax - 8))) = some (.lit "1") := by
  obtain ⟨good, -, value⟩ := @loadAllProps_logged fallbackFiles
    (lit "ro.aaaaaaaaaaaaaaaaaaaaaaaa=1\nro.aaaaaaaaaaaaaaaaaaaaaaaaa=2\n").bytes (lit "").bytes 1 _
    (by decide) (by decide) (by decide +kernel) (by decide) (by decide +kernel) rfl
  refine ⟨_, rfl, good, ?_, ?_, ?_⟩
  all_goals
    rw [value]
    decide +kernel

/-- A suffix that is cut. -/
theorem fallback_exact_long : ∃ w, loadAllProps 1 ⟨.fresh, fallbackFiles⟩ = .ok w ∧
    (YieldsValueOf (roPrefix.append longSuffix) ((persistPrefix.append longSuffix).bytes ++ 0 :: []) w.mem ↔
      propKeyMax ≤ (persistPrefix.append longSuffix).strlen + 1 + ([] : List UInt8).length ∧
        (longSuffix.strlen ≤ propKeyMax - 8 ∨ (w.mem.value (roPrefix.append longSuffix)).getD (.lit "") =
          (w.mem.value (roPrefix.append (longSuffix.take (propKeyMax - 8)))).getD (.lit ""))) := by
  obtain ⟨w, run, good, unbound, -⟩ := fallbackFiles_loaded
  exact ⟨w, run, fallback_exact good unbound⟩

/-- **A suffix of 25 bytes** is answered with the value of another key. -/
theorem fallback_cuts_suffix : ¬ ∀ (m : Mem), Good m → ∀ (X : CStr) (rest : List UInt8),
    m.value (persistPrefix.append X) = none → propKeyMax ≤ (persistPrefix.append X).strlen + 1 + rest.length →
      YieldsValueOf (roPrefix.append X) ((persistPrefix.append X).bytes ++ 0 :: rest) m := by
  intro always
  obtain ⟨w, -, good, unbound, whole, cut⟩ := fallbackFiles_loaded
  have reads := always w.mem good longSuffix [] unbound (by decide)
  rw [YieldsValueOf, reads_fallback_iff good unbound, whole, cut] at reads
  exact absurd reads.2 (by decide)

end CodeBackup.Property
