import CodeBackup.Property.Service

/-!
# Legal names

`is_legal_property_name` reads a name byte by byte; `legalName` says the same
of the list of its bytes. What the rest needs of a legal name is that it is
short, that its bytes are letters, digits, `'_'`, `'-'` or `'.'`, and that it
begins and ends with none but these.
-/

namespace CodeBackup.Property

open C C.Outcome

/-- The bytes behind `prev` pass the loop of `is_legal_property_name`. -/
def nameTail (prev : UInt8) : List UInt8 → Bool
  | [] => true
  | b :: l => (if b = chDot then prev ≠ chDot else nameByte b) && nameTail b l

/-- A legal name. -/
def legalName (s : CStr) : Bool :=
  match s.bytes with
  | [] => false
  | b :: l => s.strlen < propKeyMax && b ≠ chDot && (b :: l).getLast? ≠ some chDot && nameTail chDot (b :: l)

theorem nameLoop_spec (name : List UInt8) (zs : List UInt8) : ∀ {ys xs : List UInt8} {prev : UInt8} {n : Nat},
    name = xs ++ prev :: ys → ys.length < n →
      nameLoop (name ++ zs) name.length n (xs.length + 1) = .ok (nameTail prev ys)
  | ys, xs, prev, 0, _, hn => by omega
  | [], xs, prev, n + 1, e, _ => by
    have : ¬ xs.length + 1 < name.length := by simp [e]
    simp [nameLoop, this, nameTail]
  | b :: ys, xs, prev, n + 1, e, hn => by
    have lt : xs.length + 1 < name.length := by simp [e]
    have here : Buf.read (name ++ zs) (xs.length + 1) = .ok b := by
      have := Buf.read_at (xs ++ [prev]) b (ys ++ zs)
      simpa [e] using this
    have before : Buf.readPrev (name ++ zs) (xs.length + 1) = .ok prev := by
      have := Buf.read_at xs prev (b :: ys ++ zs)
      simpa [Buf.readPrev, e] using this
    have rest := @nameLoop_spec name zs ys (xs ++ [prev]) b n
      (by simp [e]) (by simpa using hn)
    rw [List.length_append, List.length_singleton] at rest
    simp only [nameLoop, if_pos lt, here, before, ok_bind, rest, nameTail]
    by_cases dot : b = chDot
    · by_cases dots : prev = chDot <;> simp [dot, dots]
    · by_cases ok : nameByte b <;> simp [dot, ok]

/-- **`is_legal_property_name`** decides `legalName`, and reads no byte behind the name. -/
theorem isLegalPropertyName_spec (s : CStr) (zs : List UInt8) :
    isLegalPropertyName (s.bytes ++ zs) s.strlen = .ok (legalName s) := by
  obtain ⟨name, nul⟩ := s
  cases name with
  | nil => simp [isLegalPropertyName, legalName, CStr.strlen, propKeyMax]
  | cons b l =>
    simp only [isLegalPropertyName, legalName]
    generalize hn : CStr.strlen ⟨b :: l, nul⟩ = n
    replace hn : n = (b :: l).length := hn.symm
    have first : Buf.read (b :: l ++ zs) 0 = .ok b := Buf.read_at [] b (l ++ zs)
    obtain ⟨ys, z, e⟩ : ∃ ys z, b :: l = ys ++ [z] := ⟨_, _, (List.dropLast_append_getLast (by simp)).symm⟩
    have last : Buf.read (b :: l ++ zs) (n - 1) = .ok z := by
      have := Buf.read_at ys z zs
      rw [hn, e]
      simpa using this
    have getLast : (b :: l).getLast? = some z := by rw [e]; simp
    rw [first, ok_bind, last, ok_bind, getLast]
    by_cases long : propKeyMax ≤ n
    · simp [long]
    · by_cases dot : b = chDot
      · simp [dot, long]
      · by_cases dots : z = chDot
        · simp [dot, dots, long]
        · have loop := @nameLoop_spec (b :: l) zs l [] b n rfl (by simp [hn])
          have step : nameLoop (b :: l ++ zs) n (n + 1) 0 = .ok (nameTail chDot (b :: l)) := by
            rw [nameLoop, if_pos (by simp [hn]), first, ok_bind, if_neg dot, nameTail, if_neg dot]
            by_cases ok : nameByte b
            · rw [if_pos ok, ok, Bool.true_and, hn]
              exact hn ▸ loop
            · simp [ok]
          rw [if_neg long, if_neg (by simp [hn]), if_neg dot, if_neg dots, step]
          simp [Nat.lt_of_not_le long, dot, dots]

theorem nameTail_byte {prev : UInt8} {l : List UInt8} (h : nameTail prev l) {b : UInt8} (hb : b ∈ l) :
    b = chDot ∨ nameByte b := by
  induction l generalizing prev with
  | nil => simp at hb
  | cons c l ih =>
    simp only [nameTail, Bool.and_eq_true] at h
    rcases List.mem_cons.1 hb with rfl | hb
    · by_cases dot : b = chDot
      · exact .inl dot
      · rw [if_neg dot] at h
        exact .inr h.1
    · exact ih h.2 hb

/-- A byte that may stand in a name is no separator of the file format. -/
theorem nameByte_ne {b : UInt8} (h : b = chDot ∨ nameByte b) :
    b ≠ 0 ∧ b ≠ chNewline ∧ b ≠ chEq ∧ b ≠ chHash ∧ isspace b = false := by
  revert b
  decide +kernel

namespace legalName

variable {s : CStr}

theorem strlen_lt (h : legalName s) : s.strlen < propKeyMax := by
  obtain ⟨name, nul⟩ := s
  cases name with
  | nil => simp [legalName] at h
  | cons b l =>
    simp only [legalName, Bool.and_eq_true, decide_eq_true_eq] at h
    exact h.1.1.1

theorem pos (h : legalName s) : 0 < s.strlen := by
  obtain ⟨name, nul⟩ := s
  cases name with
  | nil => simp [legalName] at h
  | cons b l => simp [CStr.strlen]

theorem byte (h : legalName s) {b : UInt8} (hb : b ∈ s.bytes) :
    b ≠ 0 ∧ b ≠ chNewline ∧ b ≠ chEq ∧ b ≠ chHash ∧ isspace b = false := by
  obtain ⟨name, nul⟩ := s
  cases name with
  | nil => simp at hb
  | cons c l =>
    simp only [legalName, Bool.and_eq_true] at h
    exact nameByte_ne (nameTail_byte h.2 hb)

end legalName

end CodeBackup.Property
