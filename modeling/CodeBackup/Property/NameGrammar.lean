import CodeBackup.Grammar.Joined
import CodeBackup.Property.Name

/-!
# The grammar of names

A legal name is a sequence of segments, joined by single dots, that is shorter
than `PROP_KEY_MAX`. `is_legal_property_name` decides this in one pass
(`isLegalPropertyName_grammar`): the loop looks back one byte at each dot, and
the checks before it rule out a dot at either end.
-/

namespace CodeBackup.Property

open C Grammar

/-- A letter, a digit, `'_'` or `'-'`. -/
def NameChar (b : UInt8) : Prop :=
  let c := Char.ofNat b.toNat
  c.isAlphanum ∨ c = '_' ∨ c = '-'

theorem nameByte_iff (b : UInt8) : nameByte b = true ↔ NameChar b := by
  unfold NameChar
  revert b
  decide +kernel

theorem not_nameChar_dot : ¬ NameChar chDot := by
  rw [← nameByte_iff]
  decide

/-- **The loop** looks for two dots in a row, and for a byte that is neither a dot nor of a segment. -/
theorem nameTail_iff {prev : UInt8} {l : List UInt8} : nameTail prev l = true ↔
    (prev :: l).IsChain (fun a b => ¬ (a = chDot ∧ b = chDot)) ∧ ∀ b ∈ l, b = chDot ∨ NameChar b := by
  induction l generalizing prev with
  | nil => simp [nameTail]
  | cons b l ih =>
    rw [nameTail, Bool.and_eq_true, ih, List.isChain_cons_cons, List.forall_mem_cons]
    by_cases dot : b = chDot
    · rw [if_pos dot, decide_eq_true_eq]
      tauto
    · rw [if_neg dot, nameByte_iff]
      tauto

theorem nameTail_cons_iff {b : UInt8} {l : List UInt8} (first : b ≠ chDot) : nameTail chDot (b :: l) = true ↔
    (b :: l).IsChain (fun a b => ¬ (a = chDot ∧ b = chDot)) ∧ ∀ x ∈ b :: l, x = chDot ∨ NameChar x := by
  rw [nameTail_iff, List.isChain_cons_cons]
  tauto

/-- A legal name is short and passes the check. -/
theorem legalName_iff_checked (s : CStr) :
    legalName s = true ↔ s.strlen < propKeyMax ∧ Checked NameChar chDot s.bytes := by
  obtain ⟨name, nul⟩ := s
  cases name with
  | nil =>
    constructor
    · intro legal
      simp [legalName] at legal
    · rintro ⟨-, checked⟩
      exact absurd rfl checked.ne_nil
  | cons b l =>
    simp only [legalName, Bool.and_eq_true, decide_eq_true_eq]
    constructor
    · rintro ⟨⟨⟨short, first⟩, last⟩, tail⟩
      obtain ⟨apart, each⟩ := (nameTail_cons_iff first).1 tail
      exact ⟨short, List.cons_ne_nil _ _, by simpa using first, last, apart, each⟩
    · rintro ⟨short, checked⟩
      have first : b ≠ chDot := by simpa using checked.first
      exact ⟨⟨⟨short, first⟩, checked.last⟩, (nameTail_cons_iff first).2 ⟨checked.apart, checked.each⟩⟩

/-- **A legal name** is short and in the grammar. -/
theorem legalName_iff (s : CStr) : legalName s = true ↔ s.strlen < propKeyMax ∧ Joined NameChar chDot s.bytes := by
  rw [legalName_iff_checked, joined_iff_checked not_nameChar_dot]

/-- **`is_legal_property_name` decides the grammar.** For every string, the check of its bytes up to its length returns
and reads none but these; it is true exactly if the length is at least 1 and less than `PROP_KEY_MAX`, and the string is
one or more segments of letters, digits, `'_'` and `'-'`, none of them empty, joined by single dots. -/
theorem isLegalPropertyName_grammar (s : CStr) : ∃ legal, isLegalPropertyName s.bytes s.strlen = .ok legal ∧
    (legal = true ↔ 1 ≤ s.strlen ∧ s.strlen < propKeyMax ∧ Joined NameChar chDot s.bytes) := by
  have run := isLegalPropertyName_spec s []
  rw [List.append_nil] at run
  refine ⟨legalName s, run, ?_⟩
  constructor
  · intro legal
    exact ⟨legalName.pos legal, (legalName_iff s).1 legal⟩
  · rintro ⟨-, grammar⟩
    exact (legalName_iff s).2 grammar

end CodeBackup.Property
