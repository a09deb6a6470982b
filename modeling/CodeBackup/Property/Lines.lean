import CodeBackup.Property.Name

/-!
# Lines of a property file

The reading of a file as a list of lines, without a buffer. `segments` cuts a
text at its newlines; the loader sees these lines (`lines`), but stops at a NUL
byte and then drops the line that the NUL cuts off. `lineAction` says what one
line does: nothing, a binding, or the import of another file.
-/

namespace CodeBackup.Property

open C C.Outcome

/-- The text cut at its newlines; `cur` is what stands before the text on its first line. -/
def segmentsFrom (cur : List UInt8) : List UInt8 → List (List UInt8)
  | [] => [cur]
  | b :: l => if b = chNewline then cur :: segmentsFrom [] l else segmentsFrom (cur ++ [b]) l

/-- The lines of a text. -/
def segments (l : List UInt8) : List (List UInt8) := segmentsFrom [] l

/-- The lines that end with a newline before the first NUL. -/
def linesFrom (cur : List UInt8) : List UInt8 → List (List UInt8)
  | [] => []
  | b :: l =>
    if b = 0 then []
    else if b = chNewline then cur :: linesFrom [] l
    else linesFrom (cur ++ [b]) l

/-- The lines that the loader reads: `read_file` puts a newline and a NUL behind the contents. -/
def lines (content : List UInt8) : List (List UInt8) := linesFrom [] (content ++ [chNewline, 0])

theorem segmentsFrom_ne_nil (cur x : List UInt8) : segmentsFrom cur x ≠ [] := by
  induction x generalizing cur with
  | nil => simp [segmentsFrom]
  | cons b x ih =>
    unfold segmentsFrom
    split
    · simp
    · exact ih _

theorem segmentsFrom_newline (cur x y : List UInt8) :
    segmentsFrom cur (x ++ chNewline :: y) = segmentsFrom cur x ++ segments y := by
  induction x generalizing cur with
  | nil => simp [segmentsFrom, segments]
  | cons b x ih => by_cases nl : b = chNewline <;> simp [segmentsFrom, nl, ih]

theorem segments_newline (x y : List UInt8) : segments (x ++ chNewline :: y) = segments x ++ segments y :=
  segmentsFrom_newline [] x y

/-- One line. -/
theorem segmentsFrom_line {x : List UInt8} (h : chNewline ∉ x) (cur : List UInt8) :
    segmentsFrom cur x = [cur ++ x] := by
  induction x generalizing cur with
  | nil => simp [segmentsFrom]
  | cons b x ih =>
    have hb : b ≠ chNewline := fun e => h (by simp [e])
    simp [segmentsFrom, hb, ih (fun hx => h (List.mem_cons_of_mem _ hx))]

theorem segments_line {x : List UInt8} (h : chNewline ∉ x) : segments x = [x] := segmentsFrom_line h []

theorem linesFrom_newline {x : List UInt8} (h : 0 ∉ x) (cur y : List UInt8) :
    linesFrom cur (x ++ chNewline :: y) = segmentsFrom cur x ++ linesFrom [] y := by
  induction x generalizing cur with
  | nil => simp [linesFrom, segmentsFrom, show chNewline ≠ 0 by decide]
  | cons b x ih =>
    have hb : b ≠ 0 := fun e => h (by simp [e])
    have ih := fun cur => ih (fun hx => h (List.mem_cons_of_mem _ hx)) cur
    by_cases nl : b = chNewline
    · simp [linesFrom, segmentsFrom, nl, show chNewline ≠ 0 by decide, ih]
    · simp [linesFrom, segmentsFrom, hb, nl, ih]

theorem linesFrom_nul {x : List UInt8} (h : 0 ∉ x) (cur y : List UInt8) :
    linesFrom cur (x ++ 0 :: y) = (segmentsFrom cur x).dropLast := by
  induction x generalizing cur with
  | nil => simp [linesFrom, segmentsFrom]
  | cons b x ih =>
    have hb : b ≠ 0 := fun e => h (by simp [e])
    have ih := fun cur => ih (fun hx => h (List.mem_cons_of_mem _ hx)) cur
    by_cases nl : b = chNewline
    · simp [linesFrom, segmentsFrom, nl, show chNewline ≠ 0 by decide, ih,
        List.dropLast_cons_of_ne_nil (segmentsFrom_ne_nil _ _)]
    · simp [linesFrom, segmentsFrom, hb, nl, ih]

/-- **Reading line by line**: a part without NUL, up to a newline, is cut at its newlines. -/
theorem lines_newline {x : List UInt8} (h : 0 ∉ x) (y : List UInt8) :
    lines (x ++ chNewline :: y) = segments x ++ lines y := by
  simp [lines, segments, linesFrom_newline h]

theorem lines_of_nulFree {x : List UInt8} (h : 0 ∉ x) : lines x = segments x := by
  have := linesFrom_newline h [] [0]
  simpa [lines, segments, linesFrom] using this

/-- What is behind a NUL is not read, nor is the line that the NUL ends. -/
theorem lines_nul {x : List UInt8} (h : 0 ∉ x) (y : List UInt8) :
    lines (x ++ 0 :: y) = (segments x).dropLast := by
  simp [lines, segments, linesFrom_nul h]

/-- A text up to the end of a line. -/
def Closed (p : List UInt8) : Prop := p = [] ∨ ∃ x, p = x ++ [chNewline]

/-- A text is whole lines, and what stands on the line after them. -/
theorem exists_closed (x : List UInt8) : ∃ p u, x = p ++ u ∧ Closed p ∧ chNewline ∉ u := by
  induction x using List.reverseRecOn with
  | nil => exact ⟨[], [], rfl, .inl rfl, by simp⟩
  | append_singleton x b ih =>
    by_cases nl : b = chNewline
    · exact ⟨x ++ [b], [], by simp, .inr ⟨x, by rw [nl]⟩, by simp⟩
    · obtain ⟨p, u, rfl, closed, line⟩ := ih
      exact ⟨p, u ++ [b], by simp, closed, by simp [line, Ne.symm nl]⟩

/-- Whole lines are read before what follows them. -/
theorem lines_closed {p : List UInt8} (h : 0 ∉ p) (closed : Closed p) (y : List UInt8) :
    lines (p ++ y) = (segments p).dropLast ++ lines y := by
  rcases closed with rfl | ⟨x, rfl⟩
  · rfl
  · have hx : 0 ∉ x := fun hx => h (by simp [hx])
    rw [List.append_assoc, List.singleton_append, lines_newline hx, segments_newline]
    simp [segments, segmentsFrom]

/-- What ends a line: the end of the text, a newline, or a NUL. -/
theorem exists_line (y : List UInt8) : ∃ x z, y = x ++ z ∧ chNewline ∉ x ∧ 0 ∉ x ∧
    (z = [] ∨ (∃ rest, z = chNewline :: rest) ∨ ∃ rest, z = 0 :: rest) := by
  induction y with
  | nil => exact ⟨[], [], rfl, by simp, by simp, .inl rfl⟩
  | cons b y ih =>
    by_cases nl : b = chNewline
    · exact ⟨[], b :: y, rfl, by simp, by simp, .inr (.inl ⟨y, by rw [nl]⟩)⟩
    · by_cases nul : b = 0
      · exact ⟨[], b :: y, rfl, by simp, by simp, .inr (.inr ⟨y, by rw [nul]⟩)⟩
      · obtain ⟨x, z, rfl, hx, hx', hz⟩ := ih
        exact ⟨b :: x, z, rfl, by simp [hx, Ne.symm nl], by simp [hx', Ne.symm nul], hz⟩

/-- A line of a text is a part of it. -/
theorem mem_segmentsFrom {line : List UInt8} : ∀ {cur x : List UInt8}, line ∈ segmentsFrom cur x →
    line <:+: cur ++ x
  | cur, [], h => by
    rw [segmentsFrom, List.mem_singleton] at h
    simp [h]
  | cur, b :: x, h => by
    unfold segmentsFrom at h
    split at h
    · rcases List.mem_cons.1 h with rfl | h
      · exact (List.prefix_append _ _).isInfix
      · exact (mem_segmentsFrom h).trans ((List.suffix_append (cur ++ [b]) x).isInfix.trans (by simp))
    · simpa using mem_segmentsFrom h

theorem infix_of_mem_segments {line x : List UInt8} (h : line ∈ segments x) : line <:+: x := mem_segmentsFrom h

theorem lines_prefix_segments (content : List UInt8) : lines content <+: segments content := by
  by_cases nul : 0 ∈ content
  · obtain ⟨x, y, rfl, hx⟩ := List.eq_append_cons_of_mem nul
    rw [lines_nul hx]
    clear nul
    suffices h : ∀ cur, (segmentsFrom cur x).dropLast <+: segmentsFrom cur (x ++ 0 :: y) from h []
    clear hx
    induction x with
    | nil => simp [segmentsFrom]
    | cons b x ih =>
      intro cur
      by_cases nl : b = chNewline
      · simpa [segmentsFrom, nl, List.dropLast_cons_of_ne_nil (segmentsFrom_ne_nil _ _)] using ih []
      · simpa [segmentsFrom, nl] using ih (cur ++ [b])
  · rw [lines_of_nulFree nul]

/-- The lines that are read hold no NUL. -/
theorem lines_nulFree {content line : List UInt8} (h : line ∈ lines content) : 0 ∉ line := by
  by_cases nul : 0 ∈ content
  · obtain ⟨x, y, rfl, hx⟩ := List.eq_append_cons_of_mem nul
    rw [lines_nul hx] at h
    exact fun hl => hx ((infix_of_mem_segments (List.mem_of_mem_dropLast h)).subset hl)
  · rw [lines_of_nulFree nul] at h
    exact fun hl => nul ((infix_of_mem_segments h).subset hl)

/-! ## What a line does -/

/-- The text without white space at its end. -/
def trimEnd (l : List UInt8) : List UInt8 := l.rdropWhile isspace

/-- The text without white space at its start. -/
def trimStart (l : List UInt8) : List UInt8 := l.dropWhile isspace

/-- The text without white space at either end. -/
def trim (l : List UInt8) : List UInt8 := trimEnd (trimStart l)

/-- The text cut at the first `c`. -/
def cut (c : UInt8) : List UInt8 → Option (List UInt8 × List UInt8)
  | [] => none
  | b :: l => if b = c then some ([], l) else (cut c l).map fun p => (b :: p.1, p.2)

/-- What a line of a file does. -/
inductive LineAction where
  | skip
  | binding (key value : CStr)
  | importing (fn : CStr) (filter : Option CStr)
  deriving DecidableEq

/-- An `import` line, behind the word. -/
def importAction (arg : List UInt8) : LineAction :=
  match cut chSpace (trimStart arg) with
  | none => .importing (.ofBytes (trimStart arg)) none
  | some (fn, filter) => .importing (.ofBytes fn) (some (.ofBytes (trimStart filter)))

/-- A line that may hold `key=value`. -/
def bindingAction (filter : Option CStr) (s : List UInt8) : LineAction :=
  match cut chEq s with
  | none => .skip
  | some (key, value) =>
    if filterAccepts filter (.ofBytes (trimEnd key)) && legalName (.ofBytes (trimEnd key)) then
      .binding (.ofBytes (trimEnd key)) (.ofBytes (trimStart value))
    else .skip

/-- What the loader does for a line. -/
def lineAction (filter : Option CStr) (line : List UInt8) : LineAction :=
  if (trimStart line).head? = some chHash then .skip
  else if importPrefix.bytes.isPrefixOf (trim line) && filterLen filter = 0 then
    importAction ((trim line).drop 7)
  else bindingAction filter (trim line)

/-- The key that a line binds is legal. -/
theorem lineAction_legal {filter : Option CStr} {line : List UInt8} {key value : CStr}
    (act : lineAction filter line = .binding key value) : legalName key := by
  unfold lineAction at act
  split at act
  · cases act
  · split at act
    · unfold importAction at act
      split at act <;> cases act
    · unfold bindingAction at act
      split at act
      · cases act
      · split at act
        · next legal =>
          cases act
          simp only [Bool.and_eq_true] at legal
          exact legal.2
        · cases act

theorem cut_of_not_mem {c : UInt8} {l : List UInt8} (h : c ∉ l) : cut c l = none := by
  induction l with
  | nil => rfl
  | cons b l ih =>
    have hb : b ≠ c := fun e => h (by simp [e])
    simp [cut, hb, ih fun hl => h (List.mem_cons_of_mem _ hl)]

/-- The cut of a text that is split at its first `c`. -/
theorem cut_of {c : UInt8} {x : List UInt8} (h : c ∉ x) (y : List UInt8) :
    cut c (x ++ c :: y) = some (x, y) := by
  induction x with
  | nil => simp [cut]
  | cons b x ih =>
    have hb : b ≠ c := fun e => h (by simp [e])
    simp [cut, hb, ih fun hx => h (List.mem_cons_of_mem _ hx)]

theorem cut_cases (c : UInt8) (l : List UInt8) :
    (c ∉ l ∧ cut c l = none) ∨ ∃ x y, l = x ++ c :: y ∧ c ∉ x ∧ cut c l = some (x, y) := by
  by_cases h : c ∈ l
  · obtain ⟨x, y, rfl, hx⟩ := List.eq_append_cons_of_mem h
    exact .inr ⟨x, y, rfl, hx, cut_of hx y⟩
  · exact .inl ⟨h, cut_of_not_mem h⟩

/-- A text is white space, and then nothing or a byte that is none. -/
theorem trimStart_cases (l : List UInt8) : ∃ sp, l = sp ++ trimStart l ∧ (∀ b ∈ sp, isspace b = true) ∧
    ∀ b x, trimStart l = b :: x → isspace b = false := by
  refine ⟨l.takeWhile isspace, (List.takeWhile_append_dropWhile ..).symm, fun b hb =>
    List.mem_takeWhile_imp hb, fun b x e => ?_⟩
  have := List.head_dropWhile_not isspace (l := l) (by rw [show l.dropWhile isspace = b :: x from e]; simp)
  simpa [show l.dropWhile isspace = b :: x from e] using this

/-- A text that begins with a byte that is no white space ends with one, and then white space. -/
theorem trimEnd_cases {b : UInt8} {x : List UInt8} (hb : isspace b = false) :
    ∃ ys c sp, b :: x = ys ++ c :: sp ∧ isspace c = false ∧ (∀ d ∈ sp, isspace d = true) ∧
      trimEnd (b :: x) = ys ++ [c] := by
  induction x using List.reverseRecOn with
  | nil => exact ⟨[], b, [], rfl, hb, by simp, by simp [trimEnd, List.rdropWhile_singleton, hb]⟩
  | append_singleton x d ih =>
    have cons : b :: (x ++ [d]) = (b :: x) ++ [d] := rfl
    cases hd : isspace d with
    | false =>
      exact ⟨b :: x, d, [], rfl, hd, by simp, by
        rw [trimEnd, cons, List.rdropWhile_concat_neg _ _ _ (by simp [hd])]⟩
    | true =>
      obtain ⟨ys, c, sp, e, hc, hsp, ht⟩ := ih
      refine ⟨ys, c, sp ++ [d], by rw [cons, e]; simp, hc, ?_, ?_⟩
      · intro a ha
        rcases List.mem_append.1 ha with ha | ha
        · exact hsp a ha
        · rwa [List.mem_singleton.1 ha]
      · rw [trimEnd, cons, List.rdropWhile_concat_pos _ _ _ hd]
        exact ht

end CodeBackup.Property
