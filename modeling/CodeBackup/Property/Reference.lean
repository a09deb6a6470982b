import CodeBackup.Property.Imports

/-!
# The line format

What a property file means, said without a buffer and without a loop: the text
is cut at its newlines, and `reference` says what one stripped line gives. The
loader passes exactly these pairs to `__system_property_add`
(`loadProperties_reading`), whatever blanks, empty keys or missing newlines a
file has.

The filter of an import is what stands behind the first space of its argument;
`strip` is what is done to it. The code skips the white space before it.
-/

namespace CodeBackup.Property

open C C.Outcome CStr Relations Relation

/-- The filter accepts the key: a final `'*'` means a prefix, otherwise they are equal. -/
def accepts (filter : Option CStr) (key : CStr) : Bool :=
  match filter with
  | none => true
  | some f => if f.bytes.getLast? = some chStar then f.bytes.dropLast.isPrefixOf key.bytes else key = f

/-- The text before the first `c`. -/
def upTo (c : UInt8) (l : List UInt8) : List UInt8 := l.takeWhile (· ≠ c)

/-- The text behind the first `c`. -/
def behind (c : UInt8) (l : List UInt8) : List UInt8 := (l.dropWhile (· ≠ c)).tail

/-- What a line means. -/
def reference (strip : List UInt8 → List UInt8) (filter : Option CStr) (line : List UInt8) : LineAction :=
  let text := trim line
  if filter = none ∧ importPrefix.bytes <+: text then
    let arg := trimStart (text.drop importPrefix.strlen)
    if chSpace ∈ arg then .importing (.ofBytes (upTo chSpace arg)) (some (.ofBytes (strip (behind chSpace arg))))
    else .importing (.ofBytes arg) none
  else if text.head? = some chHash ∨ chEq ∉ text then .skip
  else
    let key := CStr.ofBytes (trimEnd (upTo chEq text))
    if legalName key ∧ accepts filter key then .binding key (.ofBytes (trimStart (behind chEq text))) else .skip

/-- The text of each file, cut at its newlines. -/
def textOf (files : Files) (fn : CStr) : Option (List (List UInt8)) := (files fn).map (List.splitOn chNewline)

/-- The pairs that a content gives. -/
def Reading (strip : List UInt8 → List UInt8) (files : Files) (filter : Option CStr) (content : List UInt8)
    (ps : List (CStr × CStr)) : Prop :=
  Gives (reference strip) (textOf files) filter (content.splitOn chNewline) ps

/-- An `__system_property_add` that keeps a list of its calls. -/
def record (key value : CStr) (calls : List (CStr × CStr)) : Outcome (List (CStr × CStr)) :=
  .ok (calls ++ [(key, value)])

theorem addAll_record (ps calls : List (CStr × CStr)) : addAll record ps calls = .ok (calls ++ ps) := by
  induction ps generalizing calls with
  | nil => simp
  | cons p ps ih => simp [record, ih]

/-! ## The line -/

theorem cut_eq (c : UInt8) (l : List UInt8) :
    cut c l = if c ∈ l then some (upTo c l, behind c l) else none := by
  rcases cut_cases c l with ⟨none_, hc⟩ | ⟨x, y, rfl, hx, hc⟩
  · rw [hc, if_neg none_]
  · have free : ∀ b ∈ x, decide (b ≠ c) = true := fun b hb => by
      simp only [ne_eq, decide_not, Bool.not_eq_true', decide_eq_false_iff_not]
      rintro rfl
      exact hx hb
    rw [hc, if_pos (by simp), upTo, behind, List.takeWhile_append_of_pos free, List.dropWhile_append_of_pos free]
    simp

theorem segmentsFrom_eq (cur l : List UInt8) :
    segmentsFrom cur l = l.splitOnPPrepend (· == chNewline) cur.reverse := by
  induction l generalizing cur with
  | nil => simp [segmentsFrom]
  | cons b l ih =>
    rw [segmentsFrom, List.splitOnPPrepend_cons_eq_if]
    by_cases nl : b = chNewline
    · simp [nl, ih]
    · simp [nl, ih]

/-- The lines of a text without NUL are the text cut at its newlines. -/
theorem lines_eq_splitOn {content : List UInt8} (nul : 0 ∉ content) : lines content = content.splitOn chNewline := by
  rw [lines_of_nulFree nul, segments, segmentsFrom_eq]
  rfl

theorem linesOf_eq_textOf {files : Files} (nulFree : ∀ fn content, files fn = some content → 0 ∉ content) :
    linesOf files = textOf files := by
  funext fn
  cases h : files fn with
  | none => simp [linesOf, textOf, h]
  | some content => simp [linesOf, textOf, h, lines_eq_splitOn (nulFree fn content h)]

/-- A filter that is null or not empty. -/
def Proper (filter : Option CStr) : Prop := ∀ f, filter = some f → f.strlen ≠ 0

theorem filterAccepts_eq {filter : Option CStr} (proper : Proper filter) (key : CStr) :
    filterAccepts filter key = accepts filter key := by
  cases filter with
  | none => rfl
  | some f => simp [filterAccepts, accepts, filterMatches, proper f rfl]

theorem filterLen_eq_zero {filter : Option CStr} (proper : Proper filter) : filterLen filter = 0 ↔ filter = none := by
  cases filter with
  | none => simp [filterLen]
  | some f => simp [filterLen, proper f rfl]

theorem head?_trim (line : List UInt8) : (trim line).head? = (trimStart line).head? := by
  obtain ⟨sp, -, -, head⟩ := trimStart_cases line
  cases h : trimStart line with
  | nil => simp [trim, h, trimEnd]
  | cons b x =>
    rw [trim, h]
    have := trimEnd_cons (head b x h) [] x
    simp only [List.nil_append] at this
    rw [this]
    rfl

/-- **The loader's view of a line** is the reference's, if the filter of an import is stripped of leading blanks. -/
theorem lineAction_eq {filter : Option CStr} (proper : Proper filter) (line : List UInt8) :
    lineAction filter line = reference trimStart filter line := by
  have seven : importPrefix.strlen = 7 := by decide
  simp only [lineAction, reference, ← head?_trim, importAction, bindingAction, cut_eq, seven,
    filterLen_eq_zero proper, filterAccepts_eq proper]
  by_cases import_ : filter = none ∧ importPrefix.bytes <+: trim line
  · have noHash : (trim line).head? ≠ some chHash := by
      obtain ⟨l, e⟩ := import_.2
      rw [← e, importPrefix_bytes, List.cons_append, List.head?_cons]
      decide
    have prefixOf : importPrefix.bytes.isPrefixOf (trim line) = true := List.isPrefixOf_iff_prefix.2 import_.2
    rw [if_neg noHash, if_pos (by simp [prefixOf, import_.1]), if_pos import_]
    split
    · next none_ =>
      rw [if_neg]
      intro mem
      rw [if_pos mem] at none_
      cases none_
    · next fn f some_ =>
      split at some_
      · next mem =>
        rw [if_pos mem]
        cases some_
        rfl
      · cases some_
  · have other : ¬ (importPrefix.bytes.isPrefixOf (trim line) && decide (filter = none)) = true := by
      rw [Bool.and_eq_true, decide_eq_true_iff, List.isPrefixOf_iff_prefix]
      exact fun h => import_ ⟨h.2, h.1⟩
    rw [if_neg other, if_neg import_]
    by_cases hash : (trim line).head? = some chHash
    · simp [hash]
    · by_cases eq : chEq ∈ trim line
      · simp [hash, eq, and_comm]
      · simp [hash, eq]

/-! ## The load -/

/-- Lines that give pairs to the loader give them in the reference reading. -/
theorem Gives.reading {files : Files} (nulFree : ∀ fn content, files fn = some content → 0 ∉ content)
    {filter : Option CStr} {ls : List (List UInt8)} {ps : List (CStr × CStr)}
    (h : Gives lineAction (linesOf files) filter ls ps) :
    Proper filter → (∀ line ∈ ls, 0 ∉ line) → Gives (reference trimStart) (textOf files) filter ls ps := by
  induction h with
  | nil filter => exact fun _ _ => .nil filter
  | skip e _ ih =>
    intro proper nul
    exact .skip (lineAction_eq proper _ ▸ e) (ih proper fun l hl => nul l (List.mem_cons_of_mem _ hl))
  | binding e _ ih =>
    intro proper nul
    exact .binding (lineAction_eq proper _ ▸ e) (ih proper fun l hl => nul l (List.mem_cons_of_mem _ hl))
  | missing e none_ _ ih =>
    intro proper nul
    exact .missing (lineAction_eq proper _ ▸ e) (linesOf_eq_textOf nulFree ▸ none_)
      (ih proper fun l hl => nul l (List.mem_cons_of_mem _ hl))
  | @file filter filter' line fn ls ls' ps qs e some_ _ _ ih₁ ih₂ =>
    intro proper nul
    have proper' : Proper filter' := by
      rintro f rfl
      cases filter with
      | none => exact importing_filter (nul line List.mem_cons_self) e
      | some f' => exact absurd e (lineAction_filter (proper f' rfl) line fn _)
    have nul' : ∀ line ∈ ls', 0 ∉ line := by
      obtain ⟨content, -, rfl⟩ := Option.map_eq_some_iff.1 some_
      exact fun line hl => lines_nulFree hl
    exact .file (lineAction_eq proper _ ▸ e) (linesOf_eq_textOf nulFree ▸ some_) (ih₁ proper' nul')
      (ih₂ proper fun l hl => nul l (List.mem_cons_of_mem _ hl))

/-- **The loader accepts its line format.** Take a finite file system without NUL bytes and without cycles of imports, a
content without NUL bytes, and a filter that is null or not empty. The content has one reading, where the filter of
an import is stripped of its leading white space; and, with enough files open at a time, a load of the content makes one
call of `__system_property_add` for each pair of the reading, in order. -/
theorem loadProperties_reading {files : Files} (finite : {fn | files fn ≠ none}.Finite)
    (nulFree : ∀ fn content, files fn = some content → 0 ∉ content) (acyclic : ∀ fn, Acyclic (Imports files) fn)
    {content : List UInt8} (nul : 0 ∉ content) {filter : Option CStr} (proper : Proper filter) :
    ∃ pairs, (∀ ps, Reading trimStart files filter content ps ↔ ps = pairs) ∧
      ∃ d, ∀ depth ≥ d, loadProperties record (loadPropertiesFromFile record files depth)
        (content ++ [chNewline, 0]) filter [] = .ok pairs := by
  have sources : {fn | ∃ fn', Imports files fn fn'}.Finite :=
    finite.subset fun fn ⟨_, content, file, _⟩ => by simp [file]
  obtain ⟨pairs, gives⟩ : ∃ ps, Gives lineAction (linesOf files) filter (lines content) ps := by
    cases filter with
    | none =>
      exact gives_lines (fun line hl => lines_nulFree hl) fun _ _ fn _ ls' file =>
        gives_of_ends (ends_of_acyclic sources (acyclic fn)) file
    | some f => exact gives_filter files (proper f rfl) _
  have reading : Reading trimStart files filter content pairs := by
    rw [Reading, ← lines_eq_splitOn nul]
    exact gives.reading nulFree proper fun line hl => lines_nulFree hl
  refine ⟨pairs, fun ps => ⟨fun h => reading.unique h, fun e => e ▸ reading⟩, ?_⟩
  obtain ⟨d, load⟩ := load_of_gives record gives
  refine ⟨d, fun depth hd => ?_⟩
  rw [loadProperties_eq, load depth hd, addAll_record, List.nil_append]

/-! ## One file -/

section

variable {build : CStr}

theorem buildOnly_some {fn : CStr} {content : List UInt8} (h : buildOnly build fn = some content) :
    fn = propPathSystemBuild ∧ content = build.bytes := by
  by_cases e : fn = propPathSystemBuild
  · subst e
    rw [buildOnly, Function.update_self] at h
    exact ⟨rfl, (Option.some.inj h).symm⟩
  · rw [buildOnly, Function.update_of_ne e] at h
    cases h

theorem buildOnly_nulFree (build fn : CStr) (content : List UInt8) (h : buildOnly build fn = some content) :
    0 ∉ content := (buildOnly_some h).2 ▸ build.nulFree

/-- A single file without imports has no cycles. -/
theorem buildOnly_acyclic (free : ImportFree build.bytes) (fn : CStr) : Acyclic (Imports (buildOnly build)) fn := by
  have none_ : ∀ fn fn', ¬ Imports (buildOnly build) fn fn' := by
    rintro fn fn' ⟨content, file, line, hl, e⟩
    obtain ⟨-, rfl⟩ := buildOnly_some file
    have plain := free line ((lines_prefix_segments _).subset hl)
    exact plain ((lineAction_importing e).1.trans (trim_prefix_trimStart line))
  intro fn' _ cycle
  obtain ⟨fn'', hr, -⟩ := TransGen.head'_iff.1 cycle
  exact none_ fn' fn'' hr

end

/-- A line of one file between the lines of another. -/
theorem loadProperties_reading_import :
    ∃ pairs, (∀ ps, Reading trimStart (buildOnly (.lit "#x=1\n a = 1 \n=2")) none
        (lit "b=2\nimport  /data/build.prop  a*\n\nc").bytes ps ↔ ps = pairs) ∧
      ∃ d, ∀ depth ≥ d, loadProperties record
        (loadPropertiesFromFile record (buildOnly (.lit "#x=1\n a = 1 \n=2")) depth)
        ((lit "b=2\nimport  /data/build.prop  a*\n\nc").bytes ++ [chNewline, 0]) none [] = .ok pairs :=
  loadProperties_reading (buildOnly_finite _) (buildOnly_nulFree _)
    (buildOnly_acyclic (by decide)) (CStr.nulFree _) (by rintro f ⟨⟩)

/-- **Two blanks before the filter** of an import: the loader skips both, so the filter does not begin with one. -/
theorem import_filter_is_stripped : ¬ ∀ (files : Files), {fn | files fn ≠ none}.Finite →
    (∀ fn content, files fn = some content → 0 ∉ content) → (∀ fn, Acyclic (Imports files) fn) →
    ∀ (content : List UInt8), 0 ∉ content → ∀ (filter : Option CStr), Proper filter →
      ∃ pairs, (∀ ps, Reading id files filter content ps ↔ ps = pairs) ∧
        ∃ d, ∀ depth ≥ d, loadProperties record (loadPropertiesFromFile record files depth)
          (content ++ [chNewline, 0]) filter [] = .ok pairs := by
  intro always
  set files := buildOnly (.lit "a=1\n") with hfiles
  set content := (lit "import /data/build.prop  a*\n").bytes with hcontent
  have nulFree := buildOnly_nulFree (.lit "a=1\n")
  obtain ⟨pairs, reading, d, load⟩ := always files (buildOnly_finite _) nulFree
    (buildOnly_acyclic (by decide)) content (CStr.nulFree _) none (by rintro f ⟨⟩)
  -- taken with its blank the filter begins with one, and no key does
  have gives : Reading id files none content [] := by
    have file : textOf files propPathSystemBuild = some [(lit "a=1").bytes, []] := by
      rw [textOf, hfiles, buildOnly, Function.update_self]
      decide
    have split : content.splitOn chNewline = [(lit "import /data/build.prop  a*").bytes, []] := by decide
    rw [Reading, split]
    have empty : Gives (reference id) (textOf files) none [[]] [] := .skip (by decide) (.nil _)
    have filtered : Gives (reference id) (textOf files) (some (.lit " a*")) [(lit "a=1").bytes, []] [] :=
      .skip (by decide) (.skip (by decide) (.nil _))
    exact .file (by decide) file filtered empty
  obtain rfl := (reading []).1 gives
  -- the loader passes on `a=1`
  have gives' : Gives lineAction (linesOf files) none (lines content) [(.lit "a", .lit "1")] := by
    have file : linesOf files propPathSystemBuild = some [(lit "a=1").bytes, []] := by
      rw [linesOf, hfiles, buildOnly, Function.update_self]
      decide
    have split : lines content = [(lit "import /data/build.prop  a*").bytes, []] := by decide
    rw [split]
    have empty : Gives lineAction (linesOf files) none [[]] [] := .skip (by decide) (.nil _)
    have filtered : Gives lineAction (linesOf files) (some (.lit "a*")) [(lit "a=1").bytes, []]
        [(.lit "a", .lit "1")] := .binding (by decide) (.skip (by decide) (.nil _))
    exact .file (by decide) file filtered empty
  obtain ⟨d', load'⟩ := load_of_gives record gives'
  have ret := load (max d d') (le_max_left _ _)
  rw [loadProperties_eq, load' (max d d') (le_max_right _ _), addAll_record] at ret
  cases ret

end CodeBackup.Property
