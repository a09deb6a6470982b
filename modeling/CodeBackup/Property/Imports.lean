import CodeBackup.Property.Format
import CodeBackup.Relations.Descent

/-!
# Imports

A load reads the imported files in the place of the lines that name them.
`Gives` is this reading as a relation: the pairs that a list of lines gives,
for any function that says what one line does. A load of a file does what its
pairs say, one `add` for each (`load_of_gives`), as soon as the model lets it
open enough files at a time.

Only a load without a filter follows imports, and the import of a line with a
filter is a load with one. So the loads end exactly if no chain of imports
without a filter comes back to a file (`load_returns_iff`).
-/

namespace CodeBackup.Property

open C C.Outcome CStr Relations Relation

/-- The pairs that the lines give. `act` is what a line does, `text` cuts a file into lines. -/
inductive Gives (act : Option CStr → List UInt8 → LineAction) (text : CStr → Option (List (List UInt8))) :
    Option CStr → List (List UInt8) → List (CStr × CStr) → Prop where
  | nil (filter : Option CStr) : Gives act text filter [] []
  | skip {filter : Option CStr} {line : List UInt8} {ls : List (List UInt8)} {ps : List (CStr × CStr)} :
      act filter line = .skip → Gives act text filter ls ps → Gives act text filter (line :: ls) ps
  | binding {filter : Option CStr} {line : List UInt8} {key value : CStr} {ls : List (List UInt8)}
      {ps : List (CStr × CStr)} : act filter line = .binding key value → Gives act text filter ls ps →
      Gives act text filter (line :: ls) ((key, value) :: ps)
  | missing {filter filter' : Option CStr} {line : List UInt8} {fn : CStr} {ls : List (List UInt8)}
      {ps : List (CStr × CStr)} : act filter line = .importing fn filter' → text fn = none →
      Gives act text filter ls ps → Gives act text filter (line :: ls) ps
  | file {filter filter' : Option CStr} {line : List UInt8} {fn : CStr} {ls ls' : List (List UInt8)}
      {ps qs : List (CStr × CStr)} : act filter line = .importing fn filter' → text fn = some ls' →
      Gives act text filter' ls' qs → Gives act text filter ls ps → Gives act text filter (line :: ls) (qs ++ ps)

/-- The file has a line that imports the other one without a filter. -/
def Imports (files : Files) (fn fn' : CStr) : Prop :=
  ∃ content, files fn = some content ∧ ∃ line ∈ lines content, lineAction none line = .importing fn' none

/-- The lines of the files. -/
def linesOf (files : Files) (fn : CStr) : Option (List (List UInt8)) := (files fn).map lines

/-- Lines give one list of pairs. -/
theorem Gives.unique {act : Option CStr → List UInt8 → LineAction} {text : CStr → Option (List (List UInt8))}
    {filter : Option CStr} {ls : List (List UInt8)} {ps ps' : List (CStr × CStr)} (h : Gives act text filter ls ps)
    (h' : Gives act text filter ls ps') : ps' = ps := by
  induction h generalizing ps' with
  | nil => cases h'; rfl
  | skip e _ ih => cases h' <;> grind
  | binding e _ ih => cases h' <;> grind
  | missing e none_ _ ih => cases h' <;> grind
  | file e some_ _ _ ih₁ ih₂ => cases h' <;> grind

/-! ## A load does what its pairs say -/

section

variable {σ : Type} {add : CStr → CStr → σ → Outcome σ} {files : Files}

/-- One `add` for each pair. -/
def addAll (add : CStr → CStr → σ → Outcome σ) (ps : List (CStr × CStr)) (s : σ) : Outcome σ :=
  ps.foldlM (fun s p => add p.1 p.2 s) s

@[simp] theorem addAll_nil (s : σ) : addAll add [] s = .ok s := rfl

@[simp] theorem addAll_cons (p : CStr × CStr) (ps : List (CStr × CStr)) (s : σ) :
    addAll add (p :: ps) s = add p.1 p.2 s >>= addAll add ps := List.foldlM_cons

theorem addAll_append (qs ps : List (CStr × CStr)) (s : σ) :
    addAll add (qs ++ ps) s = addAll add qs s >>= addAll add ps := List.foldlM_append

/-- A file that is there is read line by line. -/
theorem load_lines (depth : Nat) {fn : CStr} {content : List UInt8} (file : files fn = some content)
    (filter : Option CStr) (s : σ) : loadPropertiesFromFile add files (depth + 1) fn filter s =
      performLines add (loadPropertiesFromFile add files depth) filter (lines content) s := by
  unfold loadPropertiesFromFile
  simp only [readFile, file, Option.map_some]
  exact loadProperties_eq filter content s

theorem load_missing (depth : Nat) {fn : CStr} (file : files fn = none) (filter : Option CStr) (s : σ) :
    loadPropertiesFromFile add files (depth + 1) fn filter s = .ok s := by
  unfold loadPropertiesFromFile
  simp [readFile, file]

/-- **A load** adds the pairs that the lines give, in their order. -/
theorem load_of_gives (add : CStr → CStr → σ → Outcome σ) {filter : Option CStr} {ls : List (List UInt8)}
    {ps : List (CStr × CStr)} (h : Gives lineAction (linesOf files) filter ls ps) : ∃ d, ∀ depth ≥ d, ∀ s,
      performLines add (loadPropertiesFromFile add files depth) filter ls s = addAll add ps s := by
  induction h with
  | nil => exact ⟨0, fun _ _ _ => rfl⟩
  | skip e _ ih =>
    obtain ⟨d, ih⟩ := ih
    refine ⟨d, fun depth hd s => ?_⟩
    simp only [performLines, e, perform, ok_bind]
    exact ih depth hd s
  | binding e _ ih =>
    obtain ⟨d, ih⟩ := ih
    refine ⟨d, fun depth hd s => ?_⟩
    simp only [performLines, e, perform, addAll_cons]
    congr 1
    funext s'
    exact ih depth hd s'
  | missing e none_ _ ih =>
    obtain ⟨d, ih⟩ := ih
    refine ⟨d + 1, fun depth hd s => ?_⟩
    obtain ⟨depth, rfl⟩ : ∃ n, depth = n + 1 := ⟨depth - 1, by omega⟩
    simp only [performLines, e, perform, load_missing depth (Option.map_eq_none_iff.1 none_), ok_bind]
    exact ih _ (by omega) s
  | file e some_ _ _ ih₁ ih₂ =>
    obtain ⟨d₁, ih₁⟩ := ih₁
    obtain ⟨d₂, ih₂⟩ := ih₂
    refine ⟨d₁ + d₂ + 1, fun depth hd s => ?_⟩
    obtain ⟨depth, rfl⟩ : ∃ n, depth = n + 1 := ⟨depth - 1, by omega⟩
    obtain ⟨content, file, rfl⟩ := Option.map_eq_some_iff.1 some_
    simp only [performLines, e, perform, load_lines depth file, ih₁ depth (by omega), addAll_append]
    congr 1
    funext s'
    exact ih₂ _ (by omega) s'

end

/-! ## Which loads end -/

theorem trim_within (line : List UInt8) : trim line <:+: line :=
  (trim_prefix_trimStart line).isInfix.trans (List.dropWhile_suffix _).isInfix

theorem bindingAction_ne_importing (filter : Option CStr) (s : List UInt8) (fn : CStr) (filter' : Option CStr) :
    bindingAction filter s ≠ .importing fn filter' := by
  unfold bindingAction
  split
  · exact fun h => by cases h
  · split
    · exact fun h => by cases h
    · exact fun h => by cases h

/-- A line that imports begins with the word, and there is no filter. -/
theorem lineAction_importing {filter filter' : Option CStr} {line : List UInt8} {fn : CStr}
    (h : lineAction filter line = .importing fn filter') :
    importPrefix.bytes <+: trim line ∧ filterLen filter = 0 ∧ importAction ((trim line).drop 7) = .importing fn filter' := by
  unfold lineAction at h
  split at h
  · cases h
  · split at h
    · next word =>
      rw [Bool.and_eq_true, decide_eq_true_iff, List.isPrefixOf_iff_prefix] at word
      exact ⟨word.1, word.2, h⟩
    · exact absurd h (bindingAction_ne_importing _ _ _ _)

theorem trimEnd_trim (line : List UInt8) : trimEnd (trim line) = trim line := List.rdropWhile_idempotent _ _

/-- The text behind the first space of an argument, trimmed, is not empty: no line ends with white space. -/
theorem importing_filter {line : List UInt8} {fn f : CStr} (nul : 0 ∉ line)
    (h : lineAction none line = .importing fn (some f)) : f.strlen ≠ 0 := by
  have import_ := (lineAction_importing h).2.2
  unfold importAction at import_
  obtain ⟨pre, hpre, -, -⟩ := trimStart_cases ((trim line).drop 7)
  rcases cut_cases chSpace (trimStart ((trim line).drop 7)) with ⟨-, hc⟩ | ⟨x, y, e, -, hc⟩
  · rw [hc] at import_
    cases import_
  · rw [hc] at import_
    obtain ⟨-, rfl⟩ : CStr.ofBytes x = fn ∧ CStr.ofBytes (trimStart y) = f := by simpa using import_
    have whole : trim line = ((trim line).take 7 ++ (pre ++ x)) ++ chSpace :: y := by
      conv_lhs => rw [← List.take_append_drop 7 (trim line), hpre, e]
      simp
    have nuly : 0 ∉ y := fun hy => nul ((trim_within line).subset (by rw [whole]; simp [hy]))
    obtain ⟨sp, hy, blank, -⟩ := trimStart_cases y
    have nuly' : 0 ∉ trimStart y := fun h0 => nuly (by rw [hy]; simp [h0])
    intro empty
    rw [ofBytes_strlen nuly', List.length_eq_zero_iff] at empty
    rw [empty, List.append_nil] at hy
    subst hy
    have blank' : Blank (chSpace :: y) := by
      intro b hb
      rcases List.mem_cons.1 hb with rfl | hb
      · decide
      · exact blank b hb
    -- the trimmed line would end with white space
    have shorter := trimEnd_blank blank' ((trim line).take 7 ++ (pre ++ x))
    rw [← whole, trimEnd_trim] at shorter
    have le : (trim line).length ≤ ((trim line).take 7 ++ (pre ++ x)).length := by
      conv_lhs => rw [shorter]
      exact (List.rdropWhile_prefix _ _).length_le
    have len := congrArg List.length whole
    rw [List.length_append, List.length_cons] at len
    omega

/-- With a filter no line is an import. -/
theorem lineAction_filter {f : CStr} (hf : f.strlen ≠ 0) (line : List UInt8) (fn : CStr) (filter : Option CStr) :
    lineAction (some f) line ≠ .importing fn filter := fun h => hf (lineAction_importing h).2.1

/-- With a filter the lines give pairs without a look at other files. -/
theorem gives_filter (files : Files) {f : CStr} (hf : f.strlen ≠ 0) (ls : List (List UInt8)) :
    ∃ ps, Gives lineAction (linesOf files) (some f) ls ps := by
  induction ls with
  | nil => exact ⟨[], .nil _⟩
  | cons line ls ih =>
    obtain ⟨ps, ih⟩ := ih
    cases e : lineAction (some f) line with
    | skip => exact ⟨ps, .skip e ih⟩
    | binding key value => exact ⟨_, .binding e ih⟩
    | importing fn filter => exact absurd e (lineAction_filter hf line fn filter)

/-- Lines give pairs if the imports in them do. -/
theorem gives_lines {files : Files} {ls : List (List UInt8)} (nul : ∀ line ∈ ls, 0 ∉ line)
    (imports : ∀ line ∈ ls, ∀ fn, lineAction none line = .importing fn none → ∀ ls', linesOf files fn = some ls' →
      ∃ ps, Gives lineAction (linesOf files) none ls' ps) :
    ∃ ps, Gives lineAction (linesOf files) none ls ps := by
  induction ls with
  | nil => exact ⟨[], .nil _⟩
  | cons line ls ih =>
    obtain ⟨ps, ih⟩ := ih (fun l hl => nul l (List.mem_cons_of_mem _ hl))
      fun l hl => imports l (List.mem_cons_of_mem _ hl)
    cases e : lineAction none line with
    | skip => exact ⟨ps, .skip e ih⟩
    | binding key value => exact ⟨_, .binding e ih⟩
    | importing fn filter =>
      cases file : linesOf files fn with
      | none => exact ⟨ps, .missing e file ih⟩
      | some ls' =>
        cases filter with
        | none =>
          obtain ⟨qs, gives⟩ := imports line List.mem_cons_self fn e ls' file
          exact ⟨_, .file e file gives ih⟩
        | some f =>
          obtain ⟨qs, gives⟩ := gives_filter files (importing_filter (nul line List.mem_cons_self) e) ls'
          exact ⟨_, .file e file gives ih⟩

/-- A file whose chains of imports end gives pairs. -/
theorem gives_of_ends {files : Files} {fn : CStr} (h : Ends (Imports files) fn) {ls : List (List UInt8)}
    (file : linesOf files fn = some ls) : ∃ ps, Gives lineAction (linesOf files) none ls ps := by
  unfold Ends at h
  induction h generalizing ls with
  | intro fn _ ih =>
    obtain ⟨content, hc, rfl⟩ := Option.map_eq_some_iff.1 file
    refine gives_lines (fun line hl => lines_nulFree hl) fun line hl fn' e ls' file' => ?_
    exact ih fn' ⟨content, hc, line, hl, e⟩ file'

/-- Each line of a load that returns was performed, in some state. -/
theorem perform_of_performLines {σ : Type} {add : CStr → CStr → σ → Outcome σ}
    {importFile : CStr → Option CStr → σ → Outcome σ} {filter : Option CStr} {line : List UInt8} :
    ∀ {ls : List (List UInt8)} {s s' : σ}, line ∈ ls → performLines add importFile filter ls s = .ok s' →
      ∃ s₁ s₂, perform add importFile (lineAction filter line) s₁ = .ok s₂
  | [], _, _, hl, _ => by simp at hl
  | l :: ls, s, s', hl, ret => by
    obtain ⟨s₁, ret₁, rest⟩ := bind_eq_ok.1 ret
    rcases List.mem_cons.1 hl with rfl | hl
    · exact ⟨s, s₁, ret₁⟩
    · exact perform_of_performLines hl rest

/-- If a load returns, the chains of imports from its file end. -/
theorem ends_of_load {σ : Type} {add : CStr → CStr → σ → Outcome σ} {files : Files} :
    ∀ {depth : Nat} {fn : CStr} {s s' : σ}, loadPropertiesFromFile add files depth fn none s = .ok s' →
      Ends (Imports files) fn
  | 0, _, _, _, ret => by cases ret
  | depth + 1, fn, s, s', ret => by
    refine .intro fun fn' ⟨content, file, line, hl, e⟩ => ?_
    rw [load_lines depth file] at ret
    obtain ⟨s₁, s₂, ret'⟩ := perform_of_performLines hl ret
    rw [e] at ret'
    exact ends_of_load ret'

/-- `__system_property_add` keeps a store good. -/
theorem addAll_good : ∀ (ps : List (CStr × CStr)) {m : Mem}, Good m →
    ∃ m', addAll addProperty ps m = .ok m' ∧ Good m'
  | [], m, good => ⟨m, rfl, good⟩
  | (key, value) :: ps, m, good => by
    obtain ⟨m₁, ret, spec⟩ := addProperty_spec good key value
    obtain ⟨m', rest, good'⟩ := addAll_good ps spec.good
    exact ⟨m', by rw [addAll_cons, ret, ok_bind, rest], good'⟩

/-- **A load ends exactly if its imports do.** In a finite file system, a load of a file without a filter returns,
with some number of files open at a time, exactly if no file that it reaches by imports without a filter imports
itself, directly or through others. -/
theorem load_returns_iff {files : Files} (finite : {fn | files fn ≠ none}.Finite) (fn : CStr) {m : Mem}
    (good : Good m) : (∃ depth m', loadPropertiesFromFile addProperty files depth fn none m = .ok m') ↔
      Acyclic (Imports files) fn := by
  have sources : {fn | ∃ fn', Imports files fn fn'}.Finite :=
    finite.subset fun fn ⟨_, content, file, _⟩ => by simp [file]
  rw [← ends_iff_acyclic sources]
  constructor
  · rintro ⟨depth, m', ret⟩
    exact ends_of_load ret
  · intro ends
    cases file : files fn with
    | none => exact ⟨1, m, load_missing 0 file none m⟩
    | some content =>
      obtain ⟨ps, gives⟩ := gives_of_ends ends (show linesOf files fn = some (lines content) by rw [linesOf, file]; rfl)
      obtain ⟨d, load⟩ := load_of_gives addProperty gives
      obtain ⟨m', ret, -⟩ := addAll_good ps good
      exact ⟨d + 1, m', by rw [load_lines d file, load d le_rfl, ret]⟩

/-- A file system with `build.prop` only. -/
def buildOnly (build : CStr) : Files := Function.update (fun _ => none) propPathSystemBuild (some build.bytes)

theorem buildOnly_finite (build : CStr) : {fn | buildOnly build fn ≠ none}.Finite := by
  apply (Set.finite_singleton propPathSystemBuild).subset
  intro fn h
  by_contra ne
  exact h (Function.update_of_ne ne _ _)

/-- A file that imports itself with a filter. -/
theorem load_returns_iff_filter :
    (∃ depth m', loadPropertiesFromFile addProperty (buildOnly (.lit "import /data/build.prop ro.*\nro.a=1\n")) depth
        propPathSystemBuild none (memoryInit .fresh) = .ok m') ↔
      Acyclic (Imports (buildOnly (.lit "import /data/build.prop ro.*\nro.a=1\n"))) propPathSystemBuild :=
  load_returns_iff (buildOnly_finite _) _ vacant_fresh.good

/-- **A file that imports itself** is loaded for ever. -/
theorem self_import_never_ends : ¬ ∀ (files : Files), {fn | files fn ≠ none}.Finite → ∀ (fn : CStr) (m : Mem),
    Good m → ∃ depth m', loadPropertiesFromFile addProperty files depth fn none m = .ok m' := by
  intro always
  obtain ⟨depth, m', ret⟩ := always (buildOnly (.lit "import /data/build.prop\n")) (buildOnly_finite _)
    propPathSystemBuild (memoryInit .fresh) vacant_fresh.good
  have self : Imports (buildOnly (.lit "import /data/build.prop\n")) propPathSystemBuild propPathSystemBuild :=
    ⟨_, Function.update_self .., (lit "import /data/build.prop").bytes, by decide, by decide⟩
  exact (ends_of_load ret).not_cycle (.single self)

end CodeBackup.Property
