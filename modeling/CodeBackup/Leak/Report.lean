import CodeBackup.Leak.Tracker
import CodeBackup.Run.Since

/-!
# What the store says

A file that begins with `[+]` says that its pointer is a block that `my_malloc`
has returned and `my_free` was not asked to free since. This is exact after any
calls (`report_exact`). A file that begins with `[-]` reports a double free, but
`my_free` removes it as it removes the other ones, and calls `free`. So `free`
is called only on blocks that are allocated exactly if `my_free` never finds such
a report (`frees_allocated_iff`).
-/

namespace CodeBackup.Leak

open C C.Outcome Run

variable {α : Type}

/-- A block that `my_malloc` has returned, and that `free` was not called on since. -/
def Allocated (log : List (Action α)) (p : Option α) : Prop :=
  ∃ a, p = some a ∧ Since (· = .returned a) (· = .freed p) log

/-- `free` was called only on blocks that were allocated. -/
def FreesAllocated (log : List (Action α)) : Prop :=
  ∀ before p after, log = before ++ .freed p :: after → Allocated before p

/-- A block that a call of `my_malloc` has returned, and that no later call of `my_free` was given. -/
def Outstanding (calls : List (Call α)) (p : Option α) : Prop :=
  ∃ a, p = some a ∧
    Since (fun c => ∃ size site, c = .malloc size site (some a)) (fun c => ∃ site, c = .free p site) calls

/-- `my_free` does not find a report of a double free. -/
def Careful (percentP : Option α → List UInt8) : Call α → Tracker α → Prop
  | .free ptr _, t => ¬ Marked "[-]" (t.files (path percentP ptr))
  | .malloc .., _ => True

/-! ## Histories -/

variable {log : List (Action α)} {calls : List (Call α)} {p p' : Option α} {a : α}

theorem allocated_returned : Allocated (log ++ [.returned a]) p ↔ p = some a ∨ Allocated log p := by
  simp only [Allocated, since_concat, Action.returned.injEq, reduceCtorEq, not_false_eq_true, true_and]
  constructor
  · rintro ⟨b, rfl, rfl | since⟩
    · exact .inl rfl
    · exact .inr ⟨b, rfl, since⟩
  · rintro (rfl | ⟨b, rfl, since⟩)
    · exact ⟨a, rfl, .inl rfl⟩
    · exact ⟨b, rfl, .inr since⟩

theorem allocated_freed : Allocated (log ++ [.freed p']) p ↔ p ≠ p' ∧ Allocated log p := by
  simp only [Allocated, since_concat, Action.freed.injEq, reduceCtorEq, false_or]
  constructor
  · rintro ⟨b, rfl, ne, since⟩
    exact ⟨Ne.symm ne, b, rfl, since⟩
  · rintro ⟨ne, b, rfl, since⟩
    exact ⟨b, rfl, ne.symm, since⟩

theorem freesAllocated_concat {c : Action α} :
    FreesAllocated (log ++ [c]) ↔ FreesAllocated log ∧ ∀ p, c = .freed p → Allocated log p := by
  constructor
  · intro h
    constructor
    · rintro before p after rfl
      exact h before p (after ++ [c]) (by simp)
    · rintro p rfl
      exact h log p [] rfl
  · rintro ⟨h, last⟩ before p after eq
    rcases after.eq_nil_or_concat with rfl | ⟨after, b, rfl⟩
    · obtain ⟨rfl, here⟩ := List.append_inj' eq rfl
      exact last p (List.singleton_inj.1 here)
    · rw [List.concat_eq_append, ← List.cons_append, ← List.append_assoc] at eq
      exact h before p after (List.append_inj' eq rfl).1

theorem outstanding_malloc {size : Nat} {site : Site} :
    Outstanding (calls ++ [.malloc size site p']) p ↔ (∃ a, p = some a ∧ p' = some a) ∨ Outstanding calls p := by
  simp only [Outstanding, since_concat, Call.malloc.injEq, reduceCtorEq, exists_false, not_false_eq_true, true_and]
  constructor
  · rintro ⟨b, rfl, ⟨_, _, -, -, rfl⟩ | since⟩
    · exact .inl ⟨b, rfl, rfl⟩
    · exact .inr ⟨b, rfl, since⟩
  · rintro (⟨b, rfl, rfl⟩ | ⟨b, rfl, since⟩)
    · exact ⟨b, rfl, .inl ⟨_, _, rfl, rfl, rfl⟩⟩
    · exact ⟨b, rfl, .inr since⟩

theorem outstanding_free {site : Site} :
    Outstanding (calls ++ [.free p' site]) p ↔ p ≠ p' ∧ Outstanding calls p := by
  simp only [Outstanding, since_concat, Call.free.injEq, reduceCtorEq, exists_false, false_or]
  constructor
  · rintro ⟨b, rfl, ne, since⟩
    exact ⟨fun same => ne ⟨site, same.symm, rfl⟩, b, rfl, since⟩
  · rintro ⟨ne, b, rfl, since⟩
    exact ⟨b, rfl, fun ⟨_, same, _⟩ => ne same.symm, since⟩

/-! ## Records -/

/-- A mark at the beginning of a text is at the beginning of the buffer. -/
theorem mark_snprintf {mark text : List UInt8} (short : mark.length ≤ 127) (h : mark <+: text) :
    mark <+: snprintf text := by
  apply List.IsPrefix.trans ?_ (List.prefix_append _ _)
  exact List.prefix_take_iff.2 ⟨h, short⟩

section

variable {percentP : Option α → List UInt8} {size : Nat} {site : Site}

theorem allocRecord_mark : ascii "[+]" <+: allocRecord percentP size site p := by
  apply mark_snprintf (by decide)
  simp only [List.append_assoc]
  exact List.IsPrefix.trans ⟨ascii " (", rfl⟩ (List.prefix_append _ _)

theorem freeRecord_mark : ascii "[-]" <+: freeRecord percentP p site := by
  apply mark_snprintf (by decide)
  simp only [List.append_assoc]
  exact List.IsPrefix.trans ⟨ascii " (", rfl⟩ (List.prefix_append _ _)

theorem not_marked_none {mark : String} : ¬ Marked mark none := by
  rintro ⟨_, ⟨⟩, -⟩

/-- No text has both marks. -/
theorem marks_differ {text : List UInt8} (plus : ascii "[+]" <+: text) : ¬ ascii "[-]" <+: text := by
  intro minus
  have := List.prefix_of_prefix_length_le plus minus (by decide)
  exact absurd this (by decide)

/-! ## The files of a call -/

variable {t : Tracker α} (inj : Function.Injective (path percentP))
include inj

/-- `my_malloc` marks the file of the block. -/
theorem marked_malloc : Marked "[+]" ((myMalloc percentP size site p' t).2.files (path percentP p)) ↔
    (∃ a, p = some a ∧ p' = some a) ∨ Marked "[+]" (t.files (path percentP p)) := by
  cases p' with
  | none => simp [myMalloc]
  | some a =>
    by_cases same : p = some a
    · subst same
      simp only [myMalloc, Function.update_self]
      exact ⟨fun _ => .inl ⟨a, rfl, rfl⟩, fun _ => ⟨_, rfl, allocRecord_mark⟩⟩
    · have other : path percentP p ≠ path percentP (some a) := fun eq => same (inj eq)
      simp only [myMalloc, Function.update_of_ne other, ensureStore_files]
      refine ⟨.inr, ?_⟩
      rintro (⟨b, rfl, ⟨⟩⟩ | marked)
      · exact absurd rfl same
      · exact marked

/-- `my_free` leaves no mark on the file of its pointer. -/
theorem marked_free (empty : t.store = false → ∀ f, t.files f = none) :
    Marked "[+]" ((myFree percentP p' site t).files (path percentP p)) ↔
      p ≠ p' ∧ Marked "[+]" (t.files (path percentP p)) := by
  by_cases same : p = p'
  · subst same
    simp only [ne_eq, not_true_eq_false, false_and, iff_false]
    rintro ⟨text, file, plus⟩
    simp only [myFree] at file
    split at file
    · split at file
      · simp only [Function.update_self] at file
        cases file
        exact marks_differ plus freeRecord_mark
      · simp only [Function.update_self] at file
        cases file
    · next gone =>
      rw [empty (by simpa using gone)] at file
      cases file
  · have other : path percentP p ≠ path percentP p' := fun eq => same (inj eq)
    have files : (myFree percentP p' site t).files (path percentP p) = t.files (path percentP p) := by
      simp only [myFree]
      split
      · split
        · exact Function.update_of_ne other _ _
        · exact Function.update_of_ne other _ _
      · rfl
    simp [files, same]

omit inj in
/-- Without a directory there are no files. -/
theorem step_empty {c : Call α} {t' : Tracker α} (empty : t.store = false → ∀ f, t.files f = none)
    (h : step percentP c t = .ok t') : t'.store = false → ∀ f, t'.files f = none := by
  cases c with
  | malloc size site ptr =>
    cases h
    intro gone
    cases ptr with
    | none => simp [myMalloc] at gone
    | some a => simp [myMalloc] at gone
  | free ptr site =>
    cases h
    intro gone
    simp only [myFree] at gone ⊢
    split
    · next there =>
      rw [if_pos there] at gone
      split at gone
      · exact absurd gone (by simp [there])
      · exact absurd gone (by simp [there])
    · next there => exact empty (by simpa using there)

/-! ## Runs -/

omit inj in
/-- Without a file, `free` is not called. -/
theorem myFree_missing (file : t.files (path percentP p) = none) : (myFree percentP p site t).log = t.log := by
  simp only [myFree, file]
  split
  · rfl
  · rfl

omit inj in
/-- With a file, whatever it says, `free` is called. -/
theorem myFree_found (there : t.store = true) {text : List UInt8} (file : t.files (path percentP p) = some text) :
    (myFree percentP p site t).log = t.log ++ [.freed p] := by
  simp only [myFree, file, there, if_true]

omit inj in
theorem step_returns (percentP : Option α → List UInt8) (c : Call α) (t : Tracker α) :
    ∃ t', step percentP c t = .ok t' := by
  cases c with
  | malloc => exact ⟨_, rfl⟩
  | free => exact ⟨_, rfl⟩

/-- The marks after the calls of `past`. -/
structure Reports (percentP : Option α → List UInt8) (past : List (Call α)) (t : Tracker α) : Prop where
  empty : t.store = false → ∀ f, t.files f = none
  marked : ∀ p, Marked "[+]" (t.files (path percentP p)) ↔ Outstanding past p

omit inj in
theorem start_reports (store : Bool) : Reports percentP [] (start store) where
  empty _ _ := rfl
  marked p := by
    apply iff_of_false not_marked_none
    rintro ⟨a, -, since⟩
    exact not_since_nil since

theorem Reports.step {past : List (Call α)} (h : Reports percentP past t) {c : Call α}
    {t' : Tracker α} (ret : step percentP c t = .ok t') : Reports percentP (past ++ [c]) t' := by
  refine ⟨step_empty h.empty ret, fun p => ?_⟩
  cases c with
  | malloc size site ptr =>
    cases ret
    rw [marked_malloc inj, outstanding_malloc, h.marked]
  | free ptr site =>
    cases ret
    rw [marked_free inj h.empty, outstanding_free, h.marked]

/-- **The report is exact**: after any calls, the files marked `[+]` are those of the blocks that
`my_malloc` has returned and `my_free` was not given since. -/
theorem report_exact (store : Bool) (calls : List (Call α)) :
    ∃ t, run (step percentP) calls (start store) = .ok t ∧
      ∀ p, Marked "[+]" (t.files (path percentP p)) ↔ Outstanding calls p := by
  have runs : ∀ (calls past : List (Call α)) (t : Tracker α), Reports percentP past t →
      ∃ t', run (step percentP) calls t = .ok t' ∧ Reports percentP (past ++ calls) t' := by
    intro calls
    induction calls with
    | nil => exact fun past t h => ⟨t, rfl, by rwa [List.append_nil]⟩
    | cons c calls ih =>
      intro past t h
      obtain ⟨t₁, ret⟩ := step_returns percentP c t
      obtain ⟨t', rest, h'⟩ := ih (past ++ [c]) t₁ (h.step inj ret)
      exact ⟨t', by rw [run, ret, ok_bind, rest], by rwa [List.append_assoc] at h'⟩
  obtain ⟨t, ret, h⟩ := runs calls [] (start store) (start_reports store)
  exact ⟨t, ret, h.marked⟩

omit inj in
/-- A block that is freed twice, and allocated again. -/
theorem report_exact_reuse :
    let calls := [Call.malloc 10 mainSite (some 0), .malloc 20 mainSite (some 1), .free (some 0) mainSite,
      .free (some 0) mainSite, .malloc 30 mainSite (some 0), .free none mainSite]
    ∃ t, run (step percentPTwo) calls (start true) = .ok t ∧
      ∀ p, Marked "[+]" (t.files (path percentPTwo p)) ↔ Outstanding calls p :=
  report_exact percentPTwo_inj true _

/-- What the marks say about the use of `malloc` and `free`, whatever has happened. -/
structure Tracks (percentP : Option α → List UInt8) (t : Tracker α) : Prop where
  empty : t.store = false → ∀ f, t.files f = none
  kinds : ∀ f text, t.files f = some text → ascii "[+]" <+: text ∨ ascii "[-]" <+: text
  marked : ∀ p, Marked "[+]" (t.files (path percentP p)) ↔ Allocated t.log p

omit inj in
theorem start_tracks (store : Bool) : Tracks percentP (start store) where
  empty _ _ := rfl
  kinds f text h := by cases h
  marked p := by
    apply iff_of_false not_marked_none
    rintro ⟨a, -, since⟩
    exact not_since_nil since

omit inj in
/-- A file that a call writes begins with one of the marks. -/
theorem step_kinds {c : Call α} {t' : Tracker α}
    (kinds : ∀ f text, t.files f = some text → ascii "[+]" <+: text ∨ ascii "[-]" <+: text)
    (ret : step percentP c t = .ok t') :
    ∀ f text, t'.files f = some text → ascii "[+]" <+: text ∨ ascii "[-]" <+: text := by
  have updated : ∀ (name : List UInt8) (file : Option (List UInt8)),
      (∀ text, file = some text → ascii "[+]" <+: text ∨ ascii "[-]" <+: text) →
      ∀ f text, Function.update t.files name file f = some text → ascii "[+]" <+: text ∨ ascii "[-]" <+: text := by
    intro name file hfile f text h
    by_cases same : f = name
    · rw [same, Function.update_self] at h
      exact hfile text h
    · rw [Function.update_of_ne same] at h
      exact kinds f text h
  cases c with
  | malloc size site ptr =>
    cases ret
    cases ptr with
    | none => simpa [myMalloc] using kinds
    | some a =>
      simp only [myMalloc, ensureStore_files]
      apply updated _ _
      rintro _ ⟨⟩
      exact .inl allocRecord_mark
  | free ptr site =>
    cases ret
    simp only [myFree]
    split
    · split
      · apply updated _ _
        rintro _ ⟨⟩
        exact .inr freeRecord_mark
      · apply updated _ _
        rintro _ ⟨⟩
    · exact kinds

/-- A block that `my_malloc` returns. -/
theorem Tracks.malloc (h : Tracks percentP t) (size : Nat) (site : Site) (ptr : Option α) (p : Option α) :
    Marked "[+]" ((myMalloc percentP size site ptr t).2.files (path percentP p)) ↔
      Allocated (myMalloc percentP size site ptr t).2.log p := by
  rw [marked_malloc inj, h.marked]
  cases ptr with
  | none => simp [myMalloc]
  | some a =>
    simp only [myMalloc, ensureStore_log, allocated_returned, Option.some.injEq]
    constructor
    · rintro (⟨b, rfl, rfl⟩ | live)
      · exact .inl rfl
      · exact .inr live
    · rintro (rfl | live)
      · exact .inl ⟨a, rfl, rfl⟩
      · exact .inr live

/-- A pointer without a file is reported. -/
theorem Tracks.free_missing (h : Tracks percentP t) {ptr : Option α} (site : Site)
    (file : t.files (path percentP ptr) = none) (p : Option α) :
    Marked "[+]" ((myFree percentP ptr site t).files (path percentP p)) ↔
      Allocated (myFree percentP ptr site t).log p := by
  have dead : ¬ Allocated t.log ptr := by
    intro live
    obtain ⟨_, found, -⟩ := (h.marked ptr).2 live
    cases file.symm.trans found
  rw [marked_free inj h.empty, h.marked, myFree_missing file]
  constructor
  · exact And.right
  · intro live
    refine ⟨?_, live⟩
    rintro rfl
    exact dead live

omit inj in
theorem Tracks.there (h : Tracks percentP t) {f text : List UInt8} (file : t.files f = some text) : t.store = true := by
  by_contra gone
  cases file.symm.trans (h.empty (Bool.eq_false_iff.2 gone) f)

omit inj in
/-- A file that is not a report is the one of an allocated block. -/
theorem Tracks.allocated_iff (h : Tracks percentP t) {ptr : Option α} {text : List UInt8}
    (file : t.files (path percentP ptr) = some text) :
    Allocated t.log ptr ↔ ¬ Marked "[-]" (t.files (path percentP ptr)) := by
  rw [← h.marked, file]
  constructor
  · rintro ⟨_, ⟨⟩, plus⟩ ⟨_, ⟨⟩, minus⟩
    exact marks_differ plus minus
  · intro careful
    have plus := (h.kinds _ _ file).resolve_right fun minus => careful ⟨text, rfl, minus⟩
    exact ⟨text, rfl, plus⟩

/-- **One call**: `free` is called on a block that is not allocated exactly if `my_free` finds a report. -/
theorem Tracks.step (h : Tracks percentP t) {c : Call α} {t' : Tracker α}
    (ret : step percentP c t = .ok t') :
    Tracks percentP t' ∧ (FreesAllocated t'.log ↔ FreesAllocated t.log ∧ Careful percentP c t) := by
  have empty := step_empty h.empty ret
  have kinds := step_kinds h.kinds ret
  cases c with
  | malloc size site ptr =>
    cases ret
    refine ⟨⟨empty, kinds, h.malloc inj size site ptr⟩, ?_⟩
    cases ptr with
    | none => simp [myMalloc, Careful]
    | some a => simp [myMalloc, freesAllocated_concat, Careful]
  | free ptr site =>
    cases ret
    cases file : t.files (path percentP ptr) with
    | none =>
      refine ⟨⟨empty, kinds, h.free_missing inj site file⟩, ?_⟩
      rw [myFree_missing file]
      exact ⟨fun frees => ⟨frees, by simp [Careful, Marked, file]⟩, And.left⟩
    | some text =>
      refine ⟨⟨empty, kinds, fun p => ?_⟩, ?_⟩
      · rw [marked_free inj h.empty, h.marked, myFree_found (h.there file) file, allocated_freed]
      · rw [myFree_found (h.there file) file, freesAllocated_concat]
        apply and_congr_right
        intro _
        simp only [Action.freed.injEq, forall_eq']
        exact h.allocated_iff file

/-- **`free` is called only on allocated blocks exactly if** `my_free` never finds a report of a double free. -/
theorem frees_allocated_iff (store : Bool) (calls : List (Call α)) :
    ∃ t, run (step percentP) calls (start store) = .ok t ∧
      (FreesAllocated t.log ↔ Meets (step percentP) (Careful percentP) calls (start store)) := by
  have runs : ∀ (calls : List (Call α)) (t : Tracker α), Tracks percentP t →
      ∃ t', run (step percentP) calls t = .ok t' ∧
        (FreesAllocated t'.log ↔ FreesAllocated t.log ∧ Meets (step percentP) (Careful percentP) calls t) := by
    intro calls
    induction calls with
    | nil => exact fun t h => ⟨t, rfl, by simp [Meets]⟩
    | cons c calls ih =>
      intro t h
      obtain ⟨t₁, ret⟩ := step_returns percentP c t
      obtain ⟨h₁, frees⟩ := h.step inj ret
      obtain ⟨t', rest, frees'⟩ := ih t₁ h₁
      refine ⟨t', by rw [run, ret, ok_bind, rest], ?_⟩
      rw [frees', frees, and_assoc]
      refine and_congr_right fun _ => and_congr_right fun _ => ?_
      exact ⟨fun meets t₂ ret₂ => unique ret ret₂ ▸ meets, fun meets => meets t₁ ret⟩
  obtain ⟨t, ret, frees⟩ := runs calls (start store) (start_tracks store)
  refine ⟨t, ret, frees.trans (and_iff_right ?_)⟩
  intro before p after eq
  exact absurd eq (by simp [start])

omit inj in
/-- Two blocks, and a double free that is reported. -/
theorem frees_allocated_main :
    let calls := [Call.malloc 10 mainSite (some 0), .malloc 20 mainSite (some 1), .free (some 0) mainSite,
      .free (some 1) mainSite, .free (some 0) mainSite]
    ∃ t, run (step percentPTwo) calls (start true) = .ok t ∧
      (FreesAllocated t.log ↔ Meets (step percentPTwo) (Careful percentPTwo) calls (start true)) :=
  frees_allocated_iff percentPTwo_inj true _

omit inj in
/-- The third call of `my_free` with a pointer calls `free` for the second time. -/
theorem third_free_frees : ∃ t, run (step percentPTwo) [.malloc 10 mainSite (some 0), .free (some 0) mainSite,
    .free (some 0) mainSite, .free (some 0) mainSite] (start true) = .ok t ∧ ¬ FreesAllocated t.log := by
  refine ⟨_, rfl, fun frees => ?_⟩
  have again := frees [.returned 0, .freed (some 0)] (some 0) [] (by decide)
  exact (allocated_freed.1 (show Allocated ([.returned (0 : Fin 2)] ++ [.freed (some 0)]) (some 0) from again)).1 rfl

end

end CodeBackup.Leak
