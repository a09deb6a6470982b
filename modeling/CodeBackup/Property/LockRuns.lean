import CodeBackup.Property.LockInv

/-!
# What every interleaving guarantees

Readers and writers exclude each other in every state that is reached
(`exclusion`). The locks are balanced as long as every name is legal
(`balanced`): `set_property` returns without an unlock when it refuses a name
(`illegal_name_keeps_wmutex`). A call can always take a step as long as
`release_all_props` locks `rmutex` only while nobody reads (`progress`);
otherwise it waits for readers that wait for it (`release_deadlocks`).
-/

namespace CodeBackup.Property

open Conc

/-- The body of a critical section that writes. -/
def Pc.writesBody : Pc → Bool
  | .setBody | .relBody => true
  | _ => false

/-- The body of a critical section. -/
def Pc.inBody (p : Pc) : Bool := p = .getBody || p.writesBody

theorem Pc.holdsW_of_writesBody {p : Pc} (h : p.writesBody) : p.holdsW := by
  cases p <;> simp_all [Pc.writesBody, Pc.holdsW]

/-- Any call may be made, at any time. -/
abbrev anyCall : Call → Prop := fun _ => True

/-- Every step may be taken. -/
abbrev anyStep {ι : Type} : ι → Locks ι → Prop := fun _ _ => True

section Exclusion

variable {ι : Type} [Fintype ι] [DecidableEq ι]

/-- **Exclusion.** While a thread is inside the body of a writer, no other thread is inside any
body. While `rmutex` is free, `read_count` is the number of threads in the reading section, and
positive only if `wmutex` is locked for the readers. -/
theorem exclusion {s : Locks ι} (h : Locks.Reaches anyCall anyStep s) :
    (∀ t u, t ≠ u → (s.pc t).writesBody → (s.pc u).inBody = false) ∧
    (s.rmutex = none → s.readCount = count Pc.inside s.pc ∧ (0 < s.readCount → s.wmutex = some .readers)) := by
  have inv := h.lockInv
  refine ⟨fun t u ne ht => ?_, fun free => ⟨?_, fun pos => ?_⟩⟩
  · have holds := Pc.holdsW_of_writesBody ht
    by_contra hu
    simp only [Pc.inBody, Bool.not_eq_false, Bool.or_eq_true, decide_eq_true_eq] at hu
    rcases hu with hu | hu
    · have := inv.not_reads (u := u) holds
      rw [hu] at this
      cases this
    · exact ne (inv.holdsW_unique (Pc.holdsW_of_writesBody hu) holds)
  · have noHolder : ∀ t, (s.pc t).holdsR ≠ true := fun t ht => by
      rw [(inv.rmutex t).1 ht] at free
      cases free
    rw [inv.counter, count, count]
    congr 2
    ext t
    simp only [Finset.mem_filter, Finset.mem_univ, true_and]
    exact ⟨fun ht => (Pc.counted_cases ht).resolve_right (noHolder t), Pc.counted_of_inside⟩
  · obtain ⟨t, ht⟩ := inv.reads_of_count pos.ne'
    exact inv.readers.2 ⟨t, Pc.reads_of_counted ht⟩

end Exclusion

/-- A reader is inside, and a writer waits. -/
theorem exclusion_reader_inside : ∃ s : Locks (Fin 2), s.rmutex = none ∧ s.readCount = 1 ∧
    (∀ t u, t ≠ u → (s.pc t).writesBody → (s.pc u).inBody = false) ∧
    (s.rmutex = none → s.readCount = count Pc.inside s.pc ∧ (0 < s.readCount → s.wmutex = some .readers)) :=
  ⟨_, rfl, rfl, exclusion (Locks.Reaches.exec .loaded (fun _ _ _ => trivial)
    (l := [.call 0 .get, .call 1 (.set true), .step 0, .step 0, .step 0, .step 0, .step 0]) rfl)⟩

/-! ## Balance -/

section Legal

variable {ι : Type} [DecidableEq ι]

/-- Every name is legal, and a thread for which `wmutex` is locked is on its way to unlock it. -/
structure LegalInv (s : Locks ι) : Prop where
  legal : ∀ t, (s.pc t).illegal = false
  held : ∀ t, s.wmutex = some (.writer t) → (s.pc t).holdsW = true

theorem LegalInv.step {s s' : Locks ι} {t : ι} (h : LegalInv s) (run : s.step t = some s') : LegalInv s' := by
  obtain ⟨p, pc, -, illegal, wmutex, -⟩ := Locks.step_cases run
  have legal : p.illegal = false := by
    by_contra hp
    have := illegal (by simpa using hp)
    rw [h.legal] at this
    cases this
  constructor
  · intro u
    rw [pc]
    by_cases e : u = t
    · subst e; simpa using legal
    · simpa [e] using h.legal u
  · intro u hu
    rw [pc]
    rcases wmutex with ⟨same, class_⟩ | free | readers | ⟨mine, holds⟩
    · have held := h.held u (same ▸ hu)
      by_cases e : u = t
      · subst e
        simpa [class_.resolve_right (by simp [h.legal u])] using held
      · simpa [e] using held
    · rw [free] at hu; cases hu
    · rw [readers] at hu; cases hu
    · obtain rfl : t = u := by simpa [mine] using hu
      simpa using holds

theorem Locks.Reaches.legalInv {calls : Call → Prop} {cond : ι → Locks ι → Prop} {s : Locks ι}
    (legal : ∀ c, calls c → c ≠ .set false) (h : Locks.Reaches calls cond s) : LegalInv s := by
  induction h with
  | loaded => exact ⟨fun _ => rfl, nofun⟩
  | @call s t c _ idle hc ih =>
    have entry : c.entry.illegal = false := by
      cases c with
      | set l => cases l with
        | false => exact absurd rfl (legal _ hc)
        | true => rfl
      | _ => rfl
    constructor
    · intro u
      by_cases e : u = t
      · subst e; simpa [Locks.goto] using entry
      · simpa [Locks.goto, e] using ih.legal u
    · intro u hu
      have held := ih.held u hu
      by_cases e : u = t
      · subst e; rw [idle] at held; cases held
      · simpa [Locks.goto, e] using held
  | step t _ _ run ih => exact ih.step run

/-- Nothing is locked when no call is in progress, and nothing for a thread whose call has returned. -/
def Balanced (s : Locks ι) : Prop :=
  ((∀ t, s.pc t = .idle) → s.rmutex = none ∧ s.wmutex = none ∧ s.readCount = 0) ∧
  ∀ t, s.pc t = .idle → s.rmutex ≠ some t ∧ s.wmutex ≠ some (.writer t)

/-- **Balance.** In any interleaving of `get_property` and `set_property` in which every name is
legal, the locks are balanced in every state. -/
theorem balanced [Fintype ι] {s : Locks ι}
    (h : Locks.Reaches (fun c => c ≠ .release ∧ c ≠ .set false) anyStep s) : Balanced s := by
  have inv := h.lockInv
  have legal := h.legalInv fun _ hc => hc.2
  have returned : ∀ t, s.pc t = .idle → s.rmutex ≠ some t ∧ s.wmutex ≠ some (.writer t) := by
    refine fun t idle => ⟨fun e => ?_, fun e => ?_⟩
    · have := (inv.rmutex t).2 e
      rw [idle] at this
      cases this
    · have := legal.held t e
      rw [idle] at this
      cases this
  refine ⟨fun idle => ⟨?_, ?_, ?_⟩, returned⟩
  · exact Option.eq_none_iff_forall_ne_some.2 fun t => (returned t (idle t)).1
  · cases e : s.wmutex with
    | none => rfl
    | some o =>
      cases o with
      | readers =>
        obtain ⟨t, ht⟩ := inv.readers.1 e
        rw [idle t] at ht
        cases ht
      | writer t => exact absurd e (returned t (idle t)).2
  · by_contra pos
    obtain ⟨t, ht⟩ := inv.reads_of_count pos
    rw [idle t] at ht
    cases ht

end Legal

/-- A writer and then a reader, each to its end. -/
theorem balanced_set_get : ∃ s : Locks (Fin 1), s.pc 0 = .idle ∧ Balanced s := by
  have run : Locks.Reaches (fun c => c ≠ .release ∧ c ≠ .set false) anyStep _ :=
    Locks.Reaches.exec (s := Locks.loaded) .loaded
      (l := [.call (0 : Fin 1) (.set true), .step 0, .step 0, .step 0, .step 0, .call 0 .get, .step 0, .step 0,
        .step 0, .step 0, .step 0, .step 0, .step 0, .step 0, .step 0, .step 0, .step 0]) (by simp) rfl
  exact ⟨_, rfl, balanced run⟩

/-- **A refused name** leaves `wmutex` locked. -/
theorem illegal_name_keeps_wmutex : ¬ ∀ (n : Nat) (s : Locks (Fin n)),
    Locks.Reaches (fun c => c ≠ .release) anyStep s → Balanced s := by
  intro always
  have run : Locks.Reaches (fun c => c ≠ .release) anyStep _ :=
    Locks.Reaches.exec (s := Locks.loaded) .loaded
      (l := [.call (0 : Fin 1) (.set false), .step 0, .step 0]) (by simp) rfl
  have := ((always 1 _ run).1 (by decide)).2.1
  cases this

/-! ## Progress -/

section Progress

variable {ι : Type} [DecidableEq ι]

/-- `release_all_props` locks `rmutex` only while `read_count` is 0. -/
def Quiet (t : ι) (s : Locks ι) : Prop := s.pc t = .relLockR → s.readCount = 0

theorem Locks.Reaches.quiet [Fintype ι] {calls : Call → Prop} {s : Locks ι} (h : Locks.Reaches calls Quiet s) :
    ∀ t, s.pc t = .relLockW → s.readCount = 0 := by
  induction h with
  | loaded => exact fun _ _ => rfl
  | @call s t c _ _ _ ih =>
    intro u hu
    by_cases e : u = t
    · subst e
      cases c <;> simp [Locks.goto, Call.entry] at hu
    · exact ih u (by simpa [Locks.goto, e] using hu)
  | @step s s' t reached quiet run ih =>
    obtain ⟨p, pc, enter, -, -, count⟩ := Locks.step_cases run
    intro u hu
    rw [pc] at hu
    by_cases e : u = t
    · subst e
      have hp : p = .relLockW := by simpa using hu
      have same := count.resolve_right fun h => h.2 hp
      rw [same]
      exact quiet (enter hp)
    · have hu' : s.pc u = .relLockW := by simpa [e] using hu
      rcases count with same | ⟨holds, -⟩
      · rw [same]
        exact ih u hu'
      · exact absurd (reached.lockInv.holdsR_unique holds (by rw [hu']; rfl)) e

/-- The thread waits for `rmutex` next. -/
def Pc.wantsR : Pc → Bool
  | .getLockR | .getRelockR | .relLockR => true
  | _ => false

/-- The thread waits for `wmutex` next. -/
def Pc.wantsW : Pc → Bool
  | .getLockW | .setLockW _ | .relLockW => true
  | _ => false

/-- A thread that has a call in progress and cannot step waits for a mutex that is locked. -/
theorem Locks.blocked {s : Locks ι} {t : ι} (busy : s.pc t ≠ .idle) (stuck : s.step t = none) :
    ((s.pc t).wantsR = true ∧ s.rmutex ≠ none) ∨ ((s.pc t).wantsW = true ∧ s.wmutex ≠ none) := by
  unfold Locks.step at stuck
  split at stuck <;> rename_i hp <;>
    simp_all [Pc.wantsR, Pc.wantsW, Option.isNone_iff_eq_none]

theorem Pc.wantsW_of_holdsR {p : Pc} (holds : p.holdsR) (wants : p.wantsR ∨ p.wantsW) :
    p = .getLockW ∨ p = .relLockW := by
  cases p <;> simp_all [Pc.holdsR, Pc.wantsR, Pc.wantsW]

theorem Pc.not_wants_of_holdsW {p : Pc} (holds : p.holdsW) : ¬ (p.wantsR ∨ p.wantsW) := by
  cases p <;> simp_all [Pc.holdsW, Pc.wantsR, Pc.wantsW]

theorem Pc.wantsR_of_reads {p : Pc} (reads : p.reads) (wants : p.wantsR ∨ p.wantsW) : p = .getRelockR := by
  cases p <;> simp_all [Pc.reads, Pc.wantsR, Pc.wantsW]

/-- **No deadlock.** If every name is legal and `release_all_props` locks `rmutex` only while nobody
reads, then some call can take a step as long as one is in progress. -/
theorem progress [Fintype ι] {s : Locks ι} (h : Locks.Reaches (fun c => c ≠ .set false) Quiet s)
    (busy : ∃ t, s.pc t ≠ .idle) : ∃ t, (s.step t).isSome := by
  have inv := h.lockInv
  have legal := h.legalInv fun _ hc => hc
  by_contra none_
  have stuck : ∀ t, s.step t = none := fun t => by
    by_contra e
    exact none_ ⟨t, Option.isSome_iff_ne_none.2 e⟩
  have blocked := fun t ht => Locks.blocked (s := s) (t := t) ht (stuck t)
  have wants : ∀ t, s.pc t ≠ .idle → (s.pc t).wantsR ∨ (s.pc t).wantsW := fun t ht =>
    (blocked t ht).imp And.left And.left
  have active : ∀ {t} {P : Pc → Bool}, P (s.pc t) = true → P .idle = false → s.pc t ≠ .idle :=
    fun hP idle e => by rw [e, idle] at hP; cases hP
  -- `wmutex` is locked: if it were free, the holder of `rmutex` could step
  have locked : s.wmutex ≠ none := by
    intro free
    obtain ⟨t, ht⟩ := busy
    have rlocked : s.rmutex ≠ none := (blocked t ht).elim And.right fun e => absurd free e.2
    obtain ⟨u, hu⟩ := Option.ne_none_iff_exists'.1 rlocked
    have holds : (s.pc u).holdsR = true := (inv.rmutex u).2 hu
    have hbusy := active holds rfl
    have waits := Pc.wantsW_of_holdsR holds (wants u hbusy)
    rcases blocked u hbusy with ⟨hR, -⟩ | ⟨-, hW⟩
    · rcases waits with e | e <;> rw [e] at hR <;> cases hR
    · exact hW free
  obtain ⟨o, ho⟩ := Option.ne_none_iff_exists'.1 locked
  cases o with
  | writer u =>
    -- a writer does not wait
    have holds := legal.held u ho
    exact Pc.not_wants_of_holdsW holds (wants u (active holds rfl))
  | readers =>
    -- a reader waits for `rmutex` only, whose holder waits only where the counter is 0
    obtain ⟨v, hv⟩ := inv.readers.1 ho
    have relock : s.pc v = .getRelockR := Pc.wantsR_of_reads hv (wants v (active hv rfl))
    have pos : s.readCount ≠ 0 := fun zero => by
      have := inv.holdsR_of_reads zero hv
      rw [relock] at this
      cases this
    have rlocked : s.rmutex ≠ none := by
      rcases blocked v (active hv rfl) with ⟨-, hR⟩ | ⟨hW, -⟩
      · exact hR
      · rw [relock] at hW; cases hW
    obtain ⟨u, hu⟩ := Option.ne_none_iff_exists'.1 rlocked
    have holds : (s.pc u).holdsR = true := (inv.rmutex u).2 hu
    rcases Pc.wantsW_of_holdsR holds (wants u (active holds rfl)) with e | e
    · exact pos (inv.zero u (.inl e))
    · exact pos (h.quiet u e)

end Progress

/-- A release that waits for a writer: the writer can step. -/
theorem progress_release_waits : ∃ s : Locks (Fin 2), s.pc 0 = .relLockW ∧ s.step 0 = none ∧
    ∃ t, (s.step t).isSome := by
  have run : Locks.Reaches (fun c => c ≠ .set false) Quiet _ :=
    (((Locks.Reaches.loaded.call (1 : Fin 2) (.set true) rfl (by decide)).step 1 (fun e => by cases e) rfl).call 0
      .release rfl (by decide)).step 0 (fun _ => rfl) rfl
  exact ⟨_, rfl, rfl, progress run ⟨0, by decide⟩⟩

/-- **A release that meets a reader** locks `rmutex`, which the reader needs to leave, and waits for
`wmutex`, which the reader holds. -/
theorem release_deadlocks : ¬ ∀ (n : Nat) (s : Locks (Fin n)),
    Locks.Reaches (fun c => c ≠ .set false) anyStep s → (∃ t, s.pc t ≠ .idle) → ∃ t, (s.step t).isSome := by
  intro always
  have run : Locks.Reaches (fun c => c ≠ .set false) anyStep _ :=
    Locks.Reaches.exec (s := Locks.loaded) .loaded
      (l := [.call (0 : Fin 2) .get, .step 0, .step 0, .step 0, .step 0, .step 0, .call 1 .release, .step 1,
        .step 0]) (by simp) rfl
  obtain ⟨t, ht⟩ := always 2 _ run ⟨0, by decide⟩
  revert ht
  fin_cases t <;> decide

end CodeBackup.Property
