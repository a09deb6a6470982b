import CodeBackup.Property.Linear
import CodeBackup.Property.LockRuns

/-!
# How the service gets stuck

There are two ways, and no way back from either. A release has locked `rmutex`
and waits for the readers, one of which waits for `rmutex` to leave (`Jammed`);
or `wmutex` is locked for a thread that has left its writing section without
unlocking it (`Lost`). As long as neither happens somebody can go on
(`LockInv.runnable`).
-/

namespace CodeBackup.Property

open Conc Relation

variable {ι : Type} {s s' : Locks ι} {t u : ι}

/-- `t` waits to release, and `u` to leave its reading section. -/
structure Locks.Jammed (s : Locks ι) (t u : ι) : Prop where
  releases : s.pc t = .relLockW
  leaves : s.pc u = .getRelockR

/-- `wmutex` is locked for `u`, which will not unlock it. -/
structure Locks.Lost (s : Locks ι) (u : ι) : Prop where
  locked : s.wmutex = some (.writer u)
  gone : (s.pc u).holdsW = false

/-- The thread waits for no mutex that is locked. -/
structure Locks.Free (s : Locks ι) (t : ι) : Prop where
  busy : s.pc t ≠ .idle
  rmutex : (s.pc t).wantsR = true → s.rmutex = none
  wmutex : (s.pc t).wantsW = true → s.wmutex = none

theorem Locks.Free.step [DecidableEq ι] (free : s.Free t) : (s.step t).isSome := by
  by_contra stuck
  rcases Locks.blocked free.busy (by simpa using stuck) with ⟨wants, locked⟩ | ⟨wants, locked⟩
  · exact locked (free.rmutex wants)
  · exact locked (free.wmutex wants)

/-- A thread at a place that is not the last one is busy. -/
theorem Pc.busy {p : Pc} {P : Pc → Bool} (here : P p = true) (idle : P .idle = false) : p ≠ .idle := by
  rintro rfl
  rw [idle] at here
  cases here

/-- The way into a writing section is through the lock. -/
theorem Pc.wantsW_of_succ {p p' : Pc} (next : p' ∈ p.succ) (holds : p'.holdsW = true) (out : p.holdsW = false) :
    p.wantsW = true := by
  cases p <;> simp only [succ, List.mem_cons, List.not_mem_nil, or_false] at next
  case getTest | getRetest => rcases next with rfl | rfl <;> cases holds
  case setTest => cases out
  all_goals
    subst next
    simp_all [holdsW, wantsW]

section

variable [Fintype ι]

/-- **Somebody can go on**, or `wmutex` is lost, or readers and a release wait for each other. -/
theorem LockInv.runnable (inv : LockInv s) (busy : ∃ t, s.pc t ≠ .idle) :
    (∃ t, s.Free t) ∨ (∃ t u, s.Jammed t u) ∨ ∃ u, s.Lost u := by
  cases locked : s.wmutex with
  | none =>
    cases rlocked : s.rmutex with
    | none =>
      obtain ⟨t, ht⟩ := busy
      exact .inl ⟨t, ht, fun _ => rlocked, fun _ => locked⟩
    | some u =>
      -- the holder of `rmutex` does not wait for it
      have holds : (s.pc u).holdsR = true := (inv.rmutex u).2 rlocked
      refine .inl ⟨u, Pc.busy holds rfl, fun wants => ?_, fun _ => locked⟩
      rcases Pc.wantsW_of_holdsR holds (.inl wants) with e | e <;> rw [e] at wants <;> cases wants
  | some o =>
    cases o with
    | writer u =>
      cases holds : (s.pc u).holdsW with
      | false => exact .inr (.inr ⟨u, locked, holds⟩)
      | true =>
        -- a writer does not wait
        have waits := Pc.not_wants_of_holdsW holds
        exact .inl ⟨u, Pc.busy holds rfl, fun e => absurd (.inl e) waits, fun e => absurd (.inr e) waits⟩
    | readers =>
      obtain ⟨v, hv⟩ := inv.readers.1 locked
      by_cases goes : (s.pc v).wantsR ∨ (s.pc v).wantsW
      · have relock := Pc.wantsR_of_reads hv goes
        cases rlocked : s.rmutex with
        | none => exact .inl ⟨v, Pc.busy hv rfl, fun _ => rlocked, fun e => by rw [relock] at e; cases e⟩
        | some u =>
          -- the holder of `rmutex` waits for `wmutex` only to release, or where the counter is 0
          have holds : (s.pc u).holdsR = true := (inv.rmutex u).2 rlocked
          by_cases waits : (s.pc u).wantsR ∨ (s.pc u).wantsW
          · rcases Pc.wantsW_of_holdsR holds waits with e | e
            · have reader := inv.holdsR_of_reads (inv.zero u (.inl e)) hv
              rw [relock] at reader
              cases reader
            · exact .inr (.inl ⟨u, v, e, relock⟩)
          · exact .inl ⟨u, Pc.busy holds rfl, fun e => absurd (.inl e) waits, fun e => absurd (.inr e) waits⟩
      · exact .inl ⟨v, Pc.busy hv rfl, fun e => absurd (.inl e) goes, fun e => absurd (.inr e) goes⟩

end

/-! ## No way back -/

variable [DecidableEq ι]

/-- One move: a thread takes its next step, or begins a call. -/
inductive Locks.Moves (s : Locks ι) : Locks ι → Prop where
  | step {s' : Locks ι} (t : ι) : s.step t = some s' → Moves s s'
  | call (t : ι) (c : Call) : s.pc t = .idle → Moves s (s.goto t c.entry)

/-- Only a writer, or the last reader, unlocks `wmutex`, and only a thread that finds it free locks it. -/
theorem Locks.step_wmutex (run : s.step t = some s') :
    s'.wmutex = s.wmutex ∨ s.wmutex = none ∨ (s.pc t).holdsW = true ∨ (s.pc t).reads = true := by
  unfold Locks.step at run
  split at run <;> rename_i hp <;>
    try simp only [Option.ite_none_right_eq_some, Option.isNone_iff_eq_none, Option.some.injEq] at run
  case h_1 => cases run
  case h_4 | h_13 | h_18 => exact .inr (.inl run.1)
  case h_11 => exact .inr (.inr (.inr (by rw [hp]; rfl)))
  case h_16 | h_21 => exact .inr (.inr (.inl (by rw [hp]; rfl)))
  case h_2 | h_8 | h_17 => exact .inl (run.2 ▸ rfl)
  all_goals exact .inl (run ▸ rfl)

theorem Locks.step_of_locked (waits : (s.pc t).wantsW = true) (locked : s.wmutex ≠ none) : s.step t = none := by
  cases p : s.pc t <;> simp_all [Locks.step, Pc.wantsW]

section

variable [Fintype ι]

theorem LockInv.moves (inv : LockInv s) (move : s.Moves s') : LockInv s' := by
  cases move with
  | step t run => exact inv.step run
  | call t c idle => exact inv.call idle c

/-- **A jam stays**: neither thread can take its step. -/
theorem Locks.Jammed.moves (inv : LockInv s) (jam : s.Jammed t u) (move : s.Moves s') : s'.Jammed t u := by
  have readers : s.wmutex = some .readers := inv.readers.2 ⟨u, by rw [jam.leaves]; rfl⟩
  have holder : s.rmutex = some t := (inv.rmutex t).1 (by rw [jam.releases]; rfl)
  have others : ∀ {v : ι} {p : Pc}, v ≠ t → v ≠ u → s'.pc = Function.update s.pc v p → s'.Jammed t u := by
    intro v p ht hu pc
    exact ⟨by rw [pc, Function.update_of_ne ht.symm, jam.releases],
      by rw [pc, Function.update_of_ne hu.symm, jam.leaves]⟩
  cases move with
  | step v run =>
    have ht : v ≠ t := by
      rintro rfl
      simp [Locks.step, jam.releases, readers] at run
    have hu : v ≠ u := by
      rintro rfl
      simp [Locks.step, jam.leaves, holder] at run
    obtain ⟨p, -, pc⟩ := Locks.step_succ run
    exact others ht hu pc
  | call v c idle =>
    refine others (v := v) ?_ ?_ rfl
    · rintro rfl
      cases idle.symm.trans jam.releases
    · rintro rfl
      cases idle.symm.trans jam.leaves

/-- **A lost lock stays lost**: nobody else may unlock it. -/
theorem Locks.Lost.moves (inv : LockInv s) (lost : s.Lost u) (move : s.Moves s') : s'.Lost u := by
  have noWriter : ∀ v, (s.pc v).holdsW ≠ true := by
    intro v holds
    have mine := inv.writer v holds
    rw [lost.locked] at mine
    obtain rfl : u = v := by simpa using mine
    rw [lost.gone] at holds
    cases holds
  have noReader : ∀ v, (s.pc v).reads ≠ true := by
    intro v reads
    have readers := inv.readers.2 ⟨v, reads⟩
    rw [lost.locked] at readers
    cases readers
  cases move with
  | step v run =>
    have same : s'.wmutex = s.wmutex := by
      rcases Locks.step_wmutex run with same | free | holds | reads
      · exact same
      · rw [lost.locked] at free
        cases free
      · exact absurd holds (noWriter v)
      · exact absurd reads (noReader v)
    refine ⟨same.trans lost.locked, ?_⟩
    obtain ⟨p, succ, pc⟩ := Locks.step_succ run
    rw [pc]
    by_cases e : u = v
    · -- the thread itself has no way into a writing section but through the lock
      subst e
      rw [Function.update_self]
      by_contra holds
      have waits := Pc.wantsW_of_succ succ (by simpa using holds) lost.gone
      rw [Locks.step_of_locked waits (by rw [lost.locked]; nofun)] at run
      cases run
    · rw [Function.update_of_ne e]
      exact lost.gone
  | call v c idle =>
    refine ⟨lost.locked, ?_⟩
    by_cases e : u = v
    · subst e
      cases c <;> simp [Locks.goto, Call.entry, Pc.holdsW]
    · simpa [Locks.goto, e] using lost.gone

omit [DecidableEq ι] in
/-- Nobody is in a section while the lock is lost. -/
theorem Locks.Lost.outside (inv : LockInv s) (lost : s.Lost u) (t : ι) : (s.pc t).inSection = false := by
  by_contra inside
  have inside : (s.pc t).inSection = true := by simpa using inside
  by_cases body : s.pc t = .getBody
  · have readers := inv.readers.2 ⟨t, by rw [body]; rfl⟩
    rw [lost.locked] at readers
    cases readers
  · have holds := Pc.holdsW_of_section inside body
    have mine := inv.writer t holds
    rw [lost.locked] at mine
    obtain rfl : u = t := by simpa using mine
    rw [lost.gone] at holds
    cases holds

/-- **The service gets stuck in two ways only, and for ever.** Take any interleaving of calls of `get_property`,
`set_property`, with legal names or not, and `release_all_props`. If calls are in progress and none can take a step, a
release and a reader wait for each other, or `wmutex` is locked for a thread that has returned without unlocking it.
From then on the one pair waits, and the other lock stays locked and nothing is ever read or written again, whatever is
called. -/
theorem stuck_for_ever (h : Locks.Reaches anyCall anyStep s) :
    ((∃ t, s.pc t ≠ .idle) → (∀ t, s.step t = none) → (∃ t u, s.Jammed t u) ∨ ∃ u, s.Lost u) ∧
    ∀ s', ReflTransGen Locks.Moves s s' → (∀ t u, s.Jammed t u → s'.Jammed t u) ∧
      ∀ u, s.Lost u → s'.Lost u ∧ ∀ t, (s'.pc t).inSection = false := by
  have inv := h.lockInv
  refine ⟨fun busy stuck => (inv.runnable busy).resolve_left ?_, fun s' later => ?_⟩
  · rintro ⟨t, free⟩
    have := free.step
    rw [stuck t] at this
    cases this
  · have both : LockInv s' ∧ (∀ t u, s.Jammed t u → s'.Jammed t u) ∧ ∀ u, s.Lost u → s'.Lost u := by
      induction later with
      | refl => exact ⟨inv, fun _ _ jam => jam, fun _ lost => lost⟩
      | tail _ move ih =>
        obtain ⟨inv', jam, lost⟩ := ih
        exact ⟨inv'.moves move, fun t u h => (jam t u h).moves inv' move, fun u h => (lost u h).moves inv' move⟩
    obtain ⟨inv', jam, lost⟩ := both
    exact ⟨jam, fun u h => ⟨lost u h, (lost u h).outside inv'⟩⟩

end

/-- A release that meets a reader. -/
theorem stuck_for_ever_release : ∃ s : Locks (Fin 2), s.Jammed 1 0 ∧ (∀ t, s.step t = none) ∧
    ((∃ t, s.pc t ≠ .idle) → (∀ t, s.step t = none) → (∃ t u, s.Jammed t u) ∨ ∃ u, s.Lost u) ∧
    ∀ s', ReflTransGen Locks.Moves s s' → (∀ t u, s.Jammed t u → s'.Jammed t u) ∧
      ∀ u, s.Lost u → s'.Lost u ∧ ∀ t, (s'.pc t).inSection = false :=
  ⟨_, ⟨rfl, rfl⟩, by decide, stuck_for_ever (Locks.Reaches.exec (s := Locks.loaded) .loaded (fun _ _ _ => trivial)
    (l := [.call (0 : Fin 2) .get, .step 0, .step 0, .step 0, .step 0, .step 0, .call 1 .release, .step 1, .step 0])
    rfl)⟩

end CodeBackup.Property
