import CodeBackup.Property.Locks

/-!
# The invariant of the locks

`LockInv` ties the two mutexes and the counter to the places of the threads.
Each kind of step keeps it (lock, unlock, count, or a move that changes
neither), so every state that an interleaving reaches has it
(`Reaches.lockInv`). It implies the exclusion of readers and writers.
-/

namespace CodeBackup.Property

open Conc

variable {ι : Type} [Fintype ι]

/-- `rmutex` belongs to the one thread that is behind its lock; `wmutex` to every thread that
holds it as a writer, so there is one at most, or to the readers, as long as one reads; and the
counter counts. -/
structure LockInv (s : Locks ι) : Prop where
  rmutex : ∀ t, (s.pc t).holdsR = true ↔ s.rmutex = some t
  writer : ∀ t, (s.pc t).holdsW = true → s.wmutex = some (.writer t)
  readers : s.wmutex = some .readers ↔ ∃ t, (s.pc t).reads = true
  counter : s.readCount = count Pc.counted s.pc
  zero : ∀ t, s.pc t = .getLockW ∨ s.pc t = .getUnlockW → s.readCount = 0

theorem LockInv.loaded : LockInv (Locks.loaded : Locks ι) where
  rmutex t := by simp [Locks.loaded, Pc.holdsR]
  writer t := by simp [Locks.loaded, Pc.holdsW]
  readers := by simp [Locks.loaded, Pc.reads]
  counter := by simp [Locks.loaded, count, Pc.counted]
  zero t := by simp [Locks.loaded]

namespace LockInv

variable {s : Locks ι} {t u : ι} {p p' : Pc}

theorem holdsR_unique (h : LockInv s) (ht : (s.pc t).holdsR) (hu : (s.pc u).holdsR) : u = t :=
  Option.some.inj (((h.rmutex u).1 hu).symm.trans ((h.rmutex t).1 ht))

theorem holdsW_unique (h : LockInv s) (ht : (s.pc t).holdsW) (hu : (s.pc u).holdsW) : u = t := by
  simpa using (h.writer u hu).symm.trans (h.writer t ht)

/-- No thread reads while another writes. -/
theorem not_reads (h : LockInv s) (ht : (s.pc t).holdsW) : (s.pc u).reads = false := by
  by_contra hu
  have := h.readers.2 ⟨u, by simpa using hu⟩
  rw [h.writer t ht] at this
  cases this

/-- A positive counter is a thread that reads. -/
theorem reads_of_count (h : LockInv s) (pos : s.readCount ≠ 0) : ∃ u, (s.pc u).counted = true := by
  refine count_pos.1 (Nat.pos_of_ne_zero fun zero => pos ?_)
  rw [h.counter, zero]
  rfl

/-- A thread that reads where the counter is 0 holds `rmutex`. -/
theorem holdsR_of_reads (h : LockInv s) (zero : s.readCount = 0) (hu : (s.pc u).reads) :
    (s.pc u).holdsR = true := by
  rcases Pc.reads_cases hu with inside | holds
  · have : 0 < count Pc.counted s.pc := count_pos.2 ⟨u, Pc.counted_of_inside inside⟩
    have := h.counter
    omega
  · exact holds

variable [DecidableEq ι]

/-- Thread `t` moves, and the locks and the counter change: what has to hold of the thread and of
the others. -/
theorem move {r : Option ι} {w : Option (Owner ι)} {n : Int} (h : LockInv s) (hp : s.pc t = p)
    (rt : p'.holdsR = true ↔ r = some t) (ru : ∀ u, u ≠ t → (s.rmutex = some u ↔ r = some u))
    (wt : p'.holdsW = true → w = some (.writer t))
    (wu : ∀ u, u ≠ t → (s.pc u).holdsW = true → w = some (.writer u))
    (readers : w = some .readers ↔ p'.reads = true ∨ ∃ u, u ≠ t ∧ (s.pc u).reads = true)
    (counter : n + (p.counted.toNat : Int) = s.readCount + (p'.counted.toNat : Int))
    (zt : p' = .getLockW ∨ p' = .getUnlockW → n = 0)
    (zu : ∀ u, u ≠ t → s.pc u = .getLockW ∨ s.pc u = .getUnlockW → n = 0) :
    LockInv ⟨r, w, n, Function.update s.pc t p'⟩ := by
  constructor
  · intro u
    by_cases e : u = t
    · subst e; simpa using rt
    · simpa [e] using (h.rmutex u).trans (ru u e)
  · intro u
    by_cases e : u = t
    · subst e; simpa using wt
    · simpa [e] using wu u e
  · refine readers.trans ⟨?_, ?_⟩
    · rintro (hp | ⟨u, ne, hu⟩)
      · exact ⟨t, by simpa using hp⟩
      · exact ⟨u, by simpa [ne] using hu⟩
    · rintro ⟨u, hu⟩
      by_cases e : u = t
      · subst e; exact .inl (by simpa using hu)
      · exact .inr ⟨u, e, by simpa [e] using hu⟩
  · have := count_update Pc.counted s.pc t p'
    have := h.counter
    rw [hp] at *
    show n = (count Pc.counted (Function.update s.pc t p') : Int)
    omega
  · intro u
    by_cases e : u = t
    · subst e; simpa using zt
    · simpa [e] using zu u e

/-- What the readers' lock says of the threads other than `t`. -/
theorem readers_iff (h : LockInv s) (hp : s.pc t = p) :
    s.wmutex = some .readers ↔ p.reads = true ∨ ∃ u, u ≠ t ∧ (s.pc u).reads = true := by
  refine h.readers.trans ⟨?_, ?_⟩
  · rintro ⟨u, hu⟩
    by_cases e : u = t
    · subst e; exact .inl (hp ▸ hu)
    · exact .inr ⟨u, e, hu⟩
  · rintro (hp' | ⟨u, -, hu⟩)
    · exact ⟨t, hp ▸ hp'⟩
    · exact ⟨u, hu⟩

/-- A move that changes no lock, between places that hold the same. -/
theorem goto (h : LockInv s) (hp : s.pc t = p) (hR : p'.holdsR = p.holdsR)
    (hW : p'.holdsW = true → p.holdsW = true) (reads : p'.reads = p.reads) (counted : p'.counted = p.counted)
    (zero : p' = .getLockW ∨ p' = .getUnlockW → s.readCount = 0) : LockInv (s.goto t p') :=
  h.move hp (by rw [hR, ← hp]; exact h.rmutex t) (fun _ _ => Iff.rfl)
    (fun hp' => h.writer t (hp ▸ hW hp')) (fun u _ => h.writer u)
    (by rw [reads]; exact h.readers_iff hp) (by rw [counted]) zero (fun u _ => h.zero u)

/-- `mutex_lock(&rmutex)`. -/
theorem lockR (h : LockInv s) (hp : s.pc t = p) (free : s.rmutex = none) (hR : p'.holdsR = true)
    (hW : p'.holdsW = true → p.holdsW = true) (reads : p'.reads = p.reads) (counted : p'.counted = p.counted)
    (zero : ¬ (p' = .getLockW ∨ p' = .getUnlockW)) : LockInv ((s.setR (some t)).goto t p') :=
  h.move hp (by simp [hR, Locks.setR]) (fun u ne => by simp [free, ne.symm, Locks.setR])
    (fun hp' => h.writer t (hp ▸ hW hp')) (fun u _ => h.writer u)
    (by rw [reads]; exact h.readers_iff hp) (by rw [counted]; rfl) (fun e => absurd e zero)
    (fun u _ => h.zero u)

/-- `mutex_unlock(&rmutex)`. -/
theorem unlockR (h : LockInv s) (hp : s.pc t = p) (held : p.holdsR = true) (hR : p'.holdsR = false)
    (hW : p'.holdsW = true → p.holdsW = true) (reads : p'.reads = p.reads) (counted : p'.counted = p.counted)
    (zero : ¬ (p' = .getLockW ∨ p' = .getUnlockW)) : LockInv ((s.setR none).goto t p') := by
  have mine : s.rmutex = some t := (h.rmutex t).1 (hp ▸ held)
  exact h.move hp (by simp [hR, Locks.setR]) (fun u ne => by simp [mine, ne.symm, Locks.setR])
    (fun hp' => h.writer t (hp ▸ hW hp')) (fun u _ => h.writer u)
    (by rw [reads]; exact h.readers_iff hp) (by rw [counted]; rfl) (fun e => absurd e zero)
    (fun u _ => h.zero u)

/-- `mutex_lock(&wmutex)` by a writer. -/
theorem lockW (h : LockInv s) (hp : s.pc t = p) (free : s.wmutex = none) (hR : p'.holdsR = p.holdsR)
    (reads : p'.reads = false) (counted : p'.counted = p.counted)
    (zero : ¬ (p' = .getLockW ∨ p' = .getUnlockW)) :
    LockInv ((s.setW (some (.writer t))).goto t p') := by
  have noReader : ¬ ∃ u, (s.pc u).reads = true := fun hu => by
    have := h.readers.2 hu
    rw [free] at this
    cases this
  refine h.move hp (by rw [hR, ← hp]; exact h.rmutex t) (fun _ _ => Iff.rfl) (fun _ => rfl)
    (fun u _ hu => ?_) ?_ (by rw [counted]; rfl) (fun e => absurd e zero) (fun u _ => h.zero u)
  · have := h.writer u hu
    rw [free] at this
    cases this
  · simp only [Locks.setW, reads, Bool.false_eq_true, false_or]
    apply iff_of_false (by simp)
    rintro ⟨u, -, hu⟩
    exact noReader ⟨u, hu⟩

/-- `mutex_unlock(&wmutex)` by a writer. -/
theorem unlockW (h : LockInv s) (hp : s.pc t = p) (held : p.holdsW = true) (hR : p'.holdsR = p.holdsR)
    (hW : p'.holdsW = false) (reads : p'.reads = false) (counted : p'.counted = p.counted)
    (zero : ¬ (p' = .getLockW ∨ p' = .getUnlockW)) : LockInv ((s.setW none).goto t p') := by
  have held' : (s.pc t).holdsW = true := hp ▸ held
  refine h.move hp (by rw [hR, ← hp]; exact h.rmutex t) (fun _ _ => Iff.rfl)
    (fun e => by rw [hW] at e; cases e) (fun u ne hu => absurd (h.holdsW_unique held' hu) ne) ?_
    (by rw [counted]; rfl) (fun e => absurd e zero) (fun u _ => h.zero u)
  simp only [Locks.setW, reads, Bool.false_eq_true, false_or]
  apply iff_of_false (by simp)
  rintro ⟨u, -, hu⟩
  rw [h.not_reads held'] at hu
  cases hu

/-- The first reader locks `wmutex` for the readers. -/
theorem lockReaders (h : LockInv s) (hp : s.pc t = .getLockW) (free : s.wmutex = none) :
    LockInv ((s.setW (some .readers)).goto t .getEnter) := by
  have mine : s.rmutex = some t := (h.rmutex t).1 (by rw [hp]; rfl)
  refine h.move hp (by simpa [Locks.setW, Pc.holdsR] using mine) (fun _ _ => Iff.rfl) (fun e => by cases e)
    (fun u _ hu => ?_) (iff_of_true rfl (.inl rfl)) rfl (fun e => by simp at e) (fun u _ => h.zero u)
  have := h.writer u hu
  rw [free] at this
  cases this

/-- A later reader finds `wmutex` locked for the readers. -/
theorem joinReaders (h : LockInv s) (hp : s.pc t = .getTest) (pos : s.readCount ≠ 0) :
    LockInv (s.goto t .getEnter) := by
  have mine : s.rmutex = some t := (h.rmutex t).1 (by rw [hp]; rfl)
  obtain ⟨v, hv⟩ := h.reads_of_count pos
  refine h.move hp (by simpa [Pc.holdsR] using mine) (fun _ _ => Iff.rfl) (fun e => by cases e)
    (fun u _ => h.writer u) (iff_of_true (h.readers.2 ⟨v, Pc.reads_of_counted hv⟩) (.inl rfl)) rfl
    (fun e => by simp at e) (fun u _ => h.zero u)

/-- A reader that is not the last one leaves `wmutex` locked for the others. -/
theorem leaveReaders (h : LockInv s) (hp : s.pc t = .getRetest) (pos : s.readCount ≠ 0) :
    LockInv (s.goto t .getReunlockR) := by
  have mine : s.rmutex = some t := (h.rmutex t).1 (by rw [hp]; rfl)
  obtain ⟨v, hv⟩ := h.reads_of_count pos
  have ne : v ≠ t := by
    rintro rfl
    rw [hp] at hv
    cases hv
  have others : ∃ u, u ≠ t ∧ (s.pc u).reads = true := ⟨v, ne, Pc.reads_of_counted hv⟩
  exact h.move hp (by simpa [Pc.holdsR] using mine) (fun _ _ => Iff.rfl) (fun e => by cases e)
    (fun u _ => h.writer u) (iff_of_true (h.readers.2 ⟨v, Pc.reads_of_counted hv⟩) (.inr others)) rfl
    (fun e => by simp at e) (fun u _ => h.zero u)

/-- The last reader unlocks `wmutex`. -/
theorem unlockReaders (h : LockInv s) (hp : s.pc t = .getUnlockW) :
    LockInv ((s.setW none).goto t .getReunlockR) := by
  have zero := h.zero t (.inr hp)
  have mine : (s.pc t).holdsR = true := by rw [hp]; rfl
  have noReader : ∀ u, u ≠ t → (s.pc u).reads ≠ true := fun u ne hu =>
    ne (h.holdsR_unique mine (h.holdsR_of_reads zero hu))
  have noWriter : ∀ u, (s.pc u).holdsW ≠ true := fun u hu => by
    have := h.not_reads (u := t) hu
    rw [hp] at this
    cases this
  refine h.move hp (by simpa [Locks.setW, Pc.holdsR] using (h.rmutex t).1 mine) (fun _ _ => Iff.rfl)
    (fun e => by cases e) (fun u _ hu => absurd hu (noWriter u)) ?_ rfl (fun e => by simp at e)
    (fun u _ => h.zero u)
  apply iff_of_false (by simp [Locks.setW])
  rintro (e | ⟨u, ne, hu⟩)
  · simp [Pc.reads] at e
  · exact noReader u ne hu

/-- `read_count++` and `read_count--`, under `rmutex`. -/
theorem recount {n : Int} (h : LockInv s) (hp : s.pc t = p) (mine : p.holdsR = true) (hR : p'.holdsR = true)
    (hW : p'.holdsW = false) (hreads : p.reads = true) (reads : p'.reads = true)
    (counter : n + (p.counted.toNat : Int) = s.readCount + (p'.counted.toNat : Int))
    (zero : ¬ (p' = .getLockW ∨ p' = .getUnlockW)) : LockInv ((s.setCount n).goto t p') := by
  have mine' : (s.pc t).holdsR = true := hp ▸ mine
  refine h.move hp (by simpa [Locks.setCount, hR] using (h.rmutex t).1 mine') (fun _ _ => Iff.rfl)
    (fun e => by rw [hW] at e; cases e) (fun u _ => h.writer u)
    (iff_of_true (h.readers.2 ⟨t, hp ▸ hreads⟩) (.inl reads)) counter (fun e => absurd e zero)
    fun u ne hu => ?_
  -- a thread at one of these two places would hold `rmutex` as well
  have holds : (s.pc u).holdsR = true := by rcases hu with hu | hu <;> rw [hu] <;> rfl
  exact absurd (h.holdsR_unique mine' holds) ne

/-- **Every step** keeps the invariant. -/
theorem step {s' : Locks ι} (h : LockInv s) (run : s.step t = some s') : LockInv s' := by
  unfold Locks.step at run
  split at run <;> rename_i hp <;>
    try simp only [Option.ite_none_right_eq_some, Option.isNone_iff_eq_none, Option.some.injEq] at run
  case h_1 => cases run
  case h_2 => exact run.2 ▸ h.lockR hp run.1 rfl id rfl rfl (by simp)
  case h_3 =>
    by_cases zero : s.readCount = 0
    · rw [if_pos zero] at run
      exact run ▸ h.goto hp rfl id rfl rfl fun _ => zero
    · rw [if_neg zero] at run
      exact run ▸ h.joinReaders hp zero
  case h_4 => exact run.2 ▸ h.lockReaders hp run.1
  case h_5 => exact run ▸ h.recount hp rfl rfl rfl rfl rfl (by simp [Pc.counted]) (by simp)
  case h_6 => exact run ▸ h.unlockR hp rfl rfl id rfl rfl (by simp)
  case h_7 => exact run ▸ h.goto hp rfl id rfl rfl (by simp)
  case h_8 => exact run.2 ▸ h.lockR hp run.1 rfl id rfl rfl (by simp)
  case h_9 => exact run ▸ h.recount hp rfl rfl rfl rfl rfl (by simp [Pc.counted]) (by simp)
  case h_10 =>
    by_cases zero : s.readCount = 0
    · rw [if_pos zero] at run
      exact run ▸ h.goto hp rfl id rfl rfl fun _ => zero
    · rw [if_neg zero] at run
      exact run ▸ h.leaveReaders hp zero
  case h_11 => exact run ▸ h.unlockReaders hp
  case h_12 => exact run ▸ h.unlockR hp rfl rfl id rfl rfl (by simp)
  case h_13 => exact run.2 ▸ h.lockW hp run.1 rfl rfl rfl (by simp)
  case h_14 legal =>
    cases legal
    · exact run ▸ h.goto hp rfl (fun e => by cases e) rfl rfl (by simp)
    · exact run ▸ h.goto hp rfl id rfl rfl (by simp)
  case h_15 => exact run ▸ h.goto hp rfl id rfl rfl (by simp)
  case h_16 => exact run ▸ h.unlockW hp rfl rfl rfl rfl rfl (by simp)
  case h_17 => exact run.2 ▸ h.lockR hp run.1 rfl id rfl rfl (by simp)
  case h_18 => exact run.2 ▸ h.lockW hp run.1 rfl rfl rfl (by simp)
  case h_19 => exact run ▸ h.goto hp rfl id rfl rfl (by simp)
  case h_20 => exact run ▸ h.unlockR hp rfl rfl id rfl rfl (by simp)
  case h_21 => exact run ▸ h.unlockW hp rfl rfl rfl rfl rfl (by simp)

/-- **A new call** keeps the invariant. -/
theorem call (h : LockInv s) (idle : s.pc t = .idle) (c : Call) : LockInv (s.goto t c.entry) := by
  cases c
  · exact h.goto idle rfl id rfl rfl (by simp [Call.entry])
  · exact h.goto idle rfl id rfl rfl (by simp [Call.entry])
  · exact h.goto idle rfl id rfl rfl (by simp [Call.entry])

end LockInv

/-- **Every state that is reached** has the invariant. -/
theorem Locks.Reaches.lockInv [DecidableEq ι] {calls : Call → Prop} {cond : ι → Locks ι → Prop} {s : Locks ι}
    (h : Locks.Reaches calls cond s) : LockInv s := by
  induction h with
  | loaded => exact .loaded
  | call t c _ idle _ ih => exact ih.call idle c
  | step t _ _ run ih => exact ih.step run

end CodeBackup.Property
