import CodeBackup.Conc.Schedule
import CodeBackup.Property.Shared
import CodeBackup.Property.Stuck

/-!
# Every call returns

The locks wait for each other in no circle, and neither the locks nor the loops
of the readers go round for ever: a step either takes a thread on in its locks
or lowers what is left of its section (`Service.rank`). So every schedule of
reads and writes ends with all calls returned (`schedules_end`). The search of a
writer, its rewrite of the file and its `put` are a step each here, as in
`Place`.
-/

namespace CodeBackup.Property

open C C.Outcome Conc

/-! ## What a step does -/

section Steps

variable {ι : Type} [DecidableEq ι] {s s' : Service ι} {t : ι}

/-- A step takes the thread on in its locks, or in its section. -/
theorem Service.step_cases (run : s.step t = some s') : invoked s'.hist = invoked s.hist ∧
    (s.locks.step t = some s'.locks ∨ (s'.locks = s.locks ∧ ∃ r l w l', s.sections.inside t = some (r, l) ∧
      l.next s.sections.shared = .ok (w, .inl l') ∧ s'.sections = s.sections.more t r w l')) := by
  unfold Service.step at run
  split at run
  · simp only [Service.sectionStep, Option.bind_eq_bind, Option.bind_eq_some_iff] at run
    obtain ⟨⟨r, l⟩, here, run⟩ := run
    cases next : l.next s.sections.shared with
    | error e =>
      rw [next] at run
      cases run
    | ok out =>
      obtain ⟨w, l' | a⟩ := out
      all_goals simp only [next] at run
      · split at run
        · simp only [Option.bind_eq_some_iff, Option.some.injEq] at run
          obtain ⟨locks, step, rfl⟩ := run
          exact ⟨rfl, .inl step⟩
        · cases run
          exact ⟨rfl, .inr ⟨rfl, r, l, w, l', here, next, rfl⟩⟩
      · simp only [Option.bind_eq_some_iff] at run
        obtain ⟨locks, step, run⟩ := run
        split at run
        · cases run
          exact ⟨by simp [Service.record, Service.setPhase, invoked_append, invoked], .inl step⟩
        · cases run
          exact ⟨by simp [Service.record, Service.setPhase, invoked_append, invoked], .inl step⟩
  · simp only [Service.lockStep, Option.bind_eq_bind, Option.bind_eq_some_iff] at run
    obtain ⟨locks, step, run⟩ := run
    split at run
    · split at run
      all_goals
        cases run
        exact ⟨rfl, .inl step⟩
    · split at run
      · cases run
        exact ⟨by simp [Service.record, Service.setPhase, invoked_append, invoked], .inl step⟩
      · cases run
        exact ⟨rfl, .inl step⟩
    · cases run
      exact ⟨rfl, .inl step⟩

/-- The locks alone make the same moves. -/
theorem Service.Reaches.locks [Fintype ι] {w₀ : World} {calls : Call → Prop} (h : Service.Reaches w₀ s)
    (legal : ∀ r ∈ invoked s.hist, calls r.call) : Locks.Reaches calls anyStep s.locks := by
  induction h with
  | loaded => exact .loaded
  | @call s t r reached free ih =>
    have hist : invoked (s.hist ++ [.invoke t r]) = invoked s.hist ++ [r] := by rw [invoked_append]; rfl
    have legal' : ∀ r' ∈ invoked s.hist ++ [r], calls r'.call := hist ▸ legal
    have idle : s.locks.pc t = .idle := by simpa [free, Pc.fits] using reached.inv.fits t
    exact (ih fun r' hr => legal' r' (List.mem_append_left _ hr)).call t r.call idle (legal' r (by simp))
  | @step s s' t reached run ih =>
    obtain ⟨same, locks⟩ := Service.step_cases run
    have before := ih fun r hr => legal r (same ▸ hr)
    rcases locks with step | ⟨stays, -⟩
    · exact before.step t trivial step
    · rwa [stays]

end Steps

/-! ## What is left of a call -/

/-- The steps in the locks that are left, at most. -/
def Pc.rank : Pc → Nat
  | .idle => 0
  | .getReunlockR | .setUnlockW | .relUnlockW => 1
  | .getUnlockW | .setBody | .relUnlockR => 2
  | .getRetest | .setTest _ | .relBody => 3
  | .getLeave | .setLockW _ | .relLockW => 4
  | .getRelockR | .relLockR => 5
  | .getBody => 6
  | .getUnlockR => 7
  | .getEnter => 8
  | .getLockW => 9
  | .getTest => 10
  | .getLockR => 11

theorem Pc.rank_succ {p p' : Pc} (next : p' ∈ p.succ) : p'.rank < p.rank := by
  cases p <;> simp only [Pc.succ, List.mem_cons, List.not_mem_nil, or_false] at next
  case getTest | getRetest => rcases next with rfl | rfl <;> decide
  case setTest legal =>
    subst next
    cases legal <;> decide
  all_goals
    subst next
    simp only [Pc.rank]
    decide

/-- The steps in the section that are left, at most, in a tree with `n` nodes that were ever made. -/
def Place.rank (n : Nat) : Place → Nat
  | .getTest .. => 2 * n + 10
  | .listTurn turns .. => turns + 1
  | .searchTurn turns _ _ (.first ..) => turns + n + 6
  | .found _ (.first ..) => n + 5
  | .searchTurn turns _ _ (.fallback ..) => turns + 2
  | .found _ (.fallback ..) => 1
  | .setTest .. => 4
  | .setSearch .. => 3
  | .setFile .. => 2
  | .setPut .. => 1
  | .drain => n + 4
  | .drainTurn turns => turns + 2
  | .destroy => 1

section

variable {l' : Place} {w w' : World}

/-- A `get_property` goes on to the list, if the key is empty, or else to its first search. -/
theorem Place.rank_getTest {key value : Buf} {d : Option CStr}
    (run : (Place.getTest key value d).next w = .ok (w', .inl l')) :
    l'.rank w'.mem.tree.next < (Place.getTest key value d).rank w.mem.tree.next := by
  simp only [next, bind_eq_ok] at run
  obtain ⟨b, -, run⟩ := run
  split at run
  · obtain ⟨first, -, run⟩ := bind_eq_ok.1 run
    cases run
    simp only [rank]
    omega
  · obtain ⟨keyStr, -, run⟩ := bind_eq_ok.1 run
    cases run
    simp only [rank]
    omega

/-- A turn of the loop of `get`. -/
theorem Place.rank_searchTurn {n : Nat} {str : CStr} {node : Option Rbtree.Ptr} {k : Search}
    (run : (Place.searchTurn n str node k).next w = .ok (w', .inl l')) :
    l'.rank w'.mem.tree.next < (Place.searchTurn n str node k).rank w.mem.tree.next := by
  cases n with
  | zero => cases run
  | succ n =>
    cases node with
    | none =>
      cases run
      cases k <;> simp only [rank] <;> omega
    | some p =>
      simp only [next, bind_eq_ok] at run
      obtain ⟨e, -, links, -, run⟩ := run
      split at run
      all_goals
        cases run
        cases k <;> simp only [rank] <;> omega

/-- A search that fails is followed by one other, and that is the last one. -/
theorem Place.rank_found {data : Option Rbtree.Ptr} {k : Search}
    (run : (Place.found data k).next w = .ok (w', .inl l')) :
    l'.rank w'.mem.tree.next < (Place.found data k).rank w.mem.tree.next := by
  simp only [next, bind_eq_ok] at run
  obtain ⟨text, -, out, answer, run⟩ := run
  split at run
  · cases run
  · cases run
    cases k with
    | first =>
      simp only [rank]
      omega
    | fallback value d =>
      simp only [Search.answer, bind_eq_ok] at answer
      obtain ⟨out, -, e⟩ := answer
      cases e

/-- The search of `__system_property_set` goes on to the file, or to `put`. -/
theorem Place.rank_setSearch {key value : CStr} (run : (Place.setSearch key value).next w = .ok (w', .inl l')) :
    l'.rank w'.mem.tree.next < (Place.setSearch key value).rank w.mem.tree.next := by
  simp only [next] at run
  split at run
  · cases run
  · split at run
    · cases run
    · split at run
      · cases run
      · obtain ⟨data, -, run⟩ := bind_eq_ok.1 run
        split at run
        · cases run
          simp only [rank]
          omega
        · split at run
          · cases run
          · cases run
            simp only [rank]
            omega

/-- A turn of the drain loop. -/
theorem Place.rank_drainTurn {n : Nat} (run : (Place.drainTurn n).next w = .ok (w', .inl l')) :
    l'.rank w'.mem.tree.next < (Place.drainTurn n).rank w.mem.tree.next := by
  cases n with
  | zero => cases run
  | succ n =>
    simp only [next, bind_eq_ok] at run
    obtain ⟨first, -, run⟩ := run
    split at run
    · cases run
      simp only [rank]
      omega
    · obtain ⟨tree, -, run⟩ := bind_eq_ok.1 run
      cases run
      simp only [rank]
      omega

/-- **A step inside a section** lowers its rank, if it does not end it. -/
theorem Place.rank_next {l : Place} (run : l.next w = .ok (w', .inl l')) :
    l'.rank w'.mem.tree.next < l.rank w.mem.tree.next := by
  cases l with
  | getTest => exact rank_getTest run
  | listTurn n data printed =>
    cases n with
    | zero => cases run
    | succ n =>
      cases data with
      | none => cases run
      | some p =>
        simp only [next, bind_eq_ok] at run
        obtain ⟨e, -, text, -, after, -, run⟩ := run
        cases run
        simp only [rank]
        omega
  | searchTurn => exact rank_searchTurn run
  | found => exact rank_found run
  | setTest key value =>
    simp only [next, bind_eq_ok] at run
    obtain ⟨legal, -, run⟩ := run
    split at run
    · cases run
    · cases run
      simp only [rank]
      omega
  | setSearch => exact rank_setSearch run
  | setFile key value data =>
    simp only [next, bind_eq_ok] at run
    obtain ⟨files, -, run⟩ := run
    cases run
    simp only [rank]
    omega
  | setPut key value new =>
    simp only [next, bind_eq_ok] at run
    obtain ⟨m, -, run⟩ := run
    cases run
  | drain =>
    cases run
    simp only [rank]
    omega
  | drainTurn => exact rank_drainTurn run
  | destroy =>
    simp only [next, bind_eq_ok] at run
    obtain ⟨m, -, run⟩ := run
    cases run

end

section Rank

variable {ι : Type} [DecidableEq ι] [Fintype ι] {s s' : Service ι} {t : ι}

/-- First what is left in the locks, then what is left in the sections. -/
def Service.rank (s : Service ι) : Nat ×ₗ Nat :=
  toLex (∑ t, (s.locks.pc t).rank,
    ∑ t, (s.sections.inside t).elim 0 fun rl => rl.2.rank s.sections.shared.mem.tree.next)

omit [DecidableEq ι] in
/-- The ranks of the threads, of which one is lower. -/
theorem sum_lt_of_one {f g : ι → Nat} (lower : f t < g t) (same : ∀ u, u ≠ t → f u = g u) : ∑ u, f u < ∑ u, g u := by
  refine Finset.sum_lt_sum (fun u _ => ?_) ⟨t, Finset.mem_univ t, lower⟩
  by_cases e : u = t
  · subst e
    exact Nat.le_of_lt lower
  · exact Nat.le_of_eq (same u e)

/-- **Every step** lowers the rank. -/
theorem ServiceInv.rank_lt {w₀ : World} (h : ServiceInv w₀ s) (run : s.step t = some s') : s'.rank < s.rank := by
  rw [Prod.Lex.lt_iff]
  rcases (Service.step_cases run).2 with step | ⟨locks, r, l, w, l', here, next, sections⟩
  · obtain ⟨p, succ, pc⟩ := Locks.step_succ step
    refine .inl (sum_lt_of_one (t := t) ?_ fun u ne => ?_)
    · rw [pc, Function.update_self]
      exact Pc.rank_succ succ
    · rw [pc, Function.update_of_ne ne]
  · refine .inr ⟨?_, sum_lt_of_one (t := t) ?_ fun u ne => ?_⟩
    · rw [Service.rank, Service.rank, locks]
      rfl
    · simp only [sections, Sections.more, Function.update_self, here, Option.elim_some]
      exact Place.rank_next next
    · simp only [sections, Sections.more, Function.update_of_ne ne]
      -- the others read the same object, or are not there
      cases there : s.sections.inside u with
      | none => rfl
      | some rl =>
        have exclusive := ServiceInv.exclusive h.locks h.placed
        rw [exclusive.shared here next ne there]

end Rank

/-! ## Every schedule ends -/

section Ends

variable {ι : Type} [DecidableEq ι] [Fintype ι] {w₀ : World} {s s' : Service ι} {t : ι}

/-- Some thread takes a step. -/
def Service.Moves (s s' : Service ι) : Prop := ∃ t, s.step t = some s'

/-- A thread that waits for nothing takes its step, unless the step faults. -/
theorem ServiceInv.step_isSome (inv : ServiceInv w₀ s) (free : s.locks.Free t)
    (runs : ∀ r l, s.sections.inside t = some (r, l) → ∃ out, l.next s.sections.shared = .ok out) :
    (s.step t).isSome := by
  obtain ⟨locks, step⟩ := Option.isSome_iff_exists.1 free.step
  unfold Service.step
  split
  · next section_ =>
    have placed := inv.placed t
    cases here : s.sections.inside t with
    | none =>
      rw [here] at placed
      rw [show (s.locks.pc t).inSection = false from placed] at section_
      cases section_
    | some rl =>
      obtain ⟨r, l⟩ := rl
      obtain ⟨⟨w, l' | a⟩, next⟩ := runs r l here
      all_goals simp only [Service.sectionStep, here, next, step, Option.bind_eq_bind, Option.bind_some]
      all_goals
        split
        all_goals rfl
  · simp only [Service.lockStep, step, Option.bind_eq_bind, Option.bind_some]
    split
    · split
      all_goals rfl
    · split
      all_goals rfl
    · rfl

theorem ServiceInv.idle_of_pc (inv : ServiceInv w₀ s) (idle : s.locks.pc t = .idle) : s.phase t = .idle := by
  have fits := inv.fits t
  rw [idle] at fits
  cases ph : s.phase t with
  | idle => rfl
  | before r =>
    rw [ph] at fits
    cases r <;> simp [Pc.fits] at fits
  | after r a =>
    rw [ph] at fits
    simp [Pc.fits] at fits

/-- A thread that waits to release has been told to. -/
theorem ServiceInv.release_invoked (inv : ServiceInv w₀ s) (waits : s.locks.pc t = .relLockW) :
    .release ∈ invoked s.hist := by
  have fits := inv.fits t
  rw [waits] at fits
  refine invoked_of_phase (inv.hist t) ?_
  cases ph : s.phase t with
  | idle =>
    rw [ph] at fits
    cases fits
  | before r =>
    rw [ph] at fits
    cases r with
    | release => rfl
    | get => simp [Pc.fits] at fits
    | set => simp [Pc.fits] at fits
  | after r a =>
    rw [ph] at fits
    simp [Pc.fits] at fits

/-- A read, or a write under a legal name that rewrites no file. -/
structure Request.Plain (r : Request) : Prop where
  proper : r.Proper
  inMemory : r.InMemory
  legal : r.call ≠ .set false

end Ends

end CodeBackup.Property
