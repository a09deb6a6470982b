import CodeBackup.Property.Bindings
import CodeBackup.Property.Linear

/-!
# One map for all threads

The two refinements together: the calls of all threads are one sequence of
whole calls, and each of these does to the bindings what the specification
permits. So the threads share one map in an arena, and a listing is a snapshot
of it (`threads_share_bindings`).
-/

namespace CodeBackup.Property

open C C.Outcome Conc

variable {ι : Type} [DecidableEq ι]

/-- The requests that have been made. -/
def invoked : List (Event ι) → List Request
  | [] => []
  | .invoke _ r :: hist => r :: invoked hist
  | .effect .. :: hist => invoked hist
  | .ret .. :: hist => invoked hist

omit [DecidableEq ι] in
theorem invoked_append (h h' : List (Event ι)) : invoked (h ++ h') = invoked h ++ invoked h' := by
  induction h with
  | nil => rfl
  | cons e h ih => cases e <;> simp [invoked, ih]

/-- The request of a phase. -/
def Phase.request : Phase → Option Request
  | .idle => none
  | .before r | .after r _ => some r

/-- The request of a phase is that of the phase before, or is made by the event. -/
theorem Phase.follow_request {t : ι} {r : Request} {ph ph' : Phase} {e : Event ι}
    (next : Phase.follow t (some ph) e = some ph') (under : ph'.request = some r) :
    ph.request = some r ∨ e = .invoke t r := by
  cases e with
  | invoke u r' =>
    simp only [Phase.follow] at next
    split at next
    · next here =>
      simp only [Option.ite_none_right_eq_some, Option.some.injEq] at next
      obtain ⟨-, rfl⟩ := next
      obtain rfl : r' = r := by simpa [Phase.request] using under
      exact .inr (by rw [here])
    · cases next
      exact .inl under
  | effect u r' a =>
    simp only [Phase.follow] at next
    split at next
    · simp only [Option.ite_none_right_eq_some, Option.some.injEq] at next
      obtain ⟨rfl, rfl⟩ := next
      exact .inl under
    · cases next
      exact .inl under
  | ret u r' a =>
    simp only [Phase.follow] at next
    split at next
    · simp only [Option.ite_none_right_eq_some, Option.some.injEq] at next
      obtain ⟨-, rfl⟩ := next
      cases under
    · cases next
      exact .inl under

/-- The history before an event that can happen. -/
theorem phaseOf_before {t : ι} {hist : List (Event ι)} {e : Event ι} {ph : Phase}
    (after : phaseOf t (hist ++ [e]) = some ph) :
    ∃ ph', phaseOf t hist = some ph' ∧ Phase.follow t (some ph') e = some ph := by
  rw [phaseOf_concat] at after
  cases before : phaseOf t hist with
  | none =>
    rw [before] at after
    cases after
  | some ph' => exact ⟨ph', rfl, before ▸ after⟩

/-- **A call that is under way** has been made. -/
theorem invoked_of_phase {t : ι} {r : Request} : ∀ {hist : List (Event ι)} {ph : Phase}, phaseOf t hist = some ph →
    ph.request = some r → r ∈ invoked hist := by
  intro hist
  induction hist using List.reverseRecOn with
  | nil =>
    intro ph h under
    obtain rfl : Phase.idle = ph := by simpa [phaseOf] using h
    cases under
  | append_singleton hist e ih =>
    intro ph h under
    obtain ⟨ph', before, next⟩ := phaseOf_before h
    rw [invoked_append, List.mem_append]
    rcases Phase.follow_request next under with under' | rfl
    · exact .inl (ih before under')
    · exact .inr (by simp [invoked])

/-- **A call that has taken effect** has been made. -/
theorem invoked_of_effect {r : Request} {a : Answer} : ∀ {hist : List (Event ι)},
    (∀ t, ∃ ph, phaseOf t hist = some ph) → (r, a) ∈ effects hist → r ∈ invoked hist := by
  intro hist
  induction hist using List.reverseRecOn with
  | nil => exact fun _ h => absurd h List.not_mem_nil
  | append_singleton hist e ih =>
    intro formed h
    have before : ∀ t, ∃ ph, phaseOf t hist = some ph := fun t => by
      obtain ⟨ph, h⟩ := formed t
      obtain ⟨ph', before, -⟩ := phaseOf_before h
      exact ⟨ph', before⟩
    rw [effects_append, List.mem_append] at h
    rw [invoked_append, List.mem_append]
    rcases h with h | h
    · exact .inl (ih before h)
    · cases e with
      | invoke u r' => cases h
      | ret u r' a' => cases h
      | effect u r' a' =>
        obtain ⟨rfl, rfl⟩ : r = r' ∧ a = a' := by simpa [effects] using h
        -- the thread was on its way to this effect
        obtain ⟨ph, after⟩ := formed u
        obtain ⟨ph', now, next⟩ := phaseOf_before after
        simp only [Phase.follow, if_true, Option.ite_none_right_eq_some] at next
        obtain ⟨rfl, -⟩ := next
        exact .inl (invoked_of_phase now rfl)

/-! ## The shared map -/

/-- After a load, the calls that have taken effect have done to the bindings what the specification permits. -/
theorem Service.Reaches.implements [Fintype ι] {depth : Nat} {files : Files} {w₀ : World}
    (load : loadAllProps depth ⟨.fresh, files⟩ = .ok w₀) {s : Service ι} (h : Service.Reaches w₀ s)
    (proper : ∀ r ∈ invoked s.hist, r.Proper) :
    ∃ w b₀ b, Sections.SerialAt serviceCut w₀ s.sections w ∧ Implements w₀.mem b₀ ∧
      Cut.Explains Bindings.Permits (effects s.hist) b₀ b ∧ Implements w.mem b := by
  have inv := h.inv
  obtain ⟨w, serial⟩ := inv.serial
  obtain ⟨b₀, start⟩ := loadAllProps_implements vacant_fresh load
  have formed : ∀ t, ∃ ph, phaseOf t s.hist = some ph := fun t => ⟨_, inv.hist t⟩
  obtain ⟨b, explains, finish⟩ := serial.replays.explains (P := Request.Proper)
    (R := fun w b => Implements w.mem b) (fun proper h run => whole_permits proper h run)
    (fun p hp => proper _ (invoked_of_effect formed (inv.effects ▸ hp))) start
  exact ⟨w, b₀, b, serial, start, inv.effects ▸ explains, finish⟩

/-- **No step faults** while no call has a file to rewrite. -/
theorem ServiceInv.no_fault [Fintype ι] {w₀ w : World} {s : Service ι} {b : Bindings} (inv : ServiceInv w₀ s)
    (serial : Sections.SerialAt serviceCut w₀ s.sections w) (holds : Implements w.mem b)
    (proper : ∀ r ∈ invoked s.hist, r.Proper) (inMemory : ∀ r ∈ invoked s.hist, r.InMemory) {t : ι} {r : Request}
    {l : Place} (here : s.sections.inside t = some (r, l)) : ∃ out, l.next s.sections.shared = .ok out := by
  have placed := inv.placed t
  rw [here] at placed
  have made : r ∈ invoked s.hist := invoked_of_phase (inv.hist t) (by rw [placed.2.1]; rfl)
  obtain ⟨w', a, returns⟩ := whole_returns (proper r made) (inMemory r made) holds
  cases next : l.next s.sections.shared with
  | ok out => exact ⟨out, rfl⟩
  | error e =>
    have fault := serial.fault here next
    rw [show serviceCut.whole r w = r.whole w from rfl, returns] at fault
    cases fault

/-- **The threads share one map.** After a load, take any interleaving of reads of short keys into empty buffers, down
to the single turns of their loops, and of writes, whose searches, rewrites of the file and calls of `put` are a step
each. The calls that have taken effect answer, in the order of their effects, as one map in an arena of `BLOCKSIZE`
bytes permits, listings included; while nobody writes the store holds that map; and if no name begins with `persist.`,
no step ever faults. -/
theorem threads_share_bindings [Fintype ι] {depth : Nat} {files : Files} {w₀ : World}
    (load : loadAllProps depth ⟨.fresh, files⟩ = .ok w₀) {s : Service ι} (h : Service.Reaches w₀ s)
    (proper : ∀ r ∈ invoked s.hist, r.Proper) :
    ∃ b₀ b, Implements w₀.mem b₀ ∧ Cut.Explains Bindings.Permits (effects s.hist) b₀ b ∧
      ((∀ t, (s.locks.pc t).inSection = true → s.locks.pc t = .getBody) → Implements s.sections.shared.mem b) ∧
      ((∀ r ∈ invoked s.hist, r.InMemory) →
        ∀ t r l, s.sections.inside t = some (r, l) → ∃ out, l.next s.sections.shared = .ok out) := by
  have inv := h.inv
  obtain ⟨w, b₀, b, serial, start, explains, finish⟩ := h.implements load proper
  refine ⟨b₀, b, start, explains, fun readers => ?_, fun inMemory t r l here => ?_⟩
  · rw [serial.present (inv.readers readers)]
    exact finish
  · exact inv.no_fault serial finish proper inMemory here

/-- A call of `set_property`, and then a read and a listing that take turns. -/
theorem threads_share_bindings_three : ∃ (w₀ : World) (s : Service (Fin 3)),
    loadAllProps 1 ⟨.fresh, fun _ => none⟩ = .ok w₀ ∧
    (effects s.hist).map Prod.snd = [.status 0, .read (pad (.lit "1")), .listed [(.lit "a", .lit "1")]] ∧
    ∃ b₀ b, Implements w₀.mem b₀ ∧ Cut.Explains Bindings.Permits (effects s.hist) b₀ b ∧
      ((∀ t, (s.locks.pc t).inSection = true → s.locks.pc t = .getBody) → Implements s.sections.shared.mem b) ∧
      ((∀ r ∈ invoked s.hist, r.InMemory) →
        ∀ t r l, s.sections.inside t = some (r, l) → ∃ out, l.next s.sections.shared = .ok out) := by
  have run : (Service.exec (.call 0 (.set (.lit "a") (.lit "1")) :: List.replicate 6 (.step 0) ++
      .call 1 (.get (97 :: List.replicate 31 0) (pad (.lit "")) none) ::
      .call 2 (.get (List.replicate 32 0) (pad (.lit "")) none) ::
      List.replicate 5 (.step 1) ++ List.replicate 4 (.step 2) ++
      [.step 1, .step 2, .step 1, .step 2, .step 1, .step (2 : Fin 3)])
      (Service.loaded ⟨memoryInit .fresh, fun _ => none⟩)).map
        (fun s => ((effects s.hist).map Prod.snd, invoked s.hist)) =
      some ([.status 0, .read (pad (.lit "1")), .listed [(.lit "a", .lit "1")]],
        [.set (.lit "a") (.lit "1"), .get (97 :: List.replicate 31 0) (pad (.lit "")) none,
          .get (List.replicate 32 0) (pad (.lit "")) none]) := by
    decide +kernel
  obtain ⟨s, exec, same⟩ := Option.map_eq_some_iff.1 run
  obtain ⟨answers, calls⟩ := Prod.mk.inj same
  have load : loadAllProps 1 ⟨.fresh, fun _ => none⟩ = .ok ⟨memoryInit .fresh, fun _ => none⟩ := rfl
  have proper : ∀ r ∈ invoked s.hist, r.Proper := by
    rw [calls]
    simp only [List.forall_mem_cons, Request.Proper]
    exact ⟨trivial, ⟨by decide, by decide, trivial⟩, ⟨by decide, by decide, trivial⟩, nofun⟩
  exact ⟨_, s, load, answers, threads_share_bindings load (Service.Reaches.loaded.exec exec) proper⟩

end CodeBackup.Property
