import CodeBackup.Echo.Record
import CodeBackup.Echo.Runs

/-!
# The server under faults

Runs in which lwIP may also report errors, hand out data after the peer has
closed, and break the connection. The server then drops what is queued, and
loses the pbufs; but it does nothing worse (`echo_safe`): no call uses a freed
pbuf or record, no pbuf is freed twice, and what goes out is what came in, in
order, less what was dropped. Its one access outside an object is the `printf`
of the first data, whose copy has no terminator.
-/

namespace CodeBackup.Echo

open C C.Outcome Counted Run

variable {ι : Type}

/-- What went out and what is queued came in, in this order; not more was reported as taken than came in; and no pbuf
was freed, or is queued, more often than it was handed over. -/
structure Relay.Sound (r : Relay ι) : Prop where
  order : (r.echoed ++ bytes r.queue).Sublist r.received
  recved : r.recved + (bytes r.queue).length ≤ r.received.length
  freed : (r.freed ++ addrs r.queue).Subperm r.handed

section

variable {r r' : Relay ι} {refuses : Prop}

theorem Relay.Step.sound (step : Relay.Step refuses r r') (takes : ¬ refuses) (h : r.Sound) : r'.Sound := by
  cases step with
  | stay => exact h
  | enqueue p =>
    refine ⟨?_, ?_, ?_⟩
    · simp only [bytes, List.flatMap_append, ← List.append_assoc]
      exact h.order.append_right _
    · have := h.recved
      simp only [bytes, List.flatMap_append, List.length_append] at this ⊢
      omega
    · simp only [addrs, List.map_append, ← List.append_assoc]
      exact List.Subperm.append h.freed (List.Subperm.refl _)
  | forward a d q head =>
    refine ⟨?_, ?_, ?_⟩
    · simpa only [head, bytes, List.flatMap_cons, List.append_assoc] using h.order
    · have := h.recved
      simp only [head, bytes, List.flatMap_cons, List.length_append, Payload.len] at this ⊢
      omega
    · simpa only [head, addrs, List.map_cons, List.append_assoc, List.singleton_append] using h.freed
  | refuse p n refused _ => exact absurd refused takes

/-- What arrives is freed, and what was queued is lost. -/
theorem Relay.Sound.drop (h : r.Sound) (p : Pbufs ι) {n : Nat} (le : n ≤ (bytes p).length) :
    Relay.Sound
      { r with
        queue := []
        freed := r.freed ++ addrs p
        handed := r.handed ++ addrs p
        received := r.received ++ bytes p
        recved := r.recved + n } where
  order := by
    simp only [bytes, List.flatMap_nil, List.append_nil]
    exact (List.sublist_append_left _ _).trans (h.order.trans (List.sublist_append_left _ _))
  recved := by
    have := h.recved
    simp only [bytes, List.flatMap_nil, List.length_nil, List.length_append] at this le ⊢
    omega
  freed := by
    simp only [addrs, List.map_nil, List.append_nil]
    exact List.Subperm.append ((List.sublist_append_left _ _).subperm.trans h.freed) (List.Subperm.refl _)

end

theorem totLen_le (q : Pbufs ι) : totLen q ≤ (bytes q).length := Nat.mod_le _ _

variable [DecidableEq ι] {lw : Lwip ι} {c : Connection ι} {q : Pbufs ι} {e : Event ι}

/-- After a call that drops the queue nothing is queued, and only what was just handed over is freed. -/
theorem drop_sound (counting : lw.Counting) (h : c.Holds q) (sound : (c.relay q).Sound) (enabled : Enabled e c)
    (drops : Drops e c) : ∃ c', step lw e c = .ok c' ∧ c'.Holds [] ∧ (c'.relay []).Sound := by
  cases e with
  | sent => exact drops.elim
  | poll => exact drops.elim
  | turn => exact drops.elim
  | error =>
    obtain ⟨es, hes⟩ := Option.isSome_iff_exists.1 enabled.1
    simp only [step, tcpEchoserverError, hes]
    refine ⟨_, rfl, holds_of_none rfl fun closed => (h.closed closed).2, ?_⟩
    have dropped := sound.drop [] (Nat.zero_le 0)
    simpa only [Connection.relay, bytes, addrs, List.flatMap_nil, List.map_nil, List.append_nil, Nat.add_zero] using
      dropped
  | recv p err =>
    cases p with
    | nil => exact drops.elim
    | cons x p =>
      obtain ⟨a, d⟩ := x
      obtain ⟨registered, -, fresh⟩ := enabled
      obtain ⟨es, hes⟩ := Option.isSome_iff_exists.1 registered
      have freed := pbufFree_handed counting fresh
      -- with either reason the record stays, and its pointer is null
      have holds : ∀ n, Connection.Holds
          { server :=
              { c.server with
                es := some { es with p := none }
                recved := c.server.recved + n
                pool := (lw.pbufFree (c.server.pool.hand ((a, d) :: p)) a).1 }
            received := c.received ++ bytes ((a, d) :: p)
            handed := c.handed ++ addrs ((a, d) :: p)
            finished := c.finished } [] := by
        refine fun n => ⟨rfl, fun _ _ _ => rfl, ?_, ?_, fun closed => absurd closed (h.open hes)⟩
        · rintro _ ⟨⟩
          exact h.known es hes
        · rintro _ ⟨⟩
          exact h.closing es hes
      simp only [step, tcpEchoserverRecv, hes, deref_some, ok_bind, List.isEmpty_cons, Bool.or_false]
      by_cases bad : err ≠ .ok
      · simp only [if_pos bad, handed_alive, ok_bind]
        refine ⟨_, rfl, holds 0, ?_⟩
        have dropped := sound.drop ((a, d) :: p) (Nat.zero_le _)
        simpa only [Connection.relay, freed, Nat.add_zero] using dropped
      · have closing : es.state = .esClosing := by simpa [hes] using drops.resolve_left bad
        simp only [if_neg bad, closing, handed_alive, ok_bind]
        refine ⟨_, rfl, closing ▸ holds (totLen ((a, d) :: p)), ?_⟩
        have dropped := sound.drop ((a, d) :: p) (totLen_le _)
        simpa only [Connection.relay, freed] using dropped

/-- **A step**, whatever lwIP reports, returns and keeps the relay sound. -/
theorem step_sound (counting : lw.Counting) (h : c.Holds q) (sound : (c.relay q).Sound) (enabled : Enabled e c) :
    ∃ c' q', step lw e c = .ok c' ∧ c'.Holds q' ∧ (c'.relay q').Sound := by
  by_cases drops : Drops e c
  · obtain ⟨c', ret, h', sound'⟩ := drop_sound counting h sound enabled drops
    exact ⟨c', [], ret, h', sound'⟩
  · have takes : ¬ Refuses e c := by
      intro refuses
      cases e with
      | recv => exact drops refuses
      | _ => exact refuses
    obtain ⟨c', q', ret, h', relayed⟩ := step_relays counting h enabled fun dropped => absurd dropped drops
    exact ⟨c', q', ret, h', relayed.sound takes sound⟩

/-- **The server is safe but for one `printf`**, whatever lwIP reports: in any order of the callbacks and with any
answers of the network, errors and data after the end included, every call returns, so none uses a freed pbuf or record,
and the loop that frees a pbuf ends. What goes out came in, in order; not more is reported as taken than came in; no
pbuf is freed more often than it was handed over; and the connection is closed only after the peer has closed, with its
record. Every `printf` of the data stays inside its copy exactly if the first data, whose copy alone has no terminator,
has a NUL in it. -/
theorem echo_safe (counting : lw.Counting) {events : List (Event ι)}
    (enabled : Meets (step lw) Enabled events accepted) :
    ∃ c, run (step lw) events accepted = .ok c ∧ c.server.echoed.Sublist c.received ∧
      c.server.recved ≤ c.received.length ∧ c.server.pool.freed.Subperm c.handed ∧
      (c.server.closed = true → c.server.es = none ∧ c.finished = true) ∧
      (Whole c.server.printed ↔ ∀ d, firstData events = some d → 0 ∈ d.bytes) := by
  have keep : ∀ e (c : Connection ι), (∃ q, c.Holds q ∧ (c.relay q).Sound) → Enabled e c →
      ∃ c', step lw e c = .ok c' ∧ ∃ q, c'.Holds q ∧ (c'.relay q).Sound := by
    rintro e c ⟨q, h, sound⟩ enabled
    obtain ⟨c', q', ret, h', sound'⟩ := step_sound counting h sound enabled
    exact ⟨c', ret, q', h', sound'⟩
  have start : ((accepted : Connection ι).relay []).Sound := ⟨List.Sublist.refl _, le_rfl, List.Subperm.refl _⟩
  obtain ⟨c, ret, q, h, sound⟩ := run_total keep ⟨[], accepted_holds, start⟩ enabled
  refine ⟨c, ret, ?_, ?_, ?_, h.closed, run_whole_iff enabled ret⟩
  · exact (List.sublist_append_left _ _).trans sound.order
  · exact (Nat.le_add_right _ _).trans sound.recved
  · exact (List.sublist_append_left _ _).subperm.trans sound.freed

/-- The first data has no NUL, and is printed from a copy that does not end. -/
theorem echo_safe_late : ∃ c, run (step (Lwip.plain 3)) late accepted = .ok c ∧ c.server.echoed.Sublist c.received ∧
    c.server.recved ≤ c.received.length ∧ c.server.pool.freed.Subperm c.handed ∧
    (c.server.closed = true → c.server.es = none ∧ c.finished = true) ∧
    (Whole c.server.printed ↔ ∀ d, firstData late = some d → 0 ∈ d.bytes) ∧ ¬ Whole c.server.printed := by
  have enabled : Meets (step (Lwip.plain 3)) Enabled late accepted := by decide
  obtain ⟨c, ret, echoed, recved, freed, closed, printed⟩ := echo_safe (Lwip.plain_counting 3) enabled
  refine ⟨c, ret, echoed, recved, freed, closed, printed, fun whole => ?_⟩
  have nul : (0 : UInt8) ∈ [104] := printed.1 whole _ rfl
  exact absurd nul (by decide)

end CodeBackup.Echo
