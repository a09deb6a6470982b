import CodeBackup.Echo.Relay

/-!
# The record of the connection

What a call does to the record, and what it prints (`recv_record`,
`tcpEchoserverSend_record`). The record waits for the first data once, and only
then a copy without a terminator is printed; so in a whole run the texts that
were printed are that copy, if data came, and texts that end inside theirs
(`run_prints`).
-/

namespace CodeBackup.Echo

open C C.Outcome Run

/-- There is room for any pbuf, and `tcp_write` takes it. -/
structure Attempt.Roomy (attempt : Attempt) : Prop where
  room : 2 ^ 16 ≤ attempt.sndbuf + 1
  write : attempt.write = .ok

variable {ι : Type} {lw : Lwip ι}

/-- `printf` stays inside the copies. -/
def Whole (texts : List (Outcome CStr)) : Prop := ∀ text ∈ texts, ∃ s, text = .ok s

theorem Whole.append {texts texts' : List (Outcome CStr)} : Whole (texts ++ texts') ↔ Whole texts ∧ Whole texts' :=
  List.forall_mem_append

/-- A copy with a terminator. -/
theorem whole_terminated (d : Payload) : Whole [Buf.str (d.bytes ++ [0]) 0] := by
  simp [Whole, Buf.str]

/-- The copy of the first data ends inside itself exactly if the data has a NUL. -/
theorem whole_first (d : Payload) : Whole [Buf.str d.bytes 0] ↔ 0 ∈ d.bytes := by
  by_cases nul : 0 ∈ d.bytes <;> simp [Whole, Buf.str, nul]

/-! ## One call -/

section

variable {s s' : Server ι} {es : Es ι} {attempt : Attempt}

/-- **Data that arrives** leaves the record. The first of it is printed without a terminator. -/
theorem recv_record {x : ι × Payload} {p : Pbufs ι} {err : Err}
    (ret : tcpEchoserverRecv lw (x :: p) err s = .ok s') (hes : s.es = some es) : ∃ es', s'.es = some es' ∧
      if err = .ok ∧ es.state = .esAccepted then
        es'.state = .esReceived ∧ s'.printed = s.printed ++ [Buf.str x.2.bytes 0]
      else es'.state = es.state ∧
        ∃ texts, s'.printed = s.printed ++ texts ∧ Whole texts ∧ (es.state = .esAccepted → texts = []) := by
  have nothing : ∀ state : State, ∃ texts, s.printed = s.printed ++ texts ∧ Whole texts ∧
      (state = .esAccepted → texts = []) := fun _ => ⟨[], (List.append_nil _).symm, by simp [Whole], fun _ => rfl⟩
  simp only [tcpEchoserverRecv, hes, deref_some, ok_bind] at ret
  by_cases bad : err ≠ .ok
  · rw [if_pos bad] at ret
    obtain ⟨-, -, ret⟩ := bind_eq_ok.1 ret
    cases ret
    exact ⟨_, rfl, by rw [if_neg fun first => bad first.1]; exact ⟨rfl, nothing _⟩⟩
  · rw [if_neg bad] at ret
    obtain ⟨state, ptr⟩ := es
    cases state with
    | esAccepted =>
      obtain ⟨-, -, ret⟩ := bind_eq_ok.1 ret
      cases ret
      exact ⟨_, rfl, by rw [if_pos ⟨not_not.1 bad, rfl⟩]; exact ⟨rfl, rfl⟩⟩
    | esReceived =>
      cases ptr with
      | none =>
        obtain ⟨-, -, ret⟩ := bind_eq_ok.1 ret
        cases ret
        exact ⟨_, rfl, by rw [if_neg (by simp)]; exact ⟨rfl, _, rfl, whole_terminated x.2, by simp⟩⟩
      | some ptr =>
        obtain ⟨-, -, ret⟩ := bind_eq_ok.1 ret
        cases ret
        exact ⟨_, rfl, by rw [if_neg (by simp)]; exact ⟨rfl, nothing _⟩⟩
    | _ =>
      obtain ⟨-, -, ret⟩ := bind_eq_ok.1 ret
      cases ret
      exact ⟨_, rfl, by rw [if_neg (by simp)]; exact ⟨rfl, nothing _⟩⟩

/-- **A turn** keeps the state of the record, and prints nothing. If there is room, the loop ends only where nothing is
queued. -/
theorem tcpEchoserverSend_record (ret : tcpEchoserverSend lw attempt s = .ok s') (hes : s.es = some es) :
    ∃ es', s'.es = some es' ∧ es'.state = es.state ∧ s'.printed = s.printed ∧
      (attempt.Roomy → s.sending = true → s'.sending = false → s'.p = none) := by
  simp only [tcpEchoserverSend, hes, deref_some, ok_bind] at ret
  cases hp : es.p with
  | none =>
    rw [hp] at ret
    cases ret
    exact ⟨es, rfl, rfl, rfl, fun _ _ _ => hp⟩
  | some ptr =>
    rw [hp] at ret
    obtain ⟨-, -, ret⟩ := bind_eq_ok.1 ret
    by_cases room : (s.pool.data ptr).len ≤ attempt.sndbuf
    · rw [if_pos room] at ret
      cases write : attempt.write with
      | ok =>
        rw [write] at ret
        obtain ⟨pool, -, ret⟩ := bind_eq_ok.1 ret
        obtain ⟨pool', -, ret⟩ := bind_eq_ok.1 ret
        cases ret
        exact ⟨_, rfl, rfl, rfl, fun _ sending stopped => absurd (sending.symm.trans stopped) Bool.noConfusion⟩
      | mem =>
        rw [write] at ret
        cases ret
        refine ⟨_, rfl, rfl, rfl, fun roomy _ _ => ?_⟩
        cases write.symm.trans roomy.write
      | other =>
        rw [write] at ret
        cases ret
        refine ⟨es, rfl, rfl, rfl, fun roomy _ _ => ?_⟩
        cases write.symm.trans roomy.write
    · rw [if_neg room] at ret
      cases ret
      refine ⟨es, rfl, rfl, rfl, fun roomy _ _ => absurd ?_ room⟩
      have := roomy.room
      have : (s.pool.data ptr).len < 2 ^ 16 := (s.pool.data ptr).len_lt
      omega

/-- `tcp_echoserver_sent` does what `tcp_echoserver_poll` does. -/
theorem sent_eq_poll {s : Server ι} (hes : s.es = some es) : tcpEchoserverSent s = .ok (tcpEchoserverPoll s) := by
  simp only [tcpEchoserverSent, tcpEchoserverPoll, hes, deref_some, ok_bind]
  cases es.p with
  | some ptr => rfl
  | none => rfl

/-- A poll prints nothing, and keeps the record or frees one that is closing. -/
theorem poll_record (hes : s.es = some es) : (tcpEchoserverPoll s).printed = s.printed ∧
    ((tcpEchoserverPoll s).es = some es ∨ (tcpEchoserverPoll s).es = none ∧ es.state = .esClosing) := by
  simp only [tcpEchoserverPoll, hes]
  cases es.p with
  | some ptr => exact ⟨rfl, .inl hes⟩
  | none =>
    by_cases closing : es.state = .esClosing
    · rw [if_pos closing]
      exact ⟨rfl, .inr ⟨rfl, closing⟩⟩
    · rw [if_neg closing]
      exact ⟨rfl, .inl hes⟩

end

/-! ## Runs -/

/-- The record waits for the first data. -/
def Connection.Waiting (c : Connection ι) : Prop := ∃ es, c.server.es = some es ∧ es.state = .esAccepted

/-- The event ends the wait for the first data: with the data, or without. -/
def Event.first : Event ι → Option (Option Payload)
  | .recv ((_, d) :: _) .ok => some (some d)
  | .recv [] _ => some none
  | .error => some none
  | _ => none

/-- The pbuf whose arrival ends the wait. -/
def firstData (events : List (Event ι)) : Option Payload := (events.findSome? Event.first).join

variable {c c' : Connection ι} {e : Event ι} {es : Es ι}

theorem Connection.waiting_iff (hes : c.server.es = some es) : c.Waiting ↔ es.state = .esAccepted := by
  simp [Waiting, hes]

theorem Connection.not_waiting (hes : c.server.es = none) : ¬ c.Waiting := by
  simp [Waiting, hes]

/-- What a step prints, and whether the record then waits. -/
inductive Prints (e : Event ι) (c c' : Connection ι) : Prop where
  | waits (before : c.Waiting) (after : c'.Waiting) (on : e.first = none)
      (same : c'.server.printed = c.server.printed)
  | ends (before : c.Waiting) (after : ¬ c'.Waiting) (d : Option Payload) (first : e.first = some d)
      (printed : c'.server.printed = c.server.printed ++ (d.map fun d => Buf.str d.bytes 0).toList)
  | later (before : ¬ c.Waiting) (after : ¬ c'.Waiting) (texts : List (Outcome CStr))
      (printed : c'.server.printed = c.server.printed ++ texts) (whole : Whole texts)

/-- A call that keeps the record, and prints nothing. -/
theorem Prints.keep {es' : Es ι} (hes : c.server.es = some es) (hes' : c'.server.es = some es')
    (state : es'.state = es.state) (same : c'.server.printed = c.server.printed) (on : e.first = none) :
    Prints e c c' := by
  by_cases waiting : es.state = .esAccepted
  · exact .waits ((c.waiting_iff hes).2 waiting) ((c'.waiting_iff hes').2 (state.trans waiting)) on same
  · have after : ¬ c'.Waiting := fun h => waiting (state.symm.trans ((c'.waiting_iff hes').1 h))
    exact .later (fun h => waiting ((c.waiting_iff hes).1 h)) after [] (by rw [same, List.append_nil]) (by simp [Whole])

/-- A call after which the record does not wait, and that prints nothing. -/
theorem Prints.finish (closing : ∀ es', c'.server.es = some es' → es'.state ≠ .esAccepted)
    (same : c'.server.printed = c.server.printed) (first : e.first = some none) : Prints e c c' := by
  have after : ¬ c'.Waiting := fun ⟨es', hes', waiting⟩ => closing es' hes' waiting
  have printed : c'.server.printed = c.server.printed ++ [] := by rw [same, List.append_nil]
  by_cases waiting : c.Waiting
  · exact .ends waiting after none first printed
  · exact .later waiting after [] printed (by simp [Whole])

theorem prints_poll (hes : c.server.es = some es) (on : e.first = none) :
    Prints e c { c with server := tcpEchoserverPoll c.server } := by
  obtain ⟨same, kept | ⟨gone, closing⟩⟩ := poll_record hes
  · exact .keep hes kept rfl same on
  · refine .later ?_ (Connection.not_waiting gone) [] (by simpa using same) (by simp [Whole])
    rw [c.waiting_iff hes, closing]
    exact State.noConfusion

variable [DecidableEq ι]

/-- A `recv` of no pbuf closes: a record that waited is freed, or waits no more. -/
theorem prints_recv_nil {lw : Lwip ι} {err : Err} (ret : step lw (.recv [] err) c = .ok c')
    (hes : c.server.es = some es) : Prints (.recv [] err) c c' := by
  obtain ⟨s', taken, ret⟩ := bind_eq_ok.1 ret
  cases ret
  simp only [tcpEchoserverRecv, hes, deref_some, ok_bind] at taken
  cases hp : es.p with
  | none =>
    rw [hp] at taken
    cases taken
    exact .finish (by rintro _ ⟨⟩) rfl rfl
  | some ptr =>
    rw [hp] at taken
    cases taken
    refine .finish ?_ rfl rfl
    rintro _ ⟨⟩
    exact State.noConfusion

/-- Data that arrives ends the wait, unless it comes with an error. -/
theorem prints_recv_data {lw : Lwip ι} {x : ι × Payload} {p : Pbufs ι} {err : Err}
    (ret : step lw (.recv (x :: p) err) c = .ok c') (hes : c.server.es = some es) :
    Prints (.recv (x :: p) err) c c' := by
  obtain ⟨s', taken, ret⟩ := bind_eq_ok.1 ret
  cases ret
  obtain ⟨es', hes', how⟩ := recv_record taken hes
  by_cases first : err = .ok ∧ es.state = .esAccepted
  · rw [if_pos first] at how
    obtain ⟨rfl, waiting⟩ := first
    obtain ⟨received, printed⟩ := how
    refine .ends ((c.waiting_iff hes).2 waiting) ?_ (some x.2) rfl printed
    rw [Connection.waiting_iff hes', received]
    exact State.noConfusion
  · rw [if_neg first] at how
    obtain ⟨state, texts, printed, whole, silent⟩ := how
    by_cases waiting : es.state = .esAccepted
    · refine .keep hes hes' state (by rw [printed, silent waiting, List.append_nil]) ?_
      cases err with
      | ok => exact absurd ⟨rfl, waiting⟩ first
      | mem => rfl
      | other => rfl
    · refine .later ?_ ?_ texts printed whole
      · rwa [c.waiting_iff hes]
      · rwa [Connection.waiting_iff hes', state]

/-- **A step** of a registered connection. -/
theorem step_prints {lw : Lwip ι} (enabled : c.server.es.isSome) (ret : step lw e c = .ok c') : Prints e c c' := by
  obtain ⟨es, hes⟩ := Option.isSome_iff_exists.1 enabled
  cases e with
  | sent =>
    simp only [step, sent_eq_poll hes, ok_bind] at ret
    cases ret
    exact prints_poll hes rfl
  | poll =>
    cases ret
    exact prints_poll hes rfl
  | turn attempt =>
    obtain ⟨s', sent, ret⟩ := bind_eq_ok.1 ret
    cases ret
    obtain ⟨es', hes', state, same, -⟩ := tcpEchoserverSend_record sent hes
    exact .keep hes hes' state same rfl
  | error =>
    simp only [step, tcpEchoserverError, hes] at ret
    cases ret
    exact .finish (by rintro _ ⟨⟩) rfl rfl
  | recv p err =>
    cases p with
    | nil => exact prints_recv_nil ret hes
    | cons x p => exact prints_recv_data ret hes

/-- After the first data, nothing is printed but texts that end inside their copies. -/
theorem run_prints_later {lw : Lwip ι} : ∀ {events : List (Event ι)} {c c' : Connection ι}, ¬ c.Waiting →
    Meets (step lw) Enabled events c → run (step lw) events c = .ok c' →
    ∃ texts, c'.server.printed = c.server.printed ++ texts ∧ Whole texts
  | [], c, c', _, _, ret => by
    cases ret
    exact ⟨[], (List.append_nil _).symm, by simp [Whole]⟩
  | e :: events, c, c', before, meets, ret => by
    obtain ⟨c₁, ret₁, rest⟩ := bind_eq_ok.1 ret
    cases step_prints meets.1.registered ret₁ with
    | waits waiting => exact absurd waiting before
    | ends waiting => exact absurd waiting before
    | later _ after texts printed whole =>
      obtain ⟨texts', printed', whole'⟩ := run_prints_later after (meets.2 c₁ ret₁) rest
      exact ⟨texts ++ texts', by rw [printed', printed, List.append_assoc], Whole.append.2 ⟨whole, whole'⟩⟩

/-- **A run** prints the first data without a terminator, if it comes, and nothing else of this kind. -/
theorem run_prints {lw : Lwip ι} : ∀ {events : List (Event ι)} {c c' : Connection ι}, c.Waiting →
    Meets (step lw) Enabled events c → run (step lw) events c = .ok c' →
    ∃ texts, c'.server.printed =
      c.server.printed ++ ((firstData events).map fun d => Buf.str d.bytes 0).toList ++ texts ∧ Whole texts
  | [], c, c', _, _, ret => by
    cases ret
    exact ⟨[], by simp [firstData], by simp [Whole]⟩
  | e :: events, c, c', before, meets, ret => by
    obtain ⟨c₁, ret₁, rest⟩ := bind_eq_ok.1 ret
    cases step_prints meets.1.registered ret₁ with
    | waits _ after on same =>
      obtain ⟨texts, printed, whole⟩ := run_prints after (meets.2 c₁ ret₁) rest
      refine ⟨texts, ?_, whole⟩
      rw [printed, same, firstData, firstData, List.findSome?_cons, on]
    | ends _ after d first printed =>
      obtain ⟨texts, printed', whole⟩ := run_prints_later after (meets.2 c₁ ret₁) rest
      refine ⟨texts, ?_, whole⟩
      rw [printed', printed, firstData, List.findSome?_cons, first]
      rfl
    | later notBefore => exact absurd before notBefore

/-- **Every `printf` of a connection stays inside its copy** exactly if the first data has a NUL, or never comes. -/
theorem run_whole_iff {lw : Lwip ι} {events : List (Event ι)} {c : Connection ι}
    (meets : Meets (step lw) Enabled events accepted) (ret : run (step lw) events accepted = .ok c) :
    Whole c.server.printed ↔ ∀ d, firstData events = some d → 0 ∈ d.bytes := by
  have waiting : (accepted : Connection ι).Waiting := ⟨_, rfl, rfl⟩
  obtain ⟨texts, printed, whole⟩ := run_prints waiting meets ret
  rw [printed, Whole.append, and_iff_left whole]
  cases first : firstData events with
  | none => simp [accepted, Whole]
  | some d =>
    have only : Whole [Buf.str d.bytes 0] ↔ 0 ∈ d.bytes := whole_first d
    simpa [accepted] using only

end CodeBackup.Echo
