import CodeBackup.Conc.Schedule
import CodeBackup.Echo.Record
import CodeBackup.Echo.Runs

/-!
# Progress of the echo server

Whatever an orderly run has left behind is echoed in the end. Let the network
have room from some moment on, with nothing new arriving, and let lwIP call the
server only where there is something to do. Then each call lowers a rank: the
pbufs that are still queued, and what the server is about to do. Where no call
is left everything is echoed and freed, and the connection is closed if the peer
has closed (`echo_drains`).
-/

namespace CodeBackup.Echo

open C C.Outcome Counted Run Conc

variable {ι : Type}

/-- Nothing arrives, the network has room, and lwIP calls where something is queued or the peer has closed. -/
def Quiet : Event ι → Connection ι → Prop
  | .turn attempt, _ => attempt.Roomy
  | .sent, c => c.server.p.isSome ∨ c.finished = true
  | .poll, c => c.server.p.isSome ∨ c.finished = true
  | _, _ => False

/-- A quiet event happens. -/
def Drains [DecidableEq ι] (lw : Lwip ι) (c c' : Connection ι) : Prop :=
  ∃ e, Enabled e c ∧ Quiet e c ∧ step lw e c = .ok c'

/-- Everything is echoed, reported as taken and freed; and the connection is closed if the peer has closed. -/
structure Connection.Done (c : Connection ι) : Prop where
  echoed : c.server.echoed = c.received
  recved : c.server.recved = c.received.length
  freed : c.server.pool.freed.Perm c.handed
  closed : c.finished = true → c.server.closed = true ∧ c.server.es = none

/-- The state of the server fits what the peer has done. -/
structure Connection.Follows (c : Connection ι) : Prop where
  closing : c.finished = true → ∀ es, c.server.es = some es → es.state = .esClosing
  closed : c.server.es = none → c.server.closed = true

/-- What an orderly run keeps. -/
structure Connection.Live (c : Connection ι) (q : Pbufs ι) : Prop where
  holds : c.Holds q
  echoes : (c.relay q).Echoes
  accounts : (c.relay q).Accounts
  follows : c.Follows

variable {c c' : Connection ι} {q : Pbufs ι} {e : Event ι} {es : Es ι}

/-! ## The state of the server -/

theorem Connection.Follows.sending (h : c.Follows) (b : Bool) :
    Connection.Follows { c with server := { c.server with sending := b } } := ⟨h.closing, h.closed⟩

theorem Connection.Follows.close (c : Connection ι) :
    Connection.Follows { c with server := tcpEchoserverConnectionClose c.server } where
  closing _ _ some := by cases some
  closed _ := rfl

/-- The record keeps its state. -/
theorem Connection.Follows.record (h : c.Follows) (hes : c.server.es = some es) {s : Server ι} {es' : Es ι}
    (hes' : s.es = some es') (state : es'.state = es.state) : Connection.Follows { c with server := s } where
  closing finished es'' some := by
    cases hes'.symm.trans some
    exact state.trans (h.closing finished es hes)
  closed none := by cases hes'.symm.trans none

theorem follows_poll (h : c.Follows) (hes : c.server.es = some es) :
    Connection.Follows { c with server := tcpEchoserverPoll c.server } := by
  simp only [tcpEchoserverPoll, hes]
  cases es.p with
  | some ptr => exact h.sending true
  | none =>
    by_cases closing : es.state = .esClosing
    · simp only [if_pos closing]
      exact .close c
    · simp only [if_neg closing]
      exact h

/-! ## The rank -/

/-- The pbufs that are queued, and what the server is about to do. -/
def Connection.rank (c : Connection ι) : Nat :=
  match c.server.es with
  | none => 0
  | some es =>
    c.handed.length - c.server.pool.freed.length + if c.server.sending then 2 else if es.p.isSome then 3 else 1

theorem Connection.Live.rank_eq (h : c.Live q) (hes : c.server.es = some es) :
    c.rank = q.length + if c.server.sending then 2 else if es.p.isSome then 3 else 1 := by
  have queued := h.accounts.length_eq
  simp only [Connection.relay, addrs, List.length_append, List.length_map] at queued
  simp only [rank, hes]
  omega

/-- A quiet call starts the loop, or closes the connection. -/
theorem Connection.Live.poll (h : c.Live q) (hes : c.server.es = some es) (idle : c.server.sending = false)
    (due : c.server.p.isSome ∨ c.finished = true) {c' : Connection ι}
    (ret : c' = { c with server := tcpEchoserverPoll c.server }) : c'.rank < c.rank := by
  have pointer : c.server.p = es.p := by simp [Server.p, hes]
  rw [pointer] at due
  simp only [tcpEchoserverPoll, hes] at ret
  cases hp : es.p with
  | some ptr =>
    rw [hp] at ret
    rw [ret]
    simp [rank, startSend, hes, idle, hp]
  | none =>
    have closing : es.state = .esClosing := h.follows.closing (by simpa [hp] using due) es hes
    rw [hp] at ret
    simp only [if_pos closing] at ret
    rw [ret]
    simp [rank, tcpEchoserverConnectionClose, hes, idle, hp]

/-! ## Steps -/

variable [DecidableEq ι] {lw : Lwip ι}

/-- **An orderly step** keeps the state of the server in line with the peer. -/
theorem Connection.Follows.step (h : c.Follows) (hes : c.server.es = some es) (orderly : Orderly e c)
    (ret : step lw e c = .ok c') : c'.Follows := by
  cases e with
  | error => exact orderly.elim
  | poll =>
    cases ret
    exact follows_poll h hes
  | sent =>
    simp only [Echo.step, sent_eq_poll hes, ok_bind] at ret
    cases ret
    exact follows_poll h hes
  | turn attempt =>
    obtain ⟨s', sent, ret⟩ := bind_eq_ok.1 ret
    cases ret
    obtain ⟨es', hes', state, -⟩ := tcpEchoserverSend_record sent hes
    exact h.record hes hes' state
  | recv p err =>
    obtain ⟨s', taken, ret⟩ := bind_eq_ok.1 ret
    cases ret
    cases p with
    | nil =>
      simp only [tcpEchoserverRecv, hes, deref_some, ok_bind] at taken
      cases hp : es.p with
      | none =>
        simp only [hp] at taken
        cases taken
        refine ⟨fun _ _ some => ?_, fun _ => rfl⟩
        cases some
      | some ptr =>
        simp only [hp] at taken
        cases taken
        refine ⟨fun _ _ some => ?_, fun none => ?_⟩
        · cases some
          rfl
        · cases none
    | cons x p =>
      -- the peer has not closed, and the record stays
      have more : (c.finished || (x :: p).isEmpty) = false := by simpa using orderly.1
      obtain ⟨es', hes', -⟩ := recv_record taken hes
      refine ⟨fun finished => absurd (more.symm.trans finished) Bool.false_ne_true, fun none => ?_⟩
      cases hes'.symm.trans none

theorem Connection.Live.keep (h : c.Live q) (hes : c.server.es = some es) (orderly : Orderly e c)
    (ret : step lw e c = .ok c') {q' : Pbufs ι} (holds : c'.Holds q')
    (relayed : Relay.Step (Refuses e c) (c.relay q) (c'.relay q')) : c'.Live q' where
  holds := holds
  echoes := relayed.echoes (orderly.takes h.holds).1 h.echoes
  accounts := relayed.accounts h.accounts
  follows := h.follows.step hes orderly ret

/-- **An orderly step** returns and keeps all of it. -/
theorem Connection.Live.step (counting : lw.Counting) (h : c.Live q) (enabled : Enabled e c) (orderly : Orderly e c) :
    ∃ c' q', Echo.step lw e c = .ok c' ∧ c'.Live q' := by
  obtain ⟨c', q', ret, holds, relayed⟩ :=
    step_relays counting h.holds enabled fun drops => absurd drops (orderly.takes h.holds).2
  obtain ⟨es, hes⟩ := Option.isSome_iff_exists.1 enabled.registered
  exact ⟨c', q', ret, h.keep hes orderly ret holds relayed⟩

/-- A quiet turn of the loop forwards a pbuf, or ends the loop with nothing queued. -/
theorem Connection.Live.turn (counting : lw.Counting) (h : c.Live q) (hes : c.server.es = some es)
    (sending : c.server.sending = true) (attempt : Attempt) (roomy : attempt.Roomy) :
    ∃ c' q', Echo.step lw (.turn attempt) c = .ok c' ∧ c'.Live q' ∧ c'.rank < c.rank := by
  obtain ⟨c', q', ret, holds, relayed, registered, shorter⟩ : Turns _ c q _ := send_turns counting h.holds hes attempt
  have live : c'.Live q' := h.keep hes (show Orderly (.turn attempt) c from trivial) ret holds relayed
  refine ⟨c', q', ret, live, ?_⟩
  obtain ⟨s', sent, e⟩ := bind_eq_ok.1 ret
  obtain ⟨es', hes', -, -, ends⟩ := tcpEchoserverSend_record sent hes
  cases e
  rw [h.rank_eq hes, live.rank_eq hes', if_pos sending]
  cases more : s'.sending with
  | true =>
    have := shorter more
    simp only [if_pos]
    omega
  | false =>
    have null : s'.p = none := ends roomy sending more
    obtain rfl := holds.empty null
    have none : es'.p = none := by simpa [Server.p, hes'] using null
    simp [none]

/-! ## Schedules -/

/-- **A quiet step** lowers the rank. -/
theorem Connection.Live.drains (counting : lw.Counting) (h : c.Live q) (move : Drains lw c c') :
    (∃ q', c'.Live q') ∧ c'.received = c.received ∧ c'.rank < c.rank := by
  obtain ⟨e, enabled, quiet, ret⟩ := move
  obtain ⟨es, hes⟩ := Option.isSome_iff_exists.1 enabled.registered
  cases e with
  | recv => exact quiet.elim
  | error => exact quiet.elim
  | turn attempt =>
    obtain ⟨c₁, q', ret₁, live, lower⟩ := h.turn counting hes enabled.2 attempt quiet
    cases ret₁.symm.trans ret
    obtain ⟨s', -, e⟩ := bind_eq_ok.1 ret
    cases e
    exact ⟨⟨q', live⟩, rfl, lower⟩
  | poll =>
    obtain ⟨c₁, q', ret₁, live⟩ := h.step counting enabled trivial
    cases ret₁.symm.trans ret
    cases ret
    exact ⟨⟨q', live⟩, rfl, h.poll hes enabled.2 quiet rfl⟩
  | sent =>
    obtain ⟨c₁, q', ret₁, live⟩ := h.step counting enabled trivial
    cases ret₁.symm.trans ret
    simp only [Echo.step, sent_eq_poll hes, ok_bind] at ret
    cases ret
    exact ⟨⟨q', live⟩, rfl, h.poll hes enabled.2 quiet rfl⟩

/-- **Where no quiet call is left** everything is done. -/
theorem Connection.Live.done (counting : lw.Counting) (h : c.Live q) (last : ∀ c', ¬ Drains lw c c') : c.Done := by
  have finish (empty : q = []) (closed : c.finished = true → c.server.closed = true ∧ c.server.es = none) : c.Done := by
    have order := h.echoes.order
    have accounts := h.accounts
    simp only [Relay.Accounts, Connection.relay, empty, bytes, addrs, List.flatMap_nil, List.map_nil, List.append_nil]
      at order accounts
    exact ⟨order, h.echoes.recved.trans (congrArg _ order), accounts, closed⟩
  cases hes : c.server.es with
  | none => exact finish (h.holds.empty (Connection.p_none hes)) fun _ => ⟨h.follows.closed hes, hes⟩
  | some es =>
    have registered : c.server.es.isSome := by rw [hes]; rfl
    cases sending : c.server.sending with
    | true =>
      obtain ⟨c', -, ret, -⟩ := h.turn counting hes sending ⟨2 ^ 16, .ok⟩ ⟨by decide, rfl⟩
      exact absurd ⟨.turn ⟨2 ^ 16, .ok⟩, ⟨registered, sending⟩, ⟨by decide, rfl⟩, ret⟩ (last c')
    | false =>
      have idle (due : c.server.p.isSome ∨ c.finished = true) : False :=
        last _ ⟨.poll, ⟨registered, sending⟩, due, rfl⟩
      have null : c.server.p = none := by
        by_contra some
        exact idle (.inl (Option.ne_none_iff_isSome.1 some))
      exact finish (h.holds.empty null) fun finished => (idle (.inr finished)).elim

/-- **What is queued is echoed in the end.** After any orderly run, let the network have room and nothing more arrive.
Then the server is never stuck: every schedule of the calls that have something to do ends, and where it ends all that
was received is echoed and reported as taken, every pbuf is freed, and if the peer has closed, so is the connection. -/
theorem echo_drains (counting : lw.Counting) {events : List (Event ι)}
    (orderly : Meets (step lw) (fun e c => Enabled e c ∧ Orderly e c) events accepted) :
    ∃ c, run (step lw) events accepted = .ok c ∧ Ends (Drains lw) (fun c' => c'.Done ∧ c'.received = c.received) c := by
  have keep : ∀ e (c : Connection ι), (∃ q, c.Live q) → Enabled e c ∧ Orderly e c →
      ∃ c', step lw e c = .ok c' ∧ ∃ q, c'.Live q := by
    rintro e c ⟨q, h⟩ ⟨enabled, orderly⟩
    obtain ⟨c', q', ret, h'⟩ := h.step counting enabled orderly
    exact ⟨c', ret, q', h'⟩
  have follows : (accepted : Connection ι).Follows := by
    refine ⟨fun finished => ?_, fun none => ?_⟩
    · cases finished
    · cases none
  have start : (accepted : Connection ι).Live [] := ⟨accepted_holds, ⟨rfl, rfl⟩, List.Perm.refl _, follows⟩
  obtain ⟨c, ret, q, h⟩ := run_total keep ⟨[], start⟩ orderly
  refine ⟨c, ret, ends_of_rank (I := fun c' => (∃ q, c'.Live q) ∧ c'.received = c.received) Connection.rank ?_ ?_ ?_⟩
  · rintro c₁ c₂ ⟨⟨q₁, h₁⟩, same⟩ move
    obtain ⟨live, received, lower⟩ := h₁.drains counting move
    exact ⟨⟨live, received.trans same⟩, lower⟩
  · rintro c₁ ⟨⟨q₁, h₁⟩, same⟩ last
    exact ⟨h₁.done counting last, same⟩
  · exact ⟨⟨q, h⟩, rfl⟩

/-- Data, more data while the send buffer is full, and the end: three pbufs are left. -/
theorem echo_drains_full : ∃ c, run (step (Lwip.plain 3))
    [.recv [pbuf 0 104, pbuf 1 105] .ok, .turn ⟨0, .ok⟩, .recv [pbuf 2 33] .ok, .recv [] .ok] accepted = .ok c ∧
      Ends (Drains (Lwip.plain 3)) (fun c' => c'.Done ∧ c'.received = c.received) c :=
  echo_drains (Lwip.plain_counting 3) (by decide)

end CodeBackup.Echo
