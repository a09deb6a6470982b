import CodeBackup.Echo.Relay

/-!
# Runs of the echo server

For any order of the callbacks, any chains that arrive, and any answers of the
network. While lwIP reports no errors and hands out nothing after the peer has
closed, the server echoes exactly what it receives (`echo_exact`). A pbuf is lost
exactly by a call that drops a queue which is not empty (`step_accounts_iff`),
and a run without such a call accounts for all pbufs (`run_accounts`).
-/

namespace CodeBackup.Echo

open C C.Outcome Counted Run

variable {ι : Type}

/-- lwIP reports no error, and hands out nothing after the peer has closed. -/
def Orderly : Event ι → Connection ι → Prop
  | .recv p err, c => c.finished = false ∧ (p ≠ [] → err = .ok)
  | .error, _ => False
  | _, _ => True

instance : ∀ (e : Event ι) (c : Connection ι), Decidable (Orderly e c)
  | .recv [] _, _ => decidable_of_iff (_ = false) ⟨fun h => ⟨h, fun ne => absurd rfl ne⟩, fun h => h.1⟩
  | .recv (_ :: _) _, _ =>
    decidable_of_iff (_ = false ∧ _) ⟨fun h => ⟨h.1, fun _ => h.2⟩, fun h => ⟨h.1, h.2 (List.cons_ne_nil _ _)⟩⟩
  | .error, _ => isFalse id
  | .sent, _ => isTrue trivial
  | .poll, _ => isTrue trivial
  | .turn _, _ => isTrue trivial

/-- What is queued at `es->p` has not been freed, and is what is left to be echoed; what was
echoed is reported as taken; and the connection is closed only when all is done. -/
def Connection.Exact (c : Connection ι) : Prop :=
  ∃ q, c.server.pool.At c.server.p q ∧ c.server.echoed ++ bytes q = c.received ∧
    c.server.recved = c.server.echoed.length ∧
    (c.server.closed = true → c.finished = true ∧ c.server.echoed = c.received)

/-- Each pbuf that was handed over is alive in the chain at `es->p`, or was freed once; and all of
them were freed when the record was. -/
def Connection.Accounted (c : Connection ι) : Prop :=
  ∃ q, c.server.pool.At c.server.p q ∧ (c.server.pool.freed ++ addrs q).Perm c.handed ∧
    (c.server.es = none → c.server.pool.freed.Perm c.handed)

variable {lw : Lwip ι} {c : Connection ι} {q : Pbufs ι} {e : Event ι}

theorem Connection.p_none (hes : c.server.es = none) : c.server.p = none := by
  simp [Server.p, hes]

theorem Connection.Holds.accounted (h : c.Holds q) (accounts : (c.relay q).Accounts) : c.Accounted := by
  refine ⟨q, h.queue, accounts, fun hes => ?_⟩
  obtain rfl := h.empty (Connection.p_none hes)
  simpa only [Relay.Accounts, Connection.relay, addrs, List.map_nil, List.append_nil] using accounts

theorem Connection.Holds.exact (h : c.Holds q) (echoes : (c.relay q).Echoes) : c.Exact := by
  refine ⟨q, h.queue, echoes.order, echoes.recved, fun closed => ?_⟩
  obtain ⟨hes, finished⟩ := h.closed closed
  obtain rfl := h.empty (Connection.p_none hes)
  exact ⟨finished, by simpa [bytes, Connection.relay] using echoes.order⟩

/-- An orderly event is not refused, and drops nothing. -/
theorem Orderly.takes (h : c.Holds q) (orderly : Orderly e c) : ¬ Refuses e c ∧ ¬ Drops e c := by
  have takes : ¬ Refuses e c := by
    intro refuses
    cases e with
    | recv p err =>
      cases p with
      | nil => exact refuses
      | cons x p =>
        obtain ⟨more, good⟩ := orderly
        rcases refuses with bad | closing
        · exact bad (good (List.cons_ne_nil _ _))
        · obtain ⟨es, hes, closing⟩ := Option.map_eq_some_iff.1 closing
          exact absurd (h.closing es hes closing) (by simp [more])
    | sent => exact refuses
    | poll => exact refuses
    | error => exact refuses
    | turn => exact refuses
  refine ⟨takes, fun drops => ?_⟩
  cases e with
  | error => exact orderly
  | recv => exact takes drops
  | sent => exact takes drops
  | poll => exact takes drops
  | turn => exact takes drops

variable [DecidableEq ι]

/-- The loop of `tcp_echoserver_send` ends: one turn for each pbuf, and one more, are enough. -/
theorem send_ends (counting : lw.Counting) (h : c.Holds q) (registered : c.server.es.isSome)
    {attempts : List Attempt} (enough : q.length < attempts.length) :
    ∃ now later c', attempts = now ++ later ∧ run (step lw) (now.map .turn) c = .ok c' ∧
      c'.server.sending = false := by
  induction attempts generalizing c q with
  | nil => cases enough
  | cons attempt attempts ih =>
    obtain ⟨es, hes⟩ := Option.isSome_iff_exists.1 registered
    obtain ⟨c₁, q₁, ret, h₁, -, registered₁, shorter⟩ : Turns False c q _ := send_turns counting h hes attempt
    cases more : c₁.server.sending with
    | false => exact ⟨[attempt], attempts, c₁, rfl, by simp [run, ret], more⟩
    | true =>
      have enough₁ : q₁.length < attempts.length := by
        have := shorter more
        simp only [List.length_cons] at enough
        omega
      obtain ⟨now, later, c', rfl, rest, done⟩ := ih h₁ registered₁ enough₁
      exact ⟨attempt :: now, later, c', rfl, by simpa [run, ret] using rest, done⟩

/-- **The server echoes exactly what it receives**, and closes when all of it is echoed. -/
theorem echo_exact (counting : lw.Counting) {events : List (Event ι)}
    (orderly : Meets (step lw) (fun e c => Enabled e c ∧ Orderly e c) events accepted) :
    ∃ c, run (step lw) events accepted = .ok c ∧ c.Exact := by
  have keep : ∀ e (c : Connection ι), (∃ q, c.Holds q ∧ (c.relay q).Echoes) → Enabled e c ∧ Orderly e c →
      ∃ c', step lw e c = .ok c' ∧ ∃ q, c'.Holds q ∧ (c'.relay q).Echoes := by
    rintro e c ⟨q, h, echoes⟩ ⟨enabled, orderly⟩
    obtain ⟨takes, keeps⟩ := orderly.takes h
    obtain ⟨c', q', ret, h', relayed⟩ := step_relays counting h enabled fun drops => absurd drops keeps
    exact ⟨c', ret, q', h', relayed.echoes takes echoes⟩
  obtain ⟨c, ret, q, h, echoes⟩ := run_total keep ⟨[], accepted_holds, rfl, rfl⟩ orderly
  exact ⟨c, ret, h.exact echoes⟩

/-- After a call that drops the queue, `es->p` is null, and only what was just handed over is freed. -/
theorem drops_queue (counting : lw.Counting) (enabled : Enabled e c) (drops : Drops e c) {c' : Connection ι}
    (ret : step lw e c = .ok c') :
    c'.server.p = none ∧ ∃ l, c'.server.pool.freed = c.server.pool.freed ++ l ∧ c'.handed = c.handed ++ l := by
  cases e with
  | sent => exact drops.elim
  | poll => exact drops.elim
  | turn => exact drops.elim
  | error =>
    obtain ⟨es, hes⟩ := Option.isSome_iff_exists.1 enabled.1
    simp only [step, tcpEchoserverError, hes] at ret
    cases ret
    exact ⟨rfl, [], (List.append_nil _).symm, (List.append_nil _).symm⟩
  | recv p err =>
    cases p with
    | nil => exact drops.elim
    | cons x p =>
      obtain ⟨a, d⟩ := x
      obtain ⟨registered, -, fresh⟩ := enabled
      obtain ⟨es, hes⟩ := Option.isSome_iff_exists.1 registered
      have freed := pbufFree_handed counting fresh
      simp only [step, tcpEchoserverRecv, hes, deref_some, ok_bind] at ret
      by_cases bad : err ≠ .ok
      · simp only [if_pos bad, handed_alive, ok_bind] at ret
        cases ret
        exact ⟨rfl, _, freed, rfl⟩
      · have closing : es.state = .esClosing := by simpa [hes] using drops.resolve_left bad
        simp only [if_neg bad, closing, handed_alive, ok_bind] at ret
        cases ret
        exact ⟨rfl, _, freed, rfl⟩

/-- **A step accounts for all pbufs exactly if** it does not drop a queue that is not empty. -/
theorem step_accounts_iff (counting : lw.Counting) (h : c.Holds q) (accounts : (c.relay q).Accounts)
    (enabled : Enabled e c) :
    (∃ c', step lw e c = .ok c' ∧ c'.Accounted) ↔ (Drops e c → c.server.p = none) := by
  constructor
  · rintro ⟨c', ret, q', at_, perm, -⟩ drops
    obtain ⟨null, l, freed, handed⟩ := drops_queue counting enabled drops ret
    rw [null] at at_
    obtain rfl : q' = [] := at_.unique rfl
    have after := perm.length_eq
    have before := accounts.length_eq
    simp only [freed, handed, Connection.relay, addrs, List.length_append, List.length_map, List.length_nil]
      at after before
    have empty : q = [] := List.length_eq_zero_iff.1 (by omega)
    rw [h.queue.first_eq, empty]
    rfl
  · intro careful
    obtain ⟨c', q', ret, h', relayed⟩ := step_relays counting h enabled careful
    exact ⟨c', ret, h'.accounted (relayed.accounts accounts)⟩

/-- **No pbuf is lost** as long as no queue is dropped. -/
theorem run_accounts (counting : lw.Counting) {events : List (Event ι)}
    (careful : Meets (step lw) (fun e c => Enabled e c ∧ (Drops e c → c.server.p = none)) events accepted) :
    ∃ c, run (step lw) events accepted = .ok c ∧ c.Accounted := by
  have keep : ∀ e (c : Connection ι), (∃ q, c.Holds q ∧ (c.relay q).Accounts) →
      Enabled e c ∧ (Drops e c → c.server.p = none) →
      ∃ c', step lw e c = .ok c' ∧ ∃ q, c'.Holds q ∧ (c'.relay q).Accounts := by
    rintro e c ⟨q, h, accounts⟩ ⟨enabled, careful⟩
    obtain ⟨c', q', ret, h', relayed⟩ := step_relays counting h enabled careful
    exact ⟨c', ret, q', h', relayed.accounts accounts⟩
  obtain ⟨c, ret, q, h, accounts⟩ := run_total keep ⟨[], accepted_holds, List.Perm.refl _⟩ careful
  exact ⟨c, ret, h.accounted accounts⟩

/-- The functions of lwIP, for `n` pbufs. -/
def Lwip.plain (n : Nat) : Lwip (Fin n) where
  pbufRef := Pool.retain
  pbufFree s a :=
    let r := s.release (s.walk n (some a))
    (r.1, UInt8.ofNat r.2)
  pbufChain s a b := s.append (s.walk n (some a)) b

theorem Lwip.plain_counting (n : Nat) : (Lwip.plain n).Counting := by
  have walk : ∀ (s : Pool (Fin n) Payload) a q, s.At (some a) q → s.walk n (some a) = addrs q := by
    intro s a q h
    have := h.nodup.length_le_card
    exact h.walk (by simpa [addrs] using this)
  refine ⟨fun s a q _ => .refl _, fun s a q h => ?_, fun s a b q r h _ _ => ?_⟩
  · simp only [plain, walk s a q h]
    exact ⟨.refl _, trivial⟩
  · simp only [plain, walk s a q h]
    exact .refl _

/-- A pbuf with the bytes. -/
def pbuf {n : Nat} (a : Fin n) (b : UInt8) : Fin n × Payload := (a, ⟨[b], by simp⟩)

/-- Data, more data while the send buffer is full, and the end. -/
def session : List (Event (Fin 3)) :=
  [.recv [pbuf 0 104, pbuf 1 105] .ok, .turn ⟨1, .ok⟩, .turn ⟨0, .ok⟩, .recv [pbuf 2 33] .ok, .recv [] .ok,
    .turn ⟨2, .ok⟩, .turn ⟨1, .mem⟩, .poll, .turn ⟨1, .ok⟩, .turn ⟨0, .ok⟩, .sent]

/-- Data is queued, the peer closes, data arrives after that, and the connection breaks. -/
def late : List (Event (Fin 3)) :=
  [.recv [pbuf 0 104, pbuf 1 105] .ok, .turn ⟨1, .ok⟩, .turn ⟨0, .ok⟩, .recv [] .ok, .turn ⟨0, .ok⟩,
    .recv [pbuf 2 33] .ok, .error]

theorem session_exact : ∃ c, run (step (Lwip.plain 3)) session accepted = .ok c ∧ c.Exact :=
  echo_exact (Lwip.plain_counting 3) (by decide)

/-- The connection breaks once everything is echoed. -/
theorem session_accounts : ∃ c, run (step (Lwip.plain 3))
    [.recv [pbuf 0 104, pbuf 1 105] .ok, .turn ⟨1, .ok⟩, .turn ⟨1, .ok⟩, .turn ⟨1, .ok⟩, .error] accepted = .ok c ∧
      c.Accounted :=
  run_accounts (Lwip.plain_counting 3) (by decide)

/-- The connection breaks while a pbuf is queued. -/
def broken : List (Event (Fin 1)) := [.recv [pbuf 0 104] .ok, .turn ⟨0, .ok⟩, .error]

/-- The record is freed, and the pbuf is not. -/
theorem error_loses_pbuf : (Lwip.plain 1).Counting ∧ Meets (step (Lwip.plain 1)) Enabled broken accepted ∧
    ∃ c, run (step (Lwip.plain 1)) broken accepted = .ok c ∧ ¬ c.Accounted := by
  refine ⟨Lwip.plain_counting 1, by decide, _, rfl, ?_⟩
  rintro ⟨q, -, -, freed⟩
  exact absurd (freed rfl).length_eq (by decide)

end CodeBackup.Echo
