import CodeBackup.Echo.Server
import CodeBackup.Run.Calls

/-!
# The server as a relay

What the server is for: a relay, which queues what it is handed and forwards it
in order. A relay that refuses data frees it at once. `c.Holds q` says that `q`
is what the connection has queued, and `step_relays` that each step of the
server is a step of the relay, unless it drops its pointer to a queue that is not
empty (`Drops`).
-/

namespace CodeBackup.Echo

open C C.Outcome Counted

variable {ι : Type}

/-- What is queued; what was freed of what was handed over; and the bytes that came in, that
went out, and that were reported as taken. -/
structure Relay (ι : Type) where
  queue : Pbufs ι
  freed : List ι
  handed : List ι
  received : List UInt8
  echoed : List UInt8
  recved : Nat

/-- The steps of a relay. Only one that `refuses` drops what arrives. -/
inductive Relay.Step (refuses : Prop) : Relay ι → Relay ι → Prop where
  | stay (r : Relay ι) : Step refuses r r
  | enqueue (r : Relay ι) (p : Pbufs ι) :
      Step refuses r
        { r with queue := r.queue ++ p, handed := r.handed ++ addrs p, received := r.received ++ bytes p }
  | forward (r : Relay ι) (a : ι) (d : Payload) (q : Pbufs ι) (head : r.queue = (a, d) :: q) :
      Step refuses r
        { r with queue := q, freed := r.freed ++ [a], echoed := r.echoed ++ d.bytes, recved := r.recved + d.len }
  | refuse (r : Relay ι) (p : Pbufs ι) (n : Nat) (h : refuses) (empty : r.queue = []) :
      Step refuses r
        { r with
          freed := r.freed ++ addrs p
          handed := r.handed ++ addrs p
          received := r.received ++ bytes p
          recved := r.recved + n }

namespace Relay

/-- What was handed over is queued, or was freed once. -/
def Accounts (r : Relay ι) : Prop := (r.freed ++ addrs r.queue).Perm r.handed

/-- What went out, and then what is queued, is what came in. -/
structure Echoes (r : Relay ι) : Prop where
  order : r.echoed ++ bytes r.queue = r.received
  recved : r.recved = r.echoed.length

variable {r r' : Relay ι} {refuses : Prop}

theorem Step.accounts (step : Step refuses r r') (h : r.Accounts) : r'.Accounts := by
  cases step with
  | stay => exact h
  | enqueue p =>
    simp only [Accounts, addrs, List.map_append, ← List.append_assoc]
    exact h.append_right _
  | forward a d q head =>
    simpa only [Accounts, head, addrs, List.map_cons, List.append_assoc, List.singleton_append] using h
  | refuse p n _ empty =>
    simp only [Accounts, empty, addrs, List.map_nil, List.append_nil] at h ⊢
    exact h.append_right _

theorem Step.echoes (step : Step refuses r r') (takes : ¬ refuses) (h : r.Echoes) : r'.Echoes := by
  cases step with
  | stay => exact h
  | enqueue p =>
    refine ⟨?_, h.recved⟩
    simp only [bytes, List.flatMap_append, ← List.append_assoc]
    exact congrArg (· ++ _) h.order
  | forward a d q head =>
    constructor
    · simpa only [head, bytes, List.flatMap_cons, List.append_assoc] using h.order
    · simp only [List.length_append, h.recved, Payload.len]
  | refuse p n refused _ => exact absurd refused takes

end Relay

/-- The connection as a relay with the given queue. -/
def Connection.relay (c : Connection ι) (q : Pbufs ι) : Relay ι where
  queue := q
  freed := c.server.pool.freed
  handed := c.handed
  received := c.received
  echoed := c.server.echoed
  recved := c.server.recved

/-- The chain at `es->p` is the queue, and the state of the server fits it. -/
structure Connection.Holds (c : Connection ι) (q : Pbufs ι) : Prop where
  queue : c.server.pool.At c.server.p q
  accepted : ∀ es, c.server.es = some es → es.state = .esAccepted → q = []
  known : ∀ es, c.server.es = some es → es.state ≠ .esNone
  closing : ∀ es, c.server.es = some es → es.state = .esClosing → c.finished = true
  closed : c.server.closed = true → c.server.es = none ∧ c.finished = true

/-- The call hands over data that the server does not take. -/
def Refuses : Event ι → Connection ι → Prop
  | .recv (_ :: _) err, c => err ≠ .ok ∨ c.server.es.map Es.state = some .esClosing
  | _, _ => False

/-- The call sets `es->p` to null, or frees the record, without looking at the queue. -/
def Drops : Event ι → Connection ι → Prop
  | .error, _ => True
  | e, c => Refuses e c

instance : ∀ (e : Event ι) (c : Connection ι), Decidable (Refuses e c)
  | .recv [] _, _ => isFalse id
  | .recv (_ :: _) _, _ => inferInstanceAs (Decidable (_ ∨ _))
  | .sent, _ => isFalse id
  | .poll, _ => isFalse id
  | .error, _ => isFalse id
  | .turn _, _ => isFalse id

instance (e : Event ι) (c : Connection ι) : Decidable (Drops e c) :=
  match e with
  | .error => isTrue trivial
  | .recv p err => inferInstanceAs (Decidable (Refuses (.recv p err) c))
  | .sent => inferInstanceAs (Decidable (Refuses .sent c))
  | .poll => inferInstanceAs (Decidable (Refuses .poll c))
  | .turn attempt => inferInstanceAs (Decidable (Refuses (.turn attempt) c))

/-! ## The functions of lwIP -/

theorem alive_ok {s : Pool ι Payload} {a : ι} (h : 0 < s.count a) : alive s a = .ok () := if_neg h.ne'

section

variable [DecidableEq ι] {lw : Lwip ι} {s : Pool ι Payload} {a : ι} {d : Payload} {q : Pbufs ι}

/-- The next pbuf gets a second reference. -/
theorem refNext_ok (counting : lw.Counting) (h : s.At (some a) ((a, d) :: q)) :
    ∃ s', refNext lw (s.next a) s = .ok s' ∧ s'.At (some a) ((a, d) :: q) ∧ s'.next a = s.next a ∧
      s'.freed = s.freed ∧ ∀ b ∈ first q, 1 < s'.count b := by
  have rest := h.2.2.2
  cases q with
  | nil =>
    have last : s.next a = none := rest
    rw [last]
    exact ⟨s, rfl, h, last, rfl, fun b hb => by cases hb⟩
  | cons x q =>
    have link : s.next a = some x.1 := rest.1
    rw [link] at rest
    have live : 0 < s.count x.1 := rest.2.1
    have same := counting.ref s x.1 _ rest
    refine ⟨lw.pbufRef s x.1, by simp [refNext, link, alive_ok live], h.retain.same same, ?_, same.freed, ?_⟩
    · rw [same.next a (Pool.retain_pos h.2.1)]
      rfl
    · intro b hb
      cases hb
      rw [same.count]
      simpa [Pool.retain] using live

theorem handed_alive : alive (s.hand ((a, d) :: q)) a = .ok () := by
  apply alive_ok
  rw [Pool.hand_count (List.mem_cons_self ..)]
  exact Nat.one_pos

/-- A chain that was just handed over is freed as a whole. -/
theorem pbufFree_handed (counting : lw.Counting) (fresh : s.Fresh ((a, d) :: q)) :
    (lw.pbufFree (s.hand ((a, d) :: q)) a).1.freed = s.freed ++ addrs ((a, d) :: q) := by
  have new : (s.hand ((a, d) :: q)).At (some a) ((a, d) :: q) := Pool.hand_at fresh.1
  rw [(counting.free _ a _ new).1.freed, Pool.release_all fresh.1 fun b hb => Pool.hand_count hb, Pool.hand_freed]

/-- The inner loop ends, and has freed the first pbuf. -/
theorem freeAll_ok (counting : lw.Counting) (h : s.At (some a) ((a, d) :: q))
    (shared : ∀ b ∈ first q, 1 < s.count b) :
    ∃ s', freeAll lw a (s.count a) s = .ok s' ∧ s'.At (s.next a) q ∧ s'.freed = s.freed ++ [a] := by
  -- by induction on the references to the first pbuf
  induction hn : s.count a generalizing s with
  | zero => exact absurd h.2.1 (by omega)
  | succ n ih =>
    obtain ⟨same, freed⟩ := counting.free s a _ h
    simp only [freeAll, alive_ok h.2.1, ok_bind, freed]
    by_cases more : 1 < s.count a
    · have kept := (h.shared more).same same
      rw [show addrs ((a, d) :: q) = a :: addrs q from rfl, Pool.release_shared more] at same freed ⊢
      have count : (lw.pbufFree s a).1.count a = n := by
        rw [same.count]
        simp [hn]
      have next : (lw.pbufFree s a).1.next a = s.next a := same.next a (by simp only [Function.update_self]; omega)
      have shared' : ∀ b ∈ first q, 1 < (lw.pbufFree s a).1.count b := by
        intro b hb
        rw [same.count]
        by_cases ba : b = a
        · -- the chain does not come back to its first pbuf
          have := (List.nodup_cons.1 h.nodup).1
          cases q with
          | nil => cases hb
          | cons x q =>
            cases hb
            exact absurd (by simp [← ba]) this
        · simpa [Function.update_of_ne ba] using shared b hb
      obtain ⟨s', run, at_, log⟩ := ih kept shared' count
      rw [next] at at_
      exact ⟨s', by simpa using run, at_, by rw [log, same.freed]⟩
    · obtain ⟨rest, log, one⟩ := h.last (by omega) shared
      rw [one]
      exact ⟨(lw.pbufFree s a).1, rfl, rest.same same, same.freed.trans log⟩

end

/-! ## The callbacks -/

/-- The call returns, and was a step of the relay. -/
def Relays (refuses : Prop) (c : Connection ι) (q : Pbufs ι) (out : Outcome (Connection ι)) : Prop :=
  ∃ c' q', out = .ok c' ∧ c'.Holds q' ∧ Relay.Step refuses (c.relay q) (c'.relay q')

section

variable {c : Connection ι} {q : Pbufs ι} {es : Es ι} {refuses : Prop}

/-- `es->p` points to the queue. -/
theorem Connection.Holds.chain (h : c.Holds q) (hes : c.server.es = some es) : c.server.pool.At es.p q := by
  have pointer : c.server.p = es.p := by simp [Server.p, hes]
  exact pointer ▸ h.queue

/-- A connection is closed with its record. -/
theorem Connection.Holds.open (h : c.Holds q) (hes : c.server.es = some es) : c.server.closed ≠ true := by
  intro closed
  cases hes.symm.trans (h.closed closed).1

theorem Connection.Holds.empty (h : c.Holds q) (null : c.server.p = none) : q = [] := by
  have chain := h.queue
  rw [null] at chain
  exact chain.unique rfl

/-- The loop of `tcp_echoserver_send` begins or ends. -/
theorem Connection.Holds.sending (h : c.Holds q) (b : Bool) :
    Relays refuses c q (.ok { c with server := { c.server with sending := b } }) :=
  ⟨_, q, rfl, ⟨h.queue, h.accepted, h.known, h.closing, h.closed⟩, .stay _⟩

theorem Connection.Holds.stay (h : c.Holds q) : Relays refuses c q (.ok c) := ⟨c, q, rfl, h, .stay _⟩

/-- Nothing is queued without a record. -/
theorem holds_of_none (hes : c.server.es = none) (closed : c.server.closed = true → c.finished = true) :
    c.Holds [] where
  queue := by simp [Server.p, hes, Pool.At]
  accepted _ _ _ := rfl
  known es some := by cases hes.symm.trans some
  closing es some := by cases hes.symm.trans some
  closed h := ⟨hes, closed h⟩

/-- An empty connection is closed once the peer has closed. -/
theorem Connection.Holds.close (h : c.Holds q) (null : c.server.p = none) (finished : c.finished = true) :
    Relays refuses c q (.ok { c with server := tcpEchoserverConnectionClose c.server }) := by
  obtain rfl := h.empty null
  exact ⟨_, [], rfl, holds_of_none rfl fun _ => finished, .stay _⟩

theorem poll_relays {lw : Lwip ι} [DecidableEq ι] (h : c.Holds q) (hes : c.server.es = some es) :
    Relays refuses c q (step lw .poll c) := by
  simp only [step, tcpEchoserverPoll, hes]
  cases hp : es.p with
  | some ptr => exact h.sending true
  | none =>
    have null : c.server.p = none := by simp [Server.p, hes, hp]
    by_cases closing : es.state = .esClosing
    · simp only [if_pos closing]
      exact h.close null (h.closing es hes closing)
    · simp only [if_neg closing]
      exact h.stay

/-- `tcp_echoserver_sent` does what `tcp_echoserver_poll` does. -/
theorem sent_relays {lw : Lwip ι} [DecidableEq ι] (h : c.Holds q) (hes : c.server.es = some es) :
    Relays refuses c q (step lw .sent c) := by
  have same : tcpEchoserverSent c.server = .ok (tcpEchoserverPoll c.server) := by
    simp only [tcpEchoserverSent, tcpEchoserverPoll, hes, deref_some, ok_bind]
    cases es.p with
    | some ptr => rfl
    | none => rfl
  have poll : Relays refuses c q (step lw .poll c) := poll_relays h hes
  simpa only [step, same, ok_bind] using poll

/-- The record may be freed while nothing is queued. -/
theorem error_relays {lw : Lwip ι} [DecidableEq ι] (h : c.Holds q) (hes : c.server.es = some es)
    (null : c.server.p = none) : Relays refuses c q (step lw .error c) := by
  obtain rfl := h.empty null
  simp only [step, tcpEchoserverError, hes]
  exact ⟨_, [], rfl, holds_of_none rfl fun closed => (h.closed closed).2, .stay _⟩

/-- The turn returns, as a step of the relay, and the loop goes on only with a shorter queue. -/
def Turns (refuses : Prop) (c : Connection ι) (q : Pbufs ι) (out : Outcome (Connection ι)) : Prop :=
  ∃ c' q', out = .ok c' ∧ c'.Holds q' ∧ Relay.Step refuses (c.relay q) (c'.relay q') ∧ c'.server.es.isSome ∧
    (c'.server.sending = true → q'.length < q.length)

/-- The loop ends. -/
theorem stop_turns (h : c.Holds q) (hes : c.server.es = some es) :
    Turns refuses c q (.ok { c with server := { c.server with sending := false } }) := by
  obtain ⟨c', q', out, holds, step⟩ : Relays refuses c q _ := h.sending false
  cases out
  exact ⟨_, q', rfl, holds, step, by simp [hes], fun more => by cases more⟩

/-- The first pbuf is written and freed. -/
theorem forward_turns {a : ι} {d : Payload} (h : c.Holds ((a, d) :: q)) (hes : c.server.es = some es)
    {next : Option ι} {pool : Pool ι Payload} (rest : pool.At next q) (log : pool.freed = c.server.pool.freed ++ [a]) :
    Turns refuses c ((a, d) :: q)
      (.ok
        { c with
          server :=
            { c.server with
              es := some { es with p := next }
              pool := pool
              echoed := c.server.echoed ++ d.bytes
              recved := c.server.recved + d.len } }) := by
  refine ⟨_, q, rfl, ⟨rest, ?_, ?_, ?_, ?_⟩, ?_, rfl, fun _ => Nat.lt_succ_self _⟩
  · rintro _ ⟨⟩ accepted
    cases h.accepted es hes accepted
  · rintro _ ⟨⟩ esNone
    exact h.known es hes esNone
  · rintro _ ⟨⟩ closing
    exact h.closing es hes closing
  · intro closed
    exact absurd closed (h.open hes)
  · simp only [Connection.relay, log]
    exact .forward (c.relay ((a, d) :: q)) a d q rfl

end

section

variable [DecidableEq ι] {lw : Lwip ι} {c : Connection ι} {q : Pbufs ι} {es : Es ι} {refuses : Prop}

/-- A turn of the loop forwards the first pbuf, or ends the loop. -/
theorem send_turns (counting : lw.Counting) (h : c.Holds q) (hes : c.server.es = some es) (attempt : Attempt) :
    Turns refuses c q (step lw (.turn attempt) c) := by
  have stop : Turns refuses c q _ := stop_turns h hes
  have chain := h.chain hes
  simp only [step, tcpEchoserverSend, hes, deref_some, ok_bind]
  cases hp : es.p with
  | none => simpa only [hes, ok_bind] using stop
  | some ptr =>
    rw [hp] at chain
    cases q with
    | nil => cases chain
    | cons x q =>
      obtain ⟨a, d⟩ := x
      obtain rfl : ptr = a := Option.some.inj chain.1
      have data : c.server.pool.data ptr = d := chain.2.2.1
      simp only [alive_ok chain.2.1, ok_bind, data]
      by_cases room : d.len ≤ attempt.sndbuf
      · simp only [if_pos room]
        cases attempt.write with
        | ok =>
          obtain ⟨pool, run, at_, next, log, shared⟩ := refNext_ok counting chain
          obtain ⟨pool', run', rest, log'⟩ := freeAll_ok counting at_ shared
          simp only [run, run', ok_bind]
          rw [next] at rest
          rw [log] at log'
          exact forward_turns h hes rest log'
        | mem =>
          obtain ⟨state, p⟩ := es
          subst hp
          simpa only [hes, ok_bind] using stop
        | other => simpa only [hes, ok_bind] using stop
      · simpa only [if_neg room, ok_bind, hes] using stop

/-- The peer closes. -/
theorem fin_relays (h : c.Holds q) (hes : c.server.es = some es) (err : Err) :
    Relays refuses c q (step lw (.recv [] err) c) := by
  have h₁ : Connection.Holds
      { c with server := { c.server with es := some { es with state := .esClosing } }, finished := true } q := by
    refine ⟨?_, ?_, ?_, fun _ _ _ => rfl, fun closed => absurd closed (h.open hes)⟩
    · simpa [Server.p] using h.chain hes
    · rintro _ ⟨⟩ ⟨⟩
    · rintro _ ⟨⟩ ⟨⟩
  simp only [step, tcpEchoserverRecv, hes, deref_some, ok_bind, Pool.hand, bytes, List.flatMap_nil, List.append_nil,
    addrs, List.map_nil, List.isEmpty_nil, Bool.or_true]
  obtain ⟨state, p⟩ := es
  cases p with
  | none => exact h₁.close rfl rfl
  | some ptr => exact h₁.sending true

section

variable {a : ι} {d : Payload} {p : Pbufs ι} {err : Err}

/-- Refused data is freed. -/
theorem refuse_relays (counting : lw.Counting) (h : c.Holds q) (hes : c.server.es = some es)
    (fresh : c.server.pool.Fresh ((a, d) :: p)) (refused : refuses) (null : c.server.p = none) (n : Nat) :
    Relays refuses c q
      (.ok
        { c with
          server :=
            { c.server with
              es := some { es with p := none }
              recved := c.server.recved + n
              pool := (lw.pbufFree (c.server.pool.hand ((a, d) :: p)) a).1 }
          received := c.received ++ bytes ((a, d) :: p)
          handed := c.handed ++ addrs ((a, d) :: p) }) := by
  obtain rfl := h.empty null
  refine ⟨_, [], rfl, ⟨rfl, fun _ _ _ => rfl, ?_, ?_, fun closed => absurd closed (h.open hes)⟩, ?_⟩
  · rintro _ ⟨⟩
    exact h.known es hes
  · rintro _ ⟨⟩
    exact h.closing es hes
  · simp only [Connection.relay, pbufFree_handed counting fresh]
    exact .refuse (c.relay []) ((a, d) :: p) n refused rfl

/-- Data replaces an empty queue, and a copy is printed. -/
theorem start_relays (h : c.Holds q) (hes : c.server.es = some es) (fresh : c.server.pool.Fresh ((a, d) :: p))
    (null : c.server.p = none) (copy : Buf) :
    Relays refuses c q
      (.ok
        { c with
          server := startSend (printCopy copy
            { c.server with
              es := some { state := .esReceived, p := some a }
              pool := c.server.pool.hand ((a, d) :: p) })
          received := c.received ++ bytes ((a, d) :: p)
          handed := c.handed ++ addrs ((a, d) :: p) }) := by
  obtain rfl := h.empty null
  refine ⟨_, (a, d) :: p, rfl,
    ⟨Pool.hand_at fresh.1, ?_, ?_, ?_, fun closed => absurd closed (h.open hes)⟩, ?_⟩
  · rintro _ ⟨⟩ ⟨⟩
  · rintro _ ⟨⟩ ⟨⟩
  · rintro _ ⟨⟩ ⟨⟩
  · simp only [startSend, printCopy, Connection.relay, Pool.hand_freed]
    exact .enqueue (c.relay []) ((a, d) :: p)

/-- Data is put behind the queue. -/
theorem chain_relays (counting : lw.Counting) (h : c.Holds q) {ptr : ι}
    (hes : c.server.es = some ⟨.esReceived, some ptr⟩)
    (fresh : c.server.pool.Fresh ((a, d) :: p)) :
    Relays refuses c q
      (.ok
        { c with
          server := { c.server with pool := lw.pbufChain (c.server.pool.hand ((a, d) :: p)) ptr a }
          received := c.received ++ bytes ((a, d) :: p)
          handed := c.handed ++ addrs ((a, d) :: p) }) := by
  obtain ⟨old, disjoint⟩ := (h.chain hes).hand fresh
  have new : (c.server.pool.hand ((a, d) :: p)).At (some a) ((a, d) :: p) := Pool.hand_at fresh.1
  have same := counting.chain _ _ _ _ _ old new disjoint
  have ne : q ≠ [] := by
    rintro rfl
    cases old
  have pointer : c.server.p = some ptr := by simp [Server.p, hes]
  refine ⟨_, q ++ (a, d) :: p, rfl, ⟨?_, ?_, ?_, ?_, fun closed => absurd closed (h.open hes)⟩, ?_⟩
  · have both := (old.append new ne disjoint).same same
    simpa only [Server.p, hes, Option.bind_some] using both
  · intro es hes' accepted
    obtain rfl : es = _ := Option.some.inj (hes'.symm.trans hes)
    cases accepted
  · exact h.known
  · exact h.closing
  · have log : (lw.pbufChain (c.server.pool.hand ((a, d) :: p)) ptr a).freed = c.server.pool.freed := by
      rw [same.freed, Pool.append_freed, Pool.hand_freed]
    simp only [Connection.relay, log]
    exact .enqueue (c.relay q) ((a, d) :: p)

/-- Data arrives. -/
theorem data_relays (counting : lw.Counting) (h : c.Holds q) (hes : c.server.es = some es)
    (fresh : c.server.pool.Fresh ((a, d) :: p)) (careful : Refuses (.recv ((a, d) :: p) err) c → c.server.p = none) :
    Relays (Refuses (.recv ((a, d) :: p) err) c) c q (step lw (.recv ((a, d) :: p) err) c) := by
  simp only [step, tcpEchoserverRecv, hes, deref_some, ok_bind, List.isEmpty_cons, Bool.or_false]
  by_cases bad : err ≠ .ok
  · have refused : Refuses (.recv ((a, d) :: p) err) c := .inl bad
    simp only [if_pos bad, handed_alive, ok_bind]
    exact refuse_relays counting h hes fresh refused (careful refused) 0
  · simp only [if_neg bad]
    have pointer : c.server.p = es.p := by simp [Server.p, hes]
    obtain ⟨state, ptr⟩ := es
    cases state with
    | esNone => exact absurd rfl (h.known _ hes)
    | esAccepted =>
      have null : c.server.p = none := by
        have chain := h.queue
        rwa [h.accepted _ hes rfl] at chain
      simp only [handed_alive, ok_bind]
      exact start_relays h hes fresh null d.bytes
    | esReceived =>
      cases ptr with
      | none =>
        simp only [handed_alive, ok_bind]
        exact start_relays h hes fresh pointer (d.bytes ++ [0])
      | some ptr =>
        obtain ⟨old, -⟩ := (h.chain hes).hand fresh
        have head : 0 < (c.server.pool.hand ((a, d) :: p)).count ptr := by
          cases q with
          | nil => cases old
          | cons x q =>
            cases old.1
            exact old.2.1
        simp only [alive_ok head, ok_bind]
        have chained : Relays (Refuses (.recv ((a, d) :: p) err) c) c q _ := chain_relays counting h hes fresh
        simpa only [hes] using chained
    | esClosing =>
      have refused : Refuses (.recv ((a, d) :: p) err) c := .inr (by simp [hes])
      simp only [handed_alive, ok_bind]
      exact refuse_relays counting h hes fresh refused (careful refused) _

end

omit [DecidableEq ι] in
theorem Enabled.registered {e : Event ι} (enabled : Enabled e c) : c.server.es.isSome := by
  cases e with
  | recv => exact enabled.1
  | sent => exact enabled.1
  | poll => exact enabled.1
  | error => exact enabled.1
  | turn => exact enabled.1

/-- **The server is a relay**: a step that does not drop a queue is a step of the relay. -/
theorem step_relays (counting : lw.Counting) (h : c.Holds q) {e : Event ι} (enabled : Enabled e c)
    (careful : Drops e c → c.server.p = none) : Relays (Refuses e c) c q (step lw e c) := by
  obtain ⟨es, hes⟩ := Option.isSome_iff_exists.1 enabled.registered
  cases e with
  | recv p err =>
    cases p with
    | nil => exact fin_relays h hes err
    | cons x p => exact data_relays counting h hes enabled.2.2 careful
  | sent => exact sent_relays h hes
  | poll => exact poll_relays h hes
  | error => exact error_relays h hes (careful trivial)
  | turn attempt =>
    obtain ⟨c', q', out, holds, step, -⟩ := send_turns counting h hes attempt
    exact ⟨c', q', out, holds, step⟩

end

/-- The connection begins with nothing queued. -/
theorem accepted_holds : (accepted : Connection ι).Holds [] where
  queue := rfl
  accepted _ _ _ := rfl
  known := by
    rintro _ ⟨⟩ ⟨⟩
  closing := by
    rintro _ ⟨⟩ ⟨⟩
  closed := by
    rintro ⟨⟩

end CodeBackup.Echo
