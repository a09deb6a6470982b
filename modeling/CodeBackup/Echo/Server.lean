import CodeBackup.C.Buffer
import CodeBackup.Counted.Pool

/-!
# The echo server

`echoserver.c`, for one accepted connection. lwIP calls the server when data
arrives or the peer closes (`tcp_echoserver_recv`), when data was acknowledged
(`tcp_echoserver_sent`), from time to time (`tcp_echoserver_poll`), and when the
connection breaks (`tcp_echoserver_error`). What arrived is written back by the
loop of `tcp_echoserver_send`.

The functions of lwIP on pbufs are parameters. `tcp_echoserver_send` is always
the last thing a callback does, so a call of it begins the loop and each turn of
the loop is a step of its own, with the room in the send buffer and the outcome
of `tcp_write` as the network has them. Which callbacks are registered has no
effect here.

`tcp_echoserver_recv` prints a copy of the data with `%s`. `printed` keeps what
`printf` reads there, a fault if it reads past the copy: that does not touch the
connection, so the run goes on and the record shows it. `malloc` is assumed to
succeed.
-/

namespace CodeBackup.Echo

open C C.Outcome Counted

/-- The bytes of a pbuf. `len` has 16 bits. -/
structure Payload where
  bytes : List UInt8
  len_lt : bytes.length < 2 ^ 16

def Payload.len (d : Payload) : Nat := d.bytes.length

/-- The pbufs of a chain, with their addresses. -/
abbrev Pbufs (ι : Type) := List (ι × Payload)

/-- The bytes of a chain. -/
def bytes {ι : Type} (q : Pbufs ι) : List UInt8 := q.flatMap fun x => x.2.bytes

/-- `tot_len` of the first pbuf of a chain. -/
def totLen {ι : Type} (q : Pbufs ι) : Nat := (bytes q).length % 2 ^ 16

/-- `err_t`: `ERR_OK`, `ERR_MEM`, or another code. -/
inductive Err where
  | ok
  | mem
  | other
  deriving DecidableEq, Repr

/-- The functions of lwIP on pbufs. -/
structure Lwip (ι : Type) where
  pbufRef : Pool ι Payload → ι → Pool ι Payload
  pbufFree : Pool ι Payload → ι → Pool ι Payload × UInt8
  pbufChain : Pool ι Payload → ι → ι → Pool ι Payload

/-- They count references as documented. Nothing is said about pbufs that are not alive. -/
structure Lwip.Counting {ι : Type} [DecidableEq ι] (lw : Lwip ι) : Prop where
  ref : ∀ (s : Pool ι Payload) a q, s.At (some a) q → (s.retain a).Same (lw.pbufRef s a)
  free : ∀ (s : Pool ι Payload) a q, s.At (some a) q →
    (s.release (addrs q)).1.Same (lw.pbufFree s a).1 ∧
    (lw.pbufFree s a).2 = UInt8.ofNat (s.release (addrs q)).2
  chain : ∀ (s : Pool ι Payload) a b q r, s.At (some a) q → s.At (some b) r → (addrs q).Disjoint (addrs r) →
    (s.append (addrs q) b).Same (lw.pbufChain s a b)

/-- `enum tcp_echoserver_states`. -/
inductive State where
  | esNone
  | esAccepted
  | esReceived
  | esClosing
  deriving DecidableEq, Repr

/-- `struct tcp_echoserver_struct`. -/
structure Es (ι : Type) where
  state : State
  p : Option ι

/-- The record of the connection, until it is freed; the pbufs; and what the connection was
used for. `sending` is set inside the loop of `tcp_echoserver_send`. -/
structure Server (ι : Type) where
  es : Option (Es ι)
  pool : Pool ι Payload
  sending : Bool
  /-- The bytes that `tcp_write` has accepted. -/
  echoed : List UInt8
  /-- The sum of what was passed to `tcp_recved`. -/
  recved : Nat
  /-- `tcp_close` was called. -/
  closed : Bool
  /-- `tcp_abort` was called. -/
  aborted : Bool
  /-- What was printed of the data. -/
  printed : List (Outcome CStr)

/-- What `tcp_sndbuf` and `tcp_write` answer in one turn of the loop. -/
structure Attempt where
  sndbuf : Nat
  write : Err

section

variable {ι : Type}

/-- The pbuf is about to be used. -/
def alive (pool : Pool ι Payload) (a : ι) : Outcome Unit :=
  if pool.count a = 0 then .error .deadObject else .ok ()

/-- `es->p`. -/
def Server.p (s : Server ι) : Option ι := s.es.bind Es.p

/-- `tcp_echoserver_connection_close`. -/
def tcpEchoserverConnectionClose (s : Server ι) : Server ι := { s with es := none, closed := true }

/-- `tcp_echoserver_send` begins. -/
def startSend (s : Server ι) : Server ι := { s with sending := true }

/-- `printf` of a copy of the data. It reads up to a terminator, wherever the copy ends. -/
def printCopy (recvData : Buf) (s : Server ι) : Server ι := { s with printed := s.printed ++ [Buf.str recvData 0] }

variable (lw : Lwip ι)

/-- `do freed = pbuf_free(ptr); while (freed == 0)`, within `n` turns. -/
def freeAll (ptr : ι) : Nat → Pool ι Payload → Outcome (Pool ι Payload)
  | 0, _ => .error .loopBound
  | n + 1, pool => do
    alive pool ptr
    let (pool, freed) := lw.pbufFree pool ptr
    if freed = 0 then freeAll ptr n pool else .ok pool

/-- `es->p = ptr->next` keeps the next pbuf alive. -/
def refNext (next : Option ι) (pool : Pool ι Payload) : Outcome (Pool ι Payload) :=
  match next with
  | some q => do
    alive pool q
    .ok (lw.pbufRef pool q)
  | none => .ok pool

/-- `tcp_echoserver_send`, one turn. -/
def tcpEchoserverSend (attempt : Attempt) (s : Server ι) : Outcome (Server ι) := do
  let es ← deref s.es
  match es.p with
  | none => .ok { s with sending := false }
  | some ptr =>
    alive s.pool ptr
    if (s.pool.data ptr).len ≤ attempt.sndbuf then
      match attempt.write with
      | .ok =>
        let plen := (s.pool.data ptr).len
        let next := s.pool.next ptr
        let pool ← refNext lw next s.pool
        -- each turn of the inner loop drops a reference
        let pool ← freeAll lw ptr (pool.count ptr) pool
        .ok { s with
          es := some { es with p := next }
          pool := pool
          echoed := s.echoed ++ (s.pool.data ptr).bytes
          recved := s.recved + plen }
      | .mem => .ok { s with es := some { es with p := some ptr }, sending := false }
      | .other => .ok { s with sending := false }
    else .ok { s with sending := false }

/-- `tcp_echoserver_recv`. The empty chain is the null pointer. -/
def tcpEchoserverRecv (p : Pbufs ι) (err : Err) (s : Server ι) : Outcome (Server ι) := do
  let es ← deref s.es
  match p with
  | [] =>
    let s := { s with es := some { es with state := .esClosing } }
    match es.p with
    | none => .ok (tcpEchoserverConnectionClose s)
    | some _ => .ok (startSend s)
  | (a, d) :: _ =>
    if err ≠ .ok then
      alive s.pool a
      .ok { s with es := some { es with p := none }, pool := (lw.pbufFree s.pool a).1 }
    else
      match es.state with
      | .esAccepted =>
        alive s.pool a
        -- `p->len` bytes, without a terminator
        .ok (startSend (printCopy d.bytes { s with es := some { state := .esReceived, p := some a } }))
      | .esReceived =>
        match es.p with
        | none =>
          alive s.pool a
          .ok (startSend (printCopy (d.bytes ++ [0]) { s with es := some { es with p := some a } }))
        | some ptr =>
          alive s.pool ptr
          .ok { s with pool := lw.pbufChain s.pool ptr a }
      | _ =>
        alive s.pool a
        .ok { s with
          es := some { es with p := none }
          recved := s.recved + totLen p
          pool := (lw.pbufFree s.pool a).1 }

/-- `tcp_echoserver_error`. -/
def tcpEchoserverError (s : Server ι) : Server ι :=
  match s.es with
  | some _ => { s with es := none }
  | none => s

/-- `tcp_echoserver_poll`. -/
def tcpEchoserverPoll (s : Server ι) : Server ι :=
  match s.es with
  | some es =>
    match es.p with
    | some _ => startSend s
    | none => if es.state = .esClosing then tcpEchoserverConnectionClose s else s
  | none => { s with aborted := true }

/-- `tcp_echoserver_sent`. -/
def tcpEchoserverSent (s : Server ι) : Outcome (Server ι) := do
  let es ← deref s.es
  match es.p with
  | some _ => .ok (startSend s)
  | none => .ok (if es.state = .esClosing then tcpEchoserverConnectionClose s else s)

end

/-! ## The connection -/

/-- lwIP calls the server, or the loop of `tcp_echoserver_send` makes a turn. -/
inductive Event (ι : Type) where
  | recv (p : Pbufs ι) (err : Err)
  | sent
  | poll
  | error
  | turn (attempt : Attempt)

/-- The server, and what lwIP has handed to it. -/
structure Connection (ι : Type) where
  server : Server ι
  received : List UInt8
  handed : List ι
  /-- The peer has closed. -/
  finished : Bool

/-- The connection once `tcp_echoserver_accept` has returned, before lwIP hands a pbuf to it. -/
def accepted {ι : Type} : Connection ι where
  server :=
    { es := some ⟨.esAccepted, none⟩
      pool := ⟨fun _ => none, fun _ => ⟨[], by decide⟩, fun _ => 0, []⟩
      sending := false
      echoed := []
      recved := 0
      closed := false
      aborted := false
      printed := [] }
  received := []
  handed := []
  finished := false

section

variable {ι : Type} [DecidableEq ι] (lw : Lwip ι)

def step : Event ι → Connection ι → Outcome (Connection ι)
  | .recv p err, c => do
    let server ← tcpEchoserverRecv lw p err { c.server with pool := c.server.pool.hand p }
    .ok
      { server := server
        received := c.received ++ bytes p
        handed := c.handed ++ addrs p
        finished := c.finished || p.isEmpty }
  | .sent, c => do
    let server ← tcpEchoserverSent c.server
    .ok { c with server := server }
  | .poll, c => .ok { c with server := tcpEchoserverPoll c.server }
  | .error, c => .ok { c with server := tcpEchoserverError c.server }
  | .turn attempt, c => do
    let server ← tcpEchoserverSend lw attempt c.server
    .ok { c with server := server }

/-- The event can happen: lwIP calls back while the callbacks are registered and none of them is
running, and hands out pbufs that are not in use. -/
def Enabled : Event ι → Connection ι → Prop
  | .recv p _, c => c.server.es.isSome ∧ c.server.sending = false ∧ c.server.pool.Fresh p
  | .turn _, c => c.server.es.isSome ∧ c.server.sending = true
  | _, c => c.server.es.isSome ∧ c.server.sending = false

instance : ∀ (e : Event ι) (c : Connection ι), Decidable (Enabled e c)
  | .recv _ _, _ => inferInstanceAs (Decidable (_ ∧ _ ∧ _ ∧ _))
  | .turn _, _ => inferInstanceAs (Decidable (_ ∧ _))
  | .sent, _ => inferInstanceAs (Decidable (_ ∧ _))
  | .poll, _ => inferInstanceAs (Decidable (_ ∧ _))
  | .error, _ => inferInstanceAs (Decidable (_ ∧ _))

end

end CodeBackup.Echo
