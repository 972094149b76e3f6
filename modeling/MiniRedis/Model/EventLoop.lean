import MiniRedis.Model.List
import MiniRedis.Model.Netio

/-! # `server.cpp` and the connections in `core/sys_server.cpp`

The event loop over the connections. The kernel is the environment: which descriptors are ready, what
`accept()`, `read()` and `write()` return and the readings of the clock are arguments. The loop is a
machine that takes one such input at a time; `Phase` is where it stands. -/

namespace MiniRedis

/-- The address of a `Connection`. -/
abbrev CPtr := Nat

/-- The `DList` nodes: the head of `idle_conn_list`, and the `idle_node` of every connection. -/
inductive IdleNode where
  | idleConnList
  | idleNode (conn : CPtr)
  deriving DecidableEq

/-- A `Connection` with its descriptor and the time of its last activity. -/
structure ClientConn extends Connection where
  socketFd : Nat
  lastActivityMs : UInt64

/-- The whole of `ServerData`, and the descriptors that are open. A connection that does not exist, or
not any more, is none. -/
structure Server where
  data : ServerData := {}
  fd2conn : List (Option CPtr) := []
  idle : DListMem IdleNode := dlistInit (fun _ => {}) .idleConnList
  conns : CPtr → Option ClientConn := fun _ => none
  nextConn : Nat := 0
  openFds : List Nat

/-- `fd2conn[fd] = conn` -/
def storeConn (fd2conn : List (Option CPtr)) (fd : Nat) (conn : Option CPtr) :
    Result (List (Option CPtr)) :=
  if fd < fd2conn.length then return fd2conn.set fd conn else .error .memory

/-- Accept a connection; `accepted` is what `accept()` returns, none for an error. -/
def handleAccept (accepted : Option Nat) (now : UInt64) (s : Server) : Result Server :=
  match accepted with
  | none => return s
  | some connFd => do
    let p := s.nextConn
    let conn : ClientConn := { socketFd := connFd, wantRead := true, lastActivityMs := now }
    let idle := Function.update s.idle (.idleNode p) {}
    let idle ← dlistInsertBefore idle .idleConnList (.idleNode p)
    let fd2conn := if s.fd2conn.length ≤ connFd then
        s.fd2conn ++ List.replicate (connFd + 1 - s.fd2conn.length) none
      else s.fd2conn
    assert (← index fd2conn connFd).isNone .handleAcceptSlot
    let fd2conn ← storeConn fd2conn connFd (some p)
    return { s with
      fd2conn, idle
      conns := Function.update s.conns p (some conn)
      nextConn := p + 1
      openFds := connFd :: s.openFds }

/-- Close the socket and remove the connection from the map and the list. -/
def handleDestroy (s : Server) (p : CPtr) : Result Server := do
  let conn ← deref (s.conns p)
  let fd2conn ← storeConn s.fd2conn conn.socketFd none
  let idle ← dlistDetach s.idle (.idleNode p)
  return { s with
    fd2conn, idle
    conns := Function.update s.conns p none
    openFds := s.openFds.filter (· ≠ conn.socketFd) }

/-- The descriptors of the connections, in the order of `poll_args`. -/
def pollArgs (s : Server) : List (Option CPtr) → Result (List Nat)
  | [] => return []
  | none :: rest => pollArgs s rest
  | some p :: rest => do
    let conn ← deref (s.conns p)
    return conn.socketFd :: (← pollArgs s rest)

/-- What happens to a polled descriptor: `revents`, the reading of the clock, and what the calls on
the socket return. -/
structure Event where
  revents : UInt32
  now : UInt64
  clock : Nat → UInt64
  read : ReadResult
  writeAfterRead : Bytes → WriteResult
  write : WriteResult

def pollIn : UInt32 := 1
def pollOut : UInt32 := 4
def pollErr : UInt32 := 8

/-- `if ((ready & POLLIN) && conn->want_read)` -/
def handleReadReady (e : Event) (data : ServerData) (conn : Connection) :
    Result (ServerData × Connection) :=
  if e.revents &&& pollIn ≠ 0 ∧ conn.wantRead then do
    let (data, conn, _) ← handleRead e.clock data conn e.read e.writeAfterRead
    return (data, conn)
  else return (data, conn)

/-- `if ((ready & POLLOUT) && conn->want_write)` -/
def handleWriteReady (e : Event) (conn : Connection) : Result Connection :=
  if e.revents &&& pollOut ≠ 0 ∧ conn.wantWrite then do
    let (conn, _) ← handleWrite conn e.write
    return conn
  else return conn

/-- The body of the loop over the connection sockets. -/
def handleEvent (e : Event) (fd : Nat) (s : Server) : Result Server :=
  if e.revents = 0 then return s
  else do
    let p ← deref (← index s.fd2conn fd)
    let client ← deref (s.conns p)
    let client := { client with lastActivityMs := e.now }
    let idle ← dlistDetach s.idle (.idleNode p)
    let idle ← dlistInsertBefore idle .idleConnList (.idleNode p)
    let (data, conn) ← handleReadReady e s.data client.toConnection
    let conn ← handleWriteReady e conn
    let client := { client with toConnection := conn }
    let s := { s with data, idle, conns := Function.update s.conns p (some client) }
    if e.revents &&& pollErr ≠ 0 ∨ client.wantClose then handleDestroy s p else return s

/-- The first part of `next_timer_ms`: the idle connection timers. -/
def nextIdleMs (s : Server) : Result UInt64 :=
  if dlistEmpty s.idle .idleConnList then return .ofNat sizeMax
  else
    match (s.idle .idleConnList).next with
    | some (.idleNode p) => do
      let conn ← deref (s.conns p)
      return conn.lastActivityMs + .ofNat kIdleTimeoutMs
    | _ => .error .memory

/-- The end of `next_timer_ms`: the timeout of `poll()` for the earliest deadline. -/
def waitMs (now nextMs : UInt64) : Int32 :=
  if nextMs = .ofNat sizeMax then -1
  else if nextMs ≤ now then 0
  else (nextMs - now).toUInt32.toInt32

def nextTimerMs (now : UInt64) (s : Server) : Result Int32 := do
  let nextMs ← nextIdleMs s
  match s.data.heap.items with
  | [] => return waitMs now nextMs
  | top :: _ => return waitMs now (if top.val < nextMs then top.val else nextMs)

/-- The first half of `process_timers`: close the idle connections. Every turn deletes one. -/
def closeIdle (now : UInt64) : (fuel : Nat) → Server → Result Server
  | 0, _ => .error .diverges
  | fuel + 1, s =>
    if dlistEmpty s.idle .idleConnList then return s
    else
      match (s.idle .idleConnList).next with
      | some (.idleNode p) => do
        let conn ← deref (s.conns p)
        let nextMs := conn.lastActivityMs + .ofNat kIdleTimeoutMs
        if nextMs ≥ now then return s
        else closeIdle now fuel (← handleDestroy s p)
      | _ => .error .memory

def processTimers (now : UInt64) (s : Server) : Result Server := do
  let s ← closeIdle now (s.nextConn + 1) s
  return { s with data := ← expireKeys now s.data }

/-! ## The loop -/

/-- Where the loop stands: before `poll()`, before the listening socket is looked at, or in the loop
over the connection sockets with the descriptors that are still to be looked at. -/
inductive Phase where
  | polling
  | accepting (polled : List Nat)
  | serving (polled : List Nat)

/-- The loop, and the last reading of the clock for a connection or a timer. -/
structure Loop where
  phase : Phase
  time : UInt64
  server : Server

/-- The start of the event loop, after the listening socket was opened. -/
def Loop.init (listenFd : Nat) : Loop where
  phase := .polling
  time := 0
  server := { openFds := [listenFd] }

/-- One step of the loop. The clock does not go back, and `accept()` returns a descriptor that is not
open. -/
inductive Loop.Step : Loop → Loop → Prop where
  | poll (hrun : pollArgs s s.fd2conn = .ok polled) :
      Step ⟨.polling, t, s⟩ ⟨.accepting polled, t, s⟩
  /-- `poll()` was interrupted by a signal. -/
  | interrupted : Step ⟨.polling, t, s⟩ ⟨.polling, t, s⟩
  | noAccept : Step ⟨.accepting polled, t, s⟩ ⟨.serving polled, t, s⟩
  | accept (htime : t ≤ now) (hfd : ∀ fd, accepted = some fd → fd ∉ s.openFds)
      (hrun : handleAccept accepted now s = .ok s') :
      Step ⟨.accepting polled, t, s⟩ ⟨.serving polled, now, s'⟩
  | event (htime : t ≤ e.now) (hrun : handleEvent e fd s = .ok s') :
      Step ⟨.serving (fd :: polled), t, s⟩ ⟨.serving polled, e.now, s'⟩
  | timers (htime : t ≤ now) (hrun : processTimers now s = .ok s') :
      Step ⟨.serving [], t, s⟩ ⟨.polling, now, s'⟩

end MiniRedis
