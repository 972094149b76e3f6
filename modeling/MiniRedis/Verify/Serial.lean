import MiniRedis.Verify.Intents
import MiniRedis.Verify.NextTimer

/-! # Many clients, one order

The loop serves all connections, but a request is executed at once. So there is one order of everything
that was executed, and each connection sees the part of it that belongs to it: its requests are the frames
that came in, and its responses go out in the same order. -/

namespace MiniRedis

/-! ## What goes through the sockets -/

/-- The bytes that were read from each connection and those that were written to it, and the readings of the
clock for what was executed. -/
structure Traffic where
  received : CPtr → Bytes := fun _ => []
  sent : CPtr → Bytes := fun _ => []
  times : List UInt64 := []

def Traffic.add (τ : Traffic) (p : CPtr) (received sent : Bytes) (times : List UInt64) : Traffic where
  received := Function.update τ.received p (τ.received p ++ received)
  sent := Function.update τ.sent p (τ.sent p ++ sent)
  times := τ.times ++ times

/-- A call of `process_timers`. -/
def Traffic.tick (τ : Traffic) (now : UInt64) : Traffic := { τ with times := τ.times ++ [now] }

/-- The readings of the clock for the requests that are complete with what is read. -/
def Event.times (e : Event) (conn : Connection) : List UInt64 :=
  if e.revents &&& pollIn ≠ 0 ∧ conn.wantRead then
    (List.range (splitFrames kMaxMsg (conn.incoming ++ e.read.bytes)).1.length).map e.clock
  else []

/-- `handleReadReady` with the bytes that are read and written. -/
def readTraffic (e : Event) (data : ServerData) (conn : Connection) :
    Result (ServerData × Connection × Bytes × Bytes) :=
  if e.revents &&& pollIn ≠ 0 ∧ conn.wantRead then do
    let (data, conn, written) ← handleRead e.clock data conn e.read e.writeAfterRead
    return (data, conn, e.read.bytes, written)
  else return (data, conn, [], [])

/-- `handleWriteReady` with the bytes that are written. -/
def writeTraffic (e : Event) (conn : Connection) : Result (Connection × Bytes) :=
  if e.revents &&& pollOut ≠ 0 ∧ conn.wantWrite then handleWrite conn e.write else return (conn, [])

/-- `handleEvent` with the traffic. -/
def eventTraffic (e : Event) (fd : Nat) (s : Server) (τ : Traffic) : Result (Server × Traffic) :=
  if e.revents = 0 then return (s, τ)
  else do
    let p ← deref (← index s.fd2conn fd)
    let client ← deref (s.conns p)
    let client := { client with lastActivityMs := e.now }
    let idle ← dlistDetach s.idle (.idleNode p)
    let idle ← dlistInsertBefore idle .idleConnList (.idleNode p)
    let (data, conn, received, written) ← readTraffic e s.data client.toConnection
    let (conn, written') ← writeTraffic e conn
    let τ := τ.add p received (written ++ written') (e.times client.toConnection)
    let client := { client with toConnection := conn }
    let s := { s with data, idle, conns := Function.update s.conns p (some client) }
    if e.revents &&& pollErr ≠ 0 ∨ client.wantClose then return (← handleDestroy s p, τ)
    else return (s, τ)

theorem map_bind (x : Result α) (f : α → Result β) (g : β → γ) :
    (x >>= f).map g = x >>= fun a => (f a).map g := by
  cases x <;> rfl

theorem handleReadReady_eq (e : Event) (data : ServerData) (conn : Connection) :
    handleReadReady e data conn = (readTraffic e data conn).map fun r => (r.1, r.2.1) := by
  unfold handleReadReady readTraffic
  split
  · rw [map_bind]
    rfl
  · rfl

theorem handleWriteReady_eq (e : Event) (conn : Connection) :
    handleWriteReady e conn = (writeTraffic e conn).map Prod.fst := by
  unfold handleWriteReady writeTraffic
  split
  · cases handleWrite conn e.write <;> rfl
  · rfl

/-- The traffic is only looked at. -/
theorem handleEvent_eq (e : Event) (fd : Nat) (s : Server) (τ : Traffic) :
    handleEvent e fd s = (eventTraffic e fd s τ).map Prod.fst := by
  unfold handleEvent eventTraffic
  split
  · rfl
  simp only [map_bind]
  refine bind_congr fun slot => bind_congr fun p => bind_congr fun client =>
    bind_congr fun detached => bind_congr fun idle => ?_
  rw [handleReadReady_eq]
  cases readTraffic e s.data { client with lastActivityMs := e.now }.toConnection with
  | error fault => rfl
  | ok r =>
    simp only [Except.map, ok_bind, handleWriteReady_eq]
    cases writeTraffic e r.2.1 with
    | error fault => rfl
    | ok r' =>
      simp only [ok_bind]
      split
      · cases handleDestroy _ p <;> rfl
      · rfl

/-! ## What was executed -/

/-- A request of a connection with its response, or a call of `process_timers`, at a reading of the clock. -/
inductive Executed where
  | request (now : UInt64) (conn : CPtr) (request response : Bytes)
  | timers (now : UInt64)

def Executed.now : Executed → UInt64
  | .request now _ _ _ | .timers now => now

/-- Executing one thing after the other leads from one state of the server to another. -/
def Replay : ServerData → List Executed → ServerData → Prop
  | s, [], s' => s' = s
  | s, .request now _ request response :: log, s' =>
    ∃ s₁, respond now s request = .ok (s₁, response) ∧ Replay s₁ log s'
  | s, .timers now :: log, s' => ∃ s₁, expireKeys now s = .ok s₁ ∧ Replay s₁ log s'

/-- The requests of a connection, with their responses. -/
def exchanges (p : CPtr) (log : List Executed) : List (Bytes × Bytes) :=
  log.filterMap fun
    | .request _ q request response => if q = p then some (request, response) else none
    | .timers _ => none

def executedFor (clock : Nat → UInt64) (p : CPtr) (xs : List (Bytes × Bytes)) : List Executed :=
  xs.mapIdx fun i x => .request (clock i) p x.1 x.2

section
variable {s s₁ s' : ServerData} {log log' : List Executed} {clock : Nat → UInt64} {p q : CPtr}
  {xs : List (Bytes × Bytes)}

theorem Replay.append (h : Replay s log s₁) (h' : Replay s₁ log' s') : Replay s (log ++ log') s' := by
  induction log generalizing s with
  | nil =>
    obtain rfl : s₁ = s := h
    exact h'
  | cons x log ih =>
    cases x with
    | request now conn request response =>
      obtain ⟨s₂, hrun, h⟩ := h
      exact ⟨s₂, hrun, ih h⟩
    | timers now =>
      obtain ⟨s₂, hrun, h⟩ := h
      exact ⟨s₂, hrun, ih h⟩

theorem exchanges_append : exchanges p (log ++ log') = exchanges p log ++ exchanges p log' :=
  List.filterMap_append ..

theorem executedFor_cons (x : Bytes × Bytes) : executedFor clock p (x :: xs) =
    .request (clock 0) p x.1 x.2 :: executedFor (fun i => clock (i + 1)) p xs :=
  List.mapIdx_cons

theorem exchanges_executedFor : exchanges p (executedFor clock p xs) = xs := by
  induction xs generalizing clock with
  | nil => rfl
  | cons x xs ih =>
    rw [executedFor_cons, exchanges, List.filterMap_cons_some (b := x) (by simp)]
    exact congrArg (x :: ·) ih

theorem exchanges_executedFor_of_ne (hne : q ≠ p) : exchanges p (executedFor clock q xs) = [] := by
  refine List.filterMap_eq_nil_iff.mpr fun x hx => ?_
  obtain ⟨i, hi, rfl⟩ := List.mem_mapIdx.mp hx
  exact if_neg hne

/-- One reading for each request. -/
theorem now_executedFor : (executedFor clock p xs).map Executed.now = (List.range xs.length).map clock := by
  induction xs generalizing clock with
  | nil => rfl
  | cons x xs ih =>
    rw [executedFor_cons, List.map_cons, ih, List.length_cons, List.range_succ_eq_map, List.map_cons, List.map_map]
    rfl

/-- What a connection executes is part of the log. -/
theorem Serves.replay (h : Serves clock s xs s') (p : CPtr) : Replay s (executedFor clock p xs) s' := by
  induction xs generalizing clock s with
  | nil => exact h
  | cons x xs ih =>
    obtain ⟨s₁, hrun, h⟩ := h
    rw [executedFor_cons]
    exact ⟨s₁, hrun, ih h⟩

end

/-! ## One event -/

section
variable {e : Event} {s s' : ServerData} {conn conn' : Connection} {received written : Bytes}

theorem readTraffic_ok (hdone : nextFrame? kMaxMsg conn.incoming = none)
    (hwant : conn.wantWrite = true → conn.outgoing ≠ []) (p : CPtr)
    (hrun : readTraffic e s conn = .ok (s', conn', received, written)) :
    ∃ xs : List (Bytes × Bytes), Replay s (executedFor e.clock p xs) s' ∧
      splitFrames kMaxMsg (conn.incoming ++ received) = (xs.map Prod.fst, conn'.incoming) ∧
      written ++ conn'.outgoing = conn.outgoing ++ ((xs.map Prod.snd).map frame).flatten ∧
      (∀ x ∈ xs, x.2.length ≤ kMaxMsg) ∧ (executedFor e.clock p xs).map Executed.now = e.times conn := by
  unfold Event.times
  unfold readTraffic at hrun
  split at hrun
  · next hready =>
    obtain ⟨⟨s₁, conn₁, out⟩, hread, hret⟩ := bind_eq_ok.mp hrun
    cases hret
    obtain ⟨xs, hserves, hsplit, hout, hlen, -⟩ := handleRead_ok hdone hwant hread
    refine ⟨xs, hserves.replay p, hsplit, hout, hlen, ?_⟩
    rw [if_pos hready, now_executedFor, hsplit, List.length_map]
  · next hready =>
    cases hrun
    refine ⟨[], rfl, ?_, by simp, by simp, by rw [if_neg hready]; rfl⟩
    rw [List.append_nil, splitFrames_of_none hdone]
    rfl

theorem writeTraffic_ok (hrun : writeTraffic e conn = .ok (conn', written)) :
    conn'.incoming = conn.incoming ∧ written ++ conn'.outgoing = conn.outgoing := by
  unfold writeTraffic at hrun
  split at hrun
  · obtain ⟨hincoming, hout, -⟩ := handleWrite_ok hrun
    exact ⟨hincoming, hout⟩
  · cases hrun
    exact ⟨rfl, rfl⟩

end

/-! ## The loop -/

/-- The states that the loop reaches, with the traffic so far. -/
inductive Loop.Traced (listenFd : Nat) : Loop → Traffic → Prop where
  | init : Traced listenFd (.init listenFd) {}
  | quiet (h : Traced listenFd l τ) (hstep : l.Step l') (hphase : ∀ polled, l.phase ≠ .serving polled) :
      Traced listenFd l' τ
  | event (h : Traced listenFd ⟨.serving (fd :: polled), t, s⟩ τ) (htime : t ≤ e.now)
      (hrun : eventTraffic e fd s τ = .ok (s', τ')) :
      Traced listenFd ⟨.serving polled, e.now, s'⟩ τ'
  | timers (h : Traced listenFd ⟨.serving [], t, s⟩ τ) (htime : t ≤ now)
      (hrun : processTimers now s = .ok s') : Traced listenFd ⟨.polling, now, s'⟩ (τ.tick now)

/-- The states that the loop reaches later, with the traffic up to then. -/
inductive Loop.Continues (l₀ : Loop) (τ₀ : Traffic) : Loop → Traffic → Prop where
  | refl : Continues l₀ τ₀ l₀ τ₀
  | quiet (h : Continues l₀ τ₀ l τ) (hstep : l.Step l') (hphase : ∀ polled, l.phase ≠ .serving polled) :
      Continues l₀ τ₀ l' τ
  | event (h : Continues l₀ τ₀ ⟨.serving (fd :: polled), t, s⟩ τ) (htime : t ≤ e.now)
      (hrun : eventTraffic e fd s τ = .ok (s', τ')) :
      Continues l₀ τ₀ ⟨.serving polled, e.now, s'⟩ τ'
  | timers (h : Continues l₀ τ₀ ⟨.serving [], t, s⟩ τ) (htime : t ≤ now)
      (hrun : processTimers now s = .ok s') : Continues l₀ τ₀ ⟨.polling, now, s'⟩ (τ.tick now)

namespace Loop

variable {listenFd : Nat} {l l₀ : Loop} {τ τ₀ : Traffic}

theorem Traced.continues (h : Traced listenFd l τ) : Continues (.init listenFd) {} l τ := by
  induction h with
  | init => exact .refl
  | quiet _ hstep hphase ih => exact .quiet ih hstep hphase
  | event _ htime hrun ih => exact .event ih htime hrun
  | timers _ htime hrun ih => exact .timers ih htime hrun

theorem Continues.traced (h : Continues l₀ τ₀ l τ) (h₀ : Traced listenFd l₀ τ₀) : Traced listenFd l τ := by
  induction h with
  | refl => exact h₀
  | quiet _ hstep hphase ih => exact .quiet ih hstep hphase
  | event _ htime hrun ih => exact .event ih htime hrun
  | timers _ htime hrun ih => exact .timers ih htime hrun

theorem Traced.reaches (h : Traced listenFd l τ) :
    Relation.ReflTransGen Step (Loop.init listenFd) l := by
  induction h with
  | init => exact .refl
  | quiet _ hstep _ ih => exact ih.tail hstep
  | event _ htime hrun ih =>
    refine ih.tail (.event htime ?_)
    rw [handleEvent_eq, hrun]
    rfl
  | timers _ htime hrun ih => exact ih.tail (.timers htime hrun)

/-- Every run has its traffic. -/
theorem exists_continues (hrun : Relation.ReflTransGen Step l₀ l) (τ₀ : Traffic) :
    ∃ τ, Continues l₀ τ₀ l τ := by
  induction hrun with
  | refl => exact ⟨_, .refl⟩
  | tail _ hstep ih =>
    obtain ⟨τ, h⟩ := ih
    cases hstep with
    | poll hpoll => exact ⟨τ, .quiet h (.poll hpoll) nofun⟩
    | interrupted => exact ⟨τ, .quiet h .interrupted nofun⟩
    | noAccept => exact ⟨τ, .quiet h .noAccept nofun⟩
    | accept htime hfd hrun => exact ⟨τ, .quiet h (.accept htime hfd hrun) nofun⟩
    | timers htime hrun => exact ⟨_, .timers h htime hrun⟩
    | @event t e fd s s' polled htime hrun =>
      rw [handleEvent_eq e fd s τ] at hrun
      cases htraffic : eventTraffic e fd s τ with
      | error fault =>
        rw [htraffic] at hrun
        cases hrun
      | ok r =>
        rw [htraffic] at hrun
        cases hrun
        exact ⟨r.2, .event h htime htraffic⟩

theorem exists_traced (hrun : Relation.ReflTransGen Step (Loop.init listenFd) l) :
    ∃ τ, Traced listenFd l τ := by
  obtain ⟨τ, h⟩ := exists_continues hrun {}
  exact ⟨τ, h.traced .init⟩

end Loop

/-! ## The invariant -/

/-- The log explains the server data and, for each connection, its traffic and its buffers. -/
structure Server.Serialises (s : Server) (τ : Traffic) (log : List Executed) : Prop where
  replay : Replay {} log s.data
  times : log.map Executed.now = τ.times
  conn : ∀ p, ∃ incoming outgoing,
    splitFrames kMaxMsg (τ.received p) = ((exchanges p log).map Prod.fst, incoming) ∧
    τ.sent p ++ outgoing = (((exchanges p log).map Prod.snd).map frame).flatten ∧
    ∀ conn, s.conns p = some conn → conn.incoming = incoming ∧ conn.outgoing = outgoing
  length : ∀ p, ∀ x ∈ exchanges p log, x.2.length ≤ kMaxMsg
  fresh : ∀ p, s.nextConn ≤ p → τ.received p = [] ∧ τ.sent p = []

namespace Server.Serialises

variable {s s' : Server} {τ τ' : Traffic} {log : List Executed} {p : CPtr} {now : UInt64}

theorem init (listenFd : Nat) : Server.Serialises { openFds := [listenFd] } {} [] where
  replay := rfl
  times := rfl
  conn _ := ⟨[], [], splitFrames_nil _, rfl, fun _ hconn => nomatch hconn⟩
  length _ _ hx := nomatch hx
  fresh _ _ := ⟨rfl, rfl⟩

theorem handleAccept {accepted : Option Nat} (h : s.Serialises τ log)
    (hrun : handleAccept accepted now s = .ok s') : s'.Serialises τ log ∧ s'.data = s.data := by
  cases accepted with
  | none =>
    cases hrun
    exact ⟨h, rfl⟩
  | some fd =>
    obtain ⟨idle, -, hrun⟩ := bind_eq_ok.mp hrun
    obtain ⟨slot, -, hrun⟩ := bind_eq_ok.mp hrun
    obtain ⟨_, -, hrun⟩ := bind_eq_ok.mp hrun
    obtain ⟨fd2conn, -, hret⟩ := bind_eq_ok.mp hrun
    cases hret
    refine ⟨⟨h.replay, h.times, fun q => ?_, h.length, fun q hq => h.fresh q (Nat.le_of_succ_le hq)⟩, rfl⟩
    obtain ⟨incoming, outgoing, hsplit, hsent, hbuffers⟩ := h.conn q
    refine ⟨incoming, outgoing, hsplit, hsent, fun conn hconn => ?_⟩
    simp only at hconn
    by_cases hq : q = s.nextConn
    · -- The new connection has not been read from or written to.
      obtain ⟨hreceived, hnone⟩ := h.fresh q (Nat.le_of_eq hq.symm)
      rw [hreceived, splitFrames_nil] at hsplit
      obtain ⟨hreqs, rfl⟩ := Prod.mk.inj hsplit
      rw [List.map_eq_nil_iff.mp hreqs.symm, hnone] at hsent
      rw [hq, Function.update_self] at hconn
      cases hconn
      exact ⟨rfl, hsent.symm⟩
    · rw [Function.update_of_ne hq] at hconn
      exact hbuffers conn hconn

/-- Connections that are closed leave the log as it is. -/
theorem of_closed (h : s.Serialises τ log) (hdata : s'.data = s.data) (hnext : s'.nextConn = s.nextConn)
    (hconns : ∀ q conn, s'.conns q = some conn → s.conns q = some conn) : s'.Serialises τ log where
  replay := hdata ▸ h.replay
  times := h.times
  conn q := by
    obtain ⟨incoming, outgoing, hsplit, hsent, hbuffers⟩ := h.conn q
    exact ⟨incoming, outgoing, hsplit, hsent, fun conn hconn => hbuffers conn (hconns q conn hconn)⟩
  length := h.length
  fresh := hnext ▸ h.fresh

theorem handleDestroy (h : s.Serialises τ log) (hrun : handleDestroy s p = .ok s') :
    s'.Serialises τ log ∧ s'.data = s.data := by
  obtain ⟨conn, -, hrun⟩ := bind_eq_ok.mp hrun
  obtain ⟨fd2conn, -, hrun⟩ := bind_eq_ok.mp hrun
  obtain ⟨idle, -, hret⟩ := bind_eq_ok.mp hrun
  cases hret
  exact ⟨h.of_closed rfl rfl (forall_update_some (fun _ _ _ hc => hc) fun _ hc => nomatch hc), rfl⟩

theorem closeIdle {fuel : Nat} (h : s.Serialises τ log) (hrun : closeIdle now fuel s = .ok s') :
    s'.Serialises τ log ∧ s'.data = s.data := by
  induction fuel generalizing s with
  | zero => cases hrun
  | succ fuel ih =>
    unfold MiniRedis.closeIdle at hrun
    split at hrun
    · cases hrun
      exact ⟨h, rfl⟩
    · split at hrun
      · obtain ⟨conn, -, hrun⟩ := bind_eq_ok.mp hrun
        simp only at hrun
        split at hrun
        · cases hrun
          exact ⟨h, rfl⟩
        · obtain ⟨s₁, hdestroy, hrun⟩ := bind_eq_ok.mp hrun
          obtain ⟨h₁, hdata₁⟩ := h.handleDestroy hdestroy
          obtain ⟨h', hdata'⟩ := ih h₁ hrun
          exact ⟨h', hdata'.trans hdata₁⟩
      · cases hrun

theorem processTimers (h : s.Serialises τ log) (hrun : processTimers now s = .ok s') :
    s'.Serialises (τ.tick now) (log ++ [.timers now]) ∧ Replay s.data [.timers now] s'.data := by
  obtain ⟨s₁, hclose, hrun⟩ := bind_eq_ok.mp hrun
  obtain ⟨data, hexpire, hret⟩ := bind_eq_ok.mp hrun
  obtain ⟨h₁, hdata₁⟩ := h.closeIdle hclose
  cases hret
  have hsame : ∀ q, exchanges q (log ++ [.timers now]) = exchanges q log := fun q =>
    exchanges_append.trans (List.append_nil _)
  have hreplay : Replay s₁.data [.timers now] data := ⟨data, hexpire, rfl⟩
  refine ⟨⟨h₁.replay.append hreplay, ?_, fun q => ?_, fun q => ?_, h₁.fresh⟩, hdata₁ ▸ hreplay⟩
  · rw [List.map_append, h₁.times]
    rfl
  · rw [hsame]
    exact h₁.conn q
  · rw [hsame]
    exact h₁.length q

/-- A connection whose buffers changed by what went through its socket. -/
theorem serve {client client' : ClientConn} {clock : Nat → UInt64} {xs : List (Bytes × Bytes)}
    {received written : Bytes} {times : List UInt64}
    (h : s.Serialises τ log) (hp : p < s.nextConn) (hclient : s.conns p = some client)
    (hreplay : Replay s.data (executedFor clock p xs) s'.data)
    (htimes : (executedFor clock p xs).map Executed.now = times)
    (hsplit : splitFrames kMaxMsg (client.incoming ++ received) = (xs.map Prod.fst, client'.incoming))
    (hout : written ++ client'.outgoing =
      client.outgoing ++ ((xs.map Prod.snd).map frame).flatten)
    (hlen : ∀ x ∈ xs, x.2.length ≤ kMaxMsg) (hnext : s'.nextConn = s.nextConn)
    (hconns : s'.conns = Function.update s.conns p (some client')) :
    s'.Serialises (τ.add p received written times) (log ++ executedFor clock p xs) where
  replay := h.replay.append hreplay
  times := by rw [List.map_append, h.times, htimes, Traffic.add]
  conn q := by
    obtain ⟨incoming, outgoing, hsplit₀, hsent, hbuffers⟩ := h.conn q
    rw [exchanges_append, hconns]
    by_cases hq : q = p
    · subst hq
      obtain ⟨rfl, rfl⟩ := hbuffers client hclient
      refine ⟨client'.incoming, client'.outgoing, ?_, ?_, fun conn hconn => ?_⟩
      · simp only [Traffic.add, Function.update_self]
        rw [splitFrames_append, hsplit₀, hsplit, exchanges_executedFor, List.map_append]
      · simp only [Traffic.add, Function.update_self]
        rw [exchanges_executedFor, List.map_append, List.map_append, List.flatten_append, ← hsent,
          List.append_assoc, List.append_assoc, hout]
      · rw [Function.update_self] at hconn
        cases hconn
        exact ⟨rfl, rfl⟩
    · rw [exchanges_executedFor_of_ne (Ne.symm hq), List.append_nil]
      refine ⟨incoming, outgoing, ?_, ?_, fun conn hconn => ?_⟩
      · simpa only [Traffic.add, Function.update_of_ne hq] using hsplit₀
      · simpa only [Traffic.add, Function.update_of_ne hq] using hsent
      · rw [Function.update_of_ne hq] at hconn
        exact hbuffers conn hconn
  length q x hx := by
    rw [exchanges_append] at hx
    rcases List.mem_append.mp hx with hx | hx
    · exact h.length q x hx
    · by_cases hq : q = p
      · subst hq
        rw [exchanges_executedFor] at hx
        exact hlen x hx
      · rw [exchanges_executedFor_of_ne (Ne.symm hq)] at hx
        cases hx
  fresh q hq := by
    rw [hnext] at hq
    have hne : q ≠ p := fun he => Nat.lt_irrefl _ (Nat.lt_of_lt_of_le hp (he ▸ hq))
    simp only [Traffic.add, Function.update_of_ne hne]
    exact h.fresh q hq

theorem event {e : Event} {fd : Nat} {ps : List CPtr} (h : s.Serialises τ log) (hreg : s.Registered ps)
    (hintents : s.IntentsMatch) (hrun : eventTraffic e fd s τ = .ok (s', τ')) :
    ∃ log', s'.Serialises τ' (log ++ log') ∧ Replay s.data log' s'.data := by
  unfold eventTraffic at hrun
  split at hrun
  · cases hrun
    exact ⟨[], by rwa [List.append_nil], rfl⟩
  obtain ⟨slot, -, hrun⟩ := bind_eq_ok.mp hrun
  obtain ⟨p, -, hrun⟩ := bind_eq_ok.mp hrun
  obtain ⟨client, hclient, hrun⟩ := bind_eq_ok.mp hrun
  obtain ⟨detached, -, hrun⟩ := bind_eq_ok.mp hrun
  obtain ⟨idle, -, hrun⟩ := bind_eq_ok.mp hrun
  obtain ⟨⟨data, conn₁, received, written⟩, hread, hrun⟩ := bind_eq_ok.mp hrun
  obtain ⟨⟨conn₂, written'⟩, hwrite, hrun⟩ := bind_eq_ok.mp hrun
  rw [deref_eq_ok] at hclient
  obtain ⟨incoming, outgoing, hsplit₀, -, hbuffers⟩ := h.conn p
  have hdone : nextFrame? kMaxMsg client.incoming = none := by
    have hrest := nextFrame?_splitFrames kMaxMsg (τ.received p)
    rwa [hsplit₀, ← (hbuffers client hclient).1] at hrest
  obtain ⟨xs, hreplay, hsplit, hout, hlen, htimes⟩ :=
    readTraffic_ok hdone (hintents p client hclient).write.mp p hread
  obtain ⟨hincoming, hout'⟩ := writeTraffic_ok hwrite
  have hp : p < s.nextConn := hreg.fresh p ((hreg.live p).mpr ⟨client, hclient⟩)
  have hserved : Server.Serialises { s with
      data, idle
      conns := Function.update s.conns p
        (some { client with toConnection := conn₂, lastActivityMs := e.now }) }
      (τ.add p received (written ++ written') (e.times client.toConnection))
      (log ++ executedFor e.clock p xs) := by
    refine h.serve hp hclient hreplay htimes ?_ ?_ hlen rfl rfl
    · rw [hsplit, ← hincoming]
    · rw [List.append_assoc, hout', hout]
  refine ⟨executedFor e.clock p xs, ?_⟩
  simp only at hrun
  split at hrun
  · obtain ⟨s₁, hdestroy, hret⟩ := bind_eq_ok.mp hrun
    cases hret
    obtain ⟨hclosed, hdata⟩ := hserved.handleDestroy hdestroy
    exact ⟨hclosed, hdata ▸ hreplay⟩
  · cases hrun
    exact ⟨hserved, hreplay⟩

end Server.Serialises

/-- The log of a later state begins with that of the earlier one, and the rest leads from the earlier data
to the later. -/
theorem Loop.Continues.serialises {listenFd : Nat} {l l₀ : Loop} {τ τ₀ : Traffic} {log : List Executed}
    (h : Loop.Continues l₀ τ₀ l τ) (h₀ : Loop.Traced listenFd l₀ τ₀) (hlog : l₀.server.Serialises τ₀ log) :
    ∃ log', l.server.Serialises τ (log ++ log') ∧ Replay l₀.server.data log' l.server.data := by
  induction h with
  | refl => exact ⟨[], by rwa [List.append_nil], rfl⟩
  | quiet h hstep hphase ih =>
    obtain ⟨log₁, hlog₁, hreplay₁⟩ := ih
    cases hstep with
    | poll | interrupted | noAccept => exact ⟨log₁, hlog₁, hreplay₁⟩
    | accept htime hfd hrun =>
      obtain ⟨hlog', hdata⟩ := hlog₁.handleAccept hrun
      exact ⟨log₁, hlog', hdata ▸ hreplay₁⟩
    | event htime hrun => exact absurd rfl (hphase _)
    | timers htime hrun => exact absurd rfl (hphase _)
  | timers h htime hrun ih =>
    obtain ⟨log₁, hlog₁, hreplay₁⟩ := ih
    obtain ⟨hlog', hreplay⟩ := hlog₁.processTimers hrun
    exact ⟨log₁ ++ [.timers _], List.append_assoc .. ▸ hlog', hreplay₁.append hreplay⟩
  | event h htime hrun ih =>
    obtain ⟨log₁, hlog₁, hreplay₁⟩ := ih
    have hreach := (h.traced h₀).reaches
    obtain ⟨ps, hcons⟩ := Loop.consistent_run hreach
    obtain ⟨log₂, hlog₂, hreplay⟩ :=
      hlog₁.event hcons.server.registered (Loop.intentsMatch_run hreach) hrun
    exact ⟨log₁ ++ log₂, List.append_assoc .. ▸ hlog₂, hreplay₁.append hreplay⟩

theorem Loop.Traced.serialises {listenFd : Nat} {l : Loop} {τ : Traffic} (h : Loop.Traced listenFd l τ) :
    ∃ log, l.server.Serialises τ log := by
  obtain ⟨log, hlog, -⟩ := h.continues.serialises .init (.init listenFd)
  exact ⟨log, hlog⟩

/-- What a connection has sent and received, by the log. -/
theorem Server.Serialises.traffic {s : Server} {τ : Traffic} {log : List Executed} (h : s.Serialises τ log)
    (p : CPtr) :
    (exchanges p log).map Prod.fst = (splitFrames kMaxMsg (τ.received p)).1 ∧
      τ.sent p <+: (((exchanges p log).map Prod.snd).map frame).flatten ∧
      (splitFrames kMaxMsg (τ.sent p)).1 <+: (exchanges p log).map Prod.snd := by
  obtain ⟨incoming, outgoing, hsplit, hsent, -⟩ := h.conn p
  have hresponses : ∀ r ∈ (exchanges p log).map Prod.snd, r.length ≤ kMaxMsg := by
    intro r hr
    obtain ⟨x, hx, rfl⟩ := List.mem_map.mp hr
    exact h.length p x hx
  have hprefix : τ.sent p <+: (((exchanges p log).map Prod.snd).map frame).flatten := ⟨outgoing, hsent⟩
  refine ⟨by rw [hsplit], hprefix, ?_⟩
  have hframes : (splitFrames kMaxMsg _).1 <+: (splitFrames kMaxMsg _).1 := splitFrames_prefix hprefix
  rwa [splitFrames_map_frame kMaxMsg_lt hresponses] at hframes

/-- **One order for all clients.** In every state that the loop reaches there is a log of what was
executed since the start, one request or call of `process_timers` after the other, that leads from the
empty server to its data. For every connection that was ever accepted, the requests of the log that belong
to it are the complete frames of the bytes that were read from it, in order; the bytes that were written to
it are a first part of the frames of their responses, so that the frames a client can read are the
responses to its first requests; and for a connection that is still open, what is missing is in its
buffers. -/
theorem clients_serialised {listenFd : Nat} {l : Loop} {τ : Traffic} (h : Loop.Traced listenFd l τ) :
    ∃ log : List Executed, Replay {} log l.server.data ∧
      ∀ p, (exchanges p log).map Prod.fst = (splitFrames kMaxMsg (τ.received p)).1 ∧
        τ.sent p <+: (((exchanges p log).map Prod.snd).map frame).flatten ∧
        (splitFrames kMaxMsg (τ.sent p)).1 <+: (exchanges p log).map Prod.snd ∧
        ∀ conn, l.server.conns p = some conn →
          τ.received p = (((exchanges p log).map Prod.fst).map frame).flatten ++ conn.incoming ∧
          nextFrame? kMaxMsg conn.incoming = none ∧
          τ.sent p ++ conn.outgoing = (((exchanges p log).map Prod.snd).map frame).flatten := by
  obtain ⟨log, hlog⟩ := h.serialises
  refine ⟨log, hlog.replay, fun p => ?_⟩
  obtain ⟨hrequests, hsent, hresponses⟩ := hlog.traffic p
  refine ⟨hrequests, hsent, hresponses, fun conn hconn => ?_⟩
  obtain ⟨incoming, outgoing, hsplit, hsent', hbuffers⟩ := hlog.conn p
  obtain ⟨rfl, rfl⟩ := hbuffers conn hconn
  have hreceived := splitFrames_flatten kMaxMsg_lt (τ.received p)
  have hdone := nextFrame?_splitFrames kMaxMsg (τ.received p)
  rw [hsplit] at hreceived hdone
  exact ⟨hreceived, hdone, hsent'⟩

/-- A run up to the first event of a connection. -/
theorem traced_accepted : ∃ s, Loop.Traced 3 ⟨.serving [4], 5, s⟩ { times := [5] } ∧
    (handleAccept (some 4) 5 { openFds := [3] } >>= processTimers 5) = .ok s := by
  obtain ⟨s₁, haccept⟩ : ∃ s, handleAccept (some 4) 5 { openFds := [3] } = .ok s := ⟨_, rfl⟩
  obtain ⟨s₂, htimers⟩ : ∃ s, processTimers 5 s₁ = .ok s := by
    cases haccept
    exact ⟨_, rfl⟩
  have hpoll : pollArgs s₂ s₂.fd2conn = .ok [4] := by
    cases haccept
    cases htimers
    rfl
  have h₁ : Loop.Traced 3 ⟨.serving [], 5, s₁⟩ {} :=
    (Loop.Traced.init.quiet (.poll rfl) nofun).quiet
      (.accept (UInt64.le_iff_toNat_le.mpr (Nat.zero_le _)) (by simp) haccept) nofun
  have h₂ := (h₁.timers (UInt64.le_refl _) htimers).quiet (.poll hpoll) nofun
  refine ⟨s₂, h₂.quiet .noAccept nofun, ?_⟩
  rw [haccept, ok_bind, htimers]

/-- A run with two requests in one chunk, before and after the chunk is read. -/
theorem traced_longTtl : ∃ s r, Loop.Traced 3 ⟨.serving [4], 5, s⟩ { times := [5] } ∧
    eventTraffic longTtl 4 s { times := [5] } = .ok r ∧ r.2.received 0 = longTtl.read.bytes ∧
      r.2.times = [5, 10, 10] := by
  obtain ⟨s, h, hs⟩ := traced_accepted
  obtain ⟨r, hevent, hreceived, htimes⟩ : ∃ r, eventTraffic longTtl 4 s { times := [5] } = .ok r ∧
      r.2.received 0 = longTtl.read.bytes ∧ r.2.times = [5, 10, 10] := by
    cases hs
    exact ⟨_, rfl, rfl, by decide +kernel⟩
  exact ⟨s, r, h, hevent, hreceived, htimes⟩

theorem clients_serialised_longTtl :
    ∃ l τ log, Loop.Traced 3 l τ ∧ τ.received 0 = longTtl.read.bytes ∧ Replay {} log l.server.data ∧
      (exchanges 0 log).map Prod.fst = (splitFrames kMaxMsg longTtl.read.bytes).1 := by
  obtain ⟨s, r, h, hevent, hreceived, -⟩ := traced_longTtl
  have h' := h.event (show (5 : UInt64) ≤ 10 by decide) hevent
  obtain ⟨log, hreplay, hconn⟩ := clients_serialised h'
  exact ⟨_, _, log, h', hreceived, hreplay, hreceived ▸ (hconn 0).1⟩

/-- **The order respects real time.** For a state of the loop and a later one there is a log that ends in
the data of the first and one that leads from there to the data of the second. The complete requests that
had come in at the first state are all in the first log, and so are the answers that could be read by then;
the complete requests that came in after it are all in the second. -/
theorem serialised_in_real_time {listenFd : Nat} {l₀ l : Loop} {τ₀ τ : Traffic}
    (h₀ : Loop.Traced listenFd l₀ τ₀) (h : Loop.Continues l₀ τ₀ l τ) :
    ∃ log log', Replay {} log l₀.server.data ∧ Replay l₀.server.data log' l.server.data ∧
      ∀ p, (splitFrames kMaxMsg (τ₀.received p)).1 = (exchanges p log).map Prod.fst ∧
        (splitFrames kMaxMsg (τ.received p)).1 =
          (exchanges p log).map Prod.fst ++ (exchanges p log').map Prod.fst ∧
        (splitFrames kMaxMsg (τ₀.sent p)).1 <+: (exchanges p log).map Prod.snd ∧
        (splitFrames kMaxMsg (τ.sent p)).1 <+:
          (exchanges p log).map Prod.snd ++ (exchanges p log').map Prod.snd := by
  obtain ⟨log, hlog⟩ := h₀.serialises
  obtain ⟨log', hlog', hreplay⟩ := h.serialises h₀ hlog
  refine ⟨log, log', hlog.replay, hreplay, fun p => ?_⟩
  obtain ⟨hrequests, -, hresponses⟩ := hlog.traffic p
  obtain ⟨hrequests', -, hresponses'⟩ := hlog'.traffic p
  rw [exchanges_append, List.map_append] at hrequests' hresponses'
  exact ⟨hrequests.symm, hrequests'.symm, hresponses, hresponses'⟩

/-- Nothing was executed before the chunk, and its requests after. -/
theorem serialised_in_real_time_longTtl :
    ∃ l₀ l τ₀ τ log', Loop.Traced 3 l₀ τ₀ ∧ Loop.Continues l₀ τ₀ l τ ∧
      Replay l₀.server.data log' l.server.data ∧
      (exchanges 0 log').map Prod.fst = (splitFrames kMaxMsg longTtl.read.bytes).1 := by
  obtain ⟨s, r, h, hevent, hreceived, -⟩ := traced_longTtl
  have h' : Loop.Continues ⟨.serving [4], 5, s⟩ { times := [5] } ⟨.serving [], 10, r.1⟩ r.2 :=
    .event .refl (show (5 : UInt64) ≤ 10 by decide) hevent
  obtain ⟨log, log', -, hreplay, hconn⟩ := serialised_in_real_time h h'
  obtain ⟨hrequests, hrequests', -⟩ := hconn 0
  have hnone : (exchanges 0 log).map Prod.fst = [] := by
    rw [← hrequests, splitFrames_nil]
  rw [hnone, hreceived] at hrequests'
  exact ⟨_, _, _, _, log', h, h', hreplay, hrequests'.symm⟩

end MiniRedis
