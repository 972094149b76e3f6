import MiniRedis.Theory.Keyed
import MiniRedis.Verify.EventLoop

/-! # What a connection waits for

A connection wants to read or to write, never both: it wants to write as long as there is output. So
`handle_write` is called only with output, and every connection that is left waits for something. -/

namespace MiniRedis

/-- The flags say what the buffer says. -/
structure Connection.IntentsMatch (conn : Connection) : Prop where
  one : conn.wantRead = !conn.wantWrite
  write : conn.wantWrite = true ↔ conn.outgoing ≠ []

section
variable {s s' : ServerData} {conn conn' : Connection} {written : Bytes}

namespace Connection.IntentsMatch

/-- A connection that is left waits for input, or has output pending. -/
theorem waits (h : conn.IntentsMatch) : conn.wantRead = true ∨ conn.outgoing ≠ [] := by
  cases hwrite : conn.wantWrite with
  | true => exact .inr (h.write.mp hwrite)
  | false => exact .inl (by rw [h.one, hwrite]; rfl)

theorem setClose (h : conn.IntentsMatch) (wantClose : Bool) :
    { conn with wantClose }.IntentsMatch := ⟨h.one, h.write⟩

/-! ## The calls -/

theorem handleWrite (h : conn.IntentsMatch) {rv : WriteResult}
    (hrun : handleWrite conn rv = .ok (conn', written)) : conn'.IntentsMatch := by
  obtain ⟨_, hassert, hrun⟩ := bind_eq_ok.mp hrun
  have hne : conn.outgoing ≠ [] := by simpa using hassert
  cases rv with
  | again =>
    cases hrun
    exact h
  | failed =>
    cases hrun
    exact h.setClose true
  | accepted n =>
    simp only at hrun
    split at hrun
    · next hempty =>
      cases hrun
      exact ⟨rfl, iff_of_false Bool.false_ne_true fun hleft => hleft (List.length_eq_zero_iff.mp hempty)⟩
    · next hleft =>
      cases hrun
      have hne' : consumeBuffer conn.outgoing n ≠ [] := fun hnil => hleft (congrArg List.length hnil)
      exact ⟨h.one, iff_of_true (h.write.mpr hne) hne'⟩

end Connection.IntentsMatch

/-- What `handle_read` does after the requests: the flags are set, and the output is written at once. -/
theorem Connection.IntentsMatch.handleRead (h : conn.IntentsMatch) (hwant : conn.wantRead = true)
    {clock : Nat → UInt64} {rv : ReadResult} {write : Bytes → WriteResult}
    (hrun : handleRead clock s conn rv write = .ok (s', conn', written)) : conn'.IntentsMatch := by
  have hwrite : conn.wantWrite = false := by
    rw [h.one, Bool.not_eq_true'] at hwant
    exact hwant
  cases rv with
  | again =>
    cases hrun
    exact h
  | failed | eof =>
    cases hrun
    exact h.setClose true
  | data chunk =>
    obtain ⟨⟨s₁, conn₁⟩, hreqs, hrun⟩ := bind_eq_ok.mp hrun
    obtain ⟨-, -, -, -, -, hread₁, hwrite₁⟩ := handleRequests_ok hreqs
    simp only at hrun
    split at hrun
    · next hsome =>
      have hne : conn₁.outgoing ≠ [] := by simpa using hsome
      obtain ⟨r, hout, hret⟩ := bind_eq_ok.mp hrun
      cases hret
      have hset : { conn₁ with wantRead := false, wantWrite := true }.IntentsMatch :=
        ⟨rfl, iff_of_true rfl hne⟩
      exact hset.handleWrite hout
    · next hnone =>
      cases hrun
      have hnil : conn'.outgoing = [] := by simpa using hnone
      refine ⟨?_, ?_⟩
      · rw [hread₁, hwrite₁, hwant, hwrite]
        rfl
      · rw [hwrite₁, hwrite]
        exact iff_of_false Bool.false_ne_true fun hne => hne hnil

/-- A fault in `handle_read` is one of a request; the assertion of `handle_write` does not fail there. -/
theorem handleRead_error {clock : Nat → UInt64} {rv : ReadResult} {write : Bytes → WriteResult}
    {e : Fault} (hrun : handleRead clock s conn rv write = .error e) :
    ∃ chunk, rv = .data chunk ∧
      handleRequests ((conn.incoming ++ chunk).length + 1) clock s
        { conn with incoming := conn.incoming ++ chunk } = .error e := by
  cases rv with
  | again | failed | eof => cases hrun
  | data chunk =>
    refine ⟨chunk, rfl, ?_⟩
    cases hreqs : handleRequests ((conn.incoming ++ chunk).length + 1) clock s
        { conn with incoming := conn.incoming ++ chunk } with
    | error e' =>
      simp only [handleRead, hreqs, error_bind] at hrun
      rw [Except.error.inj hrun]
    | ok r =>
      obtain ⟨s₁, conn₁⟩ := r
      simp only [handleRead, hreqs, ok_bind] at hrun
      split at hrun
      · next hsome =>
        have hne : conn₁.outgoing ≠ [] := by simpa using hsome
        obtain ⟨r, hout⟩ := handleWrite_total { conn₁ with wantRead := false, wantWrite := true }
          (write conn₁.outgoing) hne
        rw [hout] at hrun
        cases hrun
      · cases hrun

/-! ## The loop -/

/-- The calls for one descriptor that is ready. -/
theorem Connection.IntentsMatch.handleReadReady (h : conn.IntentsMatch) {e : Event}
    (hrun : handleReadReady e s conn = .ok (s', conn')) : conn'.IntentsMatch := by
  unfold MiniRedis.handleReadReady at hrun
  split at hrun
  · next hready =>
    obtain ⟨⟨s₁, conn₁, written⟩, hread, hret⟩ := bind_eq_ok.mp hrun
    cases hret
    exact h.handleRead hready.2 hread
  · cases hrun
    exact h

theorem Connection.IntentsMatch.handleWriteReady (h : conn.IntentsMatch) (e : Event) :
    ∃ conn', handleWriteReady e conn = .ok conn' ∧ conn'.IntentsMatch := by
  unfold MiniRedis.handleWriteReady
  split
  · next hready =>
    obtain ⟨⟨conn', written⟩, hwrite⟩ := handleWrite_total conn e.write (h.write.mp hready.2)
    exact ⟨conn', by rw [hwrite]; rfl, h.handleWrite hwrite⟩
  · exact ⟨conn, rfl, h⟩

end

namespace Server

/-- The flags of all connections match. -/
def IntentsMatch (s : Server) : Prop := ∀ p conn, s.conns p = some conn → conn.IntentsMatch

variable {s s' : Server}

theorem IntentsMatch.handleAccept {accepted : Option Nat} {now : UInt64} (h : s.IntentsMatch)
    (hrun : handleAccept accepted now s = .ok s') : s'.IntentsMatch := by
  cases accepted with
  | none =>
    cases hrun
    exact h
  | some fd =>
    obtain ⟨idle, -, hrun⟩ := bind_eq_ok.mp hrun
    obtain ⟨slot, -, hrun⟩ := bind_eq_ok.mp hrun
    obtain ⟨_, -, hrun⟩ := bind_eq_ok.mp hrun
    obtain ⟨fd2conn, -, hret⟩ := bind_eq_ok.mp hrun
    cases hret
    refine forall_update_some (fun q c _ => h q c) fun c hc => ?_
    cases hc
    exact ⟨rfl, iff_of_false Bool.false_ne_true fun hne => hne rfl⟩

theorem IntentsMatch.handleDestroy {p : CPtr} (h : s.IntentsMatch)
    (hrun : handleDestroy s p = .ok s') : s'.IntentsMatch := by
  obtain ⟨conn, -, hrun⟩ := bind_eq_ok.mp hrun
  obtain ⟨fd2conn, -, hrun⟩ := bind_eq_ok.mp hrun
  obtain ⟨idle, -, hret⟩ := bind_eq_ok.mp hrun
  cases hret
  exact forall_update_some (fun q c _ => h q c) fun c hc => nomatch hc

theorem IntentsMatch.handleEvent {e : Event} {fd : Nat} (h : s.IntentsMatch)
    (hrun : handleEvent e fd s = .ok s') : s'.IntentsMatch := by
  unfold MiniRedis.handleEvent at hrun
  split at hrun
  · cases hrun
    exact h
  obtain ⟨slot, -, hrun⟩ := bind_eq_ok.mp hrun
  obtain ⟨p, -, hrun⟩ := bind_eq_ok.mp hrun
  obtain ⟨client, hclient, hrun⟩ := bind_eq_ok.mp hrun
  obtain ⟨detached, -, hrun⟩ := bind_eq_ok.mp hrun
  obtain ⟨idle, -, hrun⟩ := bind_eq_ok.mp hrun
  obtain ⟨⟨data, conn₁⟩, hread, hrun⟩ := bind_eq_ok.mp hrun
  obtain ⟨conn₂, hwrite, hrun⟩ := bind_eq_ok.mp hrun
  have h₁ := (h p client (deref_eq_ok.mp hclient)).handleReadReady hread
  obtain ⟨conn₃, hwrite', h₂⟩ := h₁.handleWriteReady e
  obtain rfl : conn₃ = conn₂ := Except.ok.inj (hwrite'.symm.trans hwrite)
  have hserved : IntentsMatch { s with
      data, idle
      conns := Function.update s.conns p
        (some { client with toConnection := conn₃, lastActivityMs := e.now }) } :=
    forall_update_some (fun q c _ => h q c) fun c hc => by
      cases hc
      exact h₂
  simp only at hrun
  split at hrun
  · exact hserved.handleDestroy hrun
  · cases hrun
    exact hserved

theorem IntentsMatch.closeIdle {now : UInt64} {fuel : Nat} (h : s.IntentsMatch)
    (hrun : closeIdle now fuel s = .ok s') : s'.IntentsMatch := by
  induction fuel generalizing s with
  | zero => cases hrun
  | succ fuel ih =>
    unfold MiniRedis.closeIdle at hrun
    split at hrun
    · cases hrun
      exact h
    · split at hrun
      · obtain ⟨conn, -, hrun⟩ := bind_eq_ok.mp hrun
        simp only at hrun
        split at hrun
        · cases hrun
          exact h
        · obtain ⟨s₁, hdestroy, hrun⟩ := bind_eq_ok.mp hrun
          exact ih (h.handleDestroy hdestroy) hrun
      · cases hrun

theorem IntentsMatch.processTimers {now : UInt64} (h : s.IntentsMatch)
    (hrun : processTimers now s = .ok s') : s'.IntentsMatch := by
  obtain ⟨s₁, hclose, hrun⟩ := bind_eq_ok.mp hrun
  obtain ⟨data, -, hret⟩ := bind_eq_ok.mp hrun
  have h₁ := h.closeIdle hclose
  cases hret
  exact h₁

end Server

/-- One step of the loop. -/
theorem Loop.Step.intentsMatch {l l' : Loop} (hstep : l.Step l') (h : l.server.IntentsMatch) :
    l'.server.IntentsMatch := by
  cases hstep with
  | poll hrun => exact h
  | interrupted => exact h
  | noAccept => exact h
  | accept htime hfd hrun => exact h.handleAccept hrun
  | event htime hrun => exact h.handleEvent hrun
  | timers htime hrun => exact h.processTimers hrun

theorem Loop.intentsMatch_run {listenFd : Nat} {l : Loop}
    (hrun : Relation.ReflTransGen Loop.Step (Loop.init listenFd) l) : l.server.IntentsMatch := by
  induction hrun with
  | refl => exact fun p conn hconn => nomatch hconn
  | tail _ hstep ih => exact hstep.intentsMatch ih

/-- **Intents.** In every state that the loop reaches, and after each of the calls that it makes for a
descriptor that is ready, exactly one flag of a connection is set, and it wants to write exactly if it has
output. So a call of `handle_write` never fails, neither from the loop nor from `handle_read`, which fails
only in a request; and every connection waits for input or has output pending. -/
theorem intents_match {listenFd : Nat} {l : Loop}
    (hrun : Relation.ReflTransGen Loop.Step (Loop.init listenFd) l) {p : CPtr} {conn : ClientConn}
    (hconn : l.server.conns p = some conn) :
    conn.IntentsMatch ∧ (conn.wantRead = true ∨ conn.outgoing ≠ []) ∧
    ∀ e : Event,
      (∀ data conn₁, handleReadReady e l.server.data conn.toConnection = .ok (data, conn₁) →
        conn₁.IntentsMatch ∧ ∃ conn₂, handleWriteReady e conn₁ = .ok conn₂ ∧ conn₂.IntentsMatch) ∧
      ∀ fault, handleReadReady e l.server.data conn.toConnection = .error fault →
        ∃ chunk, e.read = .data chunk ∧
          handleRequests ((conn.incoming ++ chunk).length + 1) e.clock l.server.data
            { conn.toConnection with incoming := conn.incoming ++ chunk } = .error fault := by
  have h := Loop.intentsMatch_run hrun p conn hconn
  refine ⟨h, h.waits, fun e => ⟨fun data conn₁ hread => ?_, fun fault hread => ?_⟩⟩
  · have h₁ := h.handleReadReady hread
    exact ⟨h₁, h₁.handleWriteReady e⟩
  · unfold handleReadReady at hread
    split at hread
    · cases hcall : handleRead e.clock l.server.data conn.toConnection e.read e.writeAfterRead with
      | error e' =>
        rw [hcall, error_bind] at hread
        obtain rfl := Except.error.inj hread
        exact handleRead_error hcall
      | ok r =>
        rw [hcall] at hread
        cases hread
    · cases hread

/-- A request is read while nothing can be written, and then three bytes of the response are. -/
def slowWrite : Event where
  revents := pollIn ||| pollOut
  now := 6
  clock := fun _ => 6
  read := .data (frame pingRequest)
  writeAfterRead := fun _ => .again
  write := .accepted 3

/-- The calls for a connection that was just accepted. Ten bytes are left. -/
theorem intents_match_accept :
    ∃ s conn data conn₁ conn₂, handleAccept (some 4) 5 { openFds := [3] } = .ok s ∧
      s.conns 0 = some conn ∧ conn.IntentsMatch ∧ conn.wantRead = true ∧
      handleReadReady slowWrite s.data conn.toConnection = .ok (data, conn₁) ∧ conn₁.IntentsMatch ∧
      handleWriteReady slowWrite conn₁ = .ok conn₂ ∧ conn₂.IntentsMatch ∧ conn₂.wantWrite = true := by
  obtain ⟨s, hs⟩ : ∃ s, handleAccept (some 4) 5 { openFds := [3] } = .ok s := ⟨_, rfl⟩
  obtain ⟨conn, data, conn₁, hconn, hwants, hread, hleft⟩ : ∃ conn data conn₁, s.conns 0 = some conn ∧
      conn.wantRead = true ∧ handleReadReady slowWrite s.data conn.toConnection = .ok (data, conn₁) ∧
      (handleWriteReady slowWrite conn₁).toOption.map (fun conn => conn.outgoing.length) = some 10 := by
    cases hs
    exact ⟨_, _, _, rfl, rfl, rfl, rfl⟩
  obtain ⟨hmatch, -, hcalls⟩ := intents_match (reaches_accept hs) hconn
  obtain ⟨h₁, conn₂, hwrite, h₂⟩ := (hcalls slowWrite).1 data conn₁ hread
  have hne : conn₂.outgoing ≠ [] := by
    intro hnil
    have hten := eq_of_toOption_map (f := fun conn => conn.outgoing.length) hwrite hleft
    rw [hnil] at hten
    cases hten
  exact ⟨s, conn, data, conn₁, conn₂, hs, hconn, hmatch, hwants, hread, h₁, hwrite, h₂, h₂.write.mpr hne⟩

end MiniRedis
