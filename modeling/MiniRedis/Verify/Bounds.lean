import MiniRedis.Verify.Intents
import MiniRedis.Verify.NextTimer

/-! # What one connection can take

A connection is not read from while it has output, and it is closed when a header announces too much. So
its buffers do not grow beyond a bound, whatever its client sends and however slowly it reads, and a call
for one connection executes a bounded number of requests before the others have their turn. -/

namespace MiniRedis

/-- The number of requests that one `read()` can complete: one that had begun before, and those whose headers
fit into the rest of its buffer. -/
def maxRequests : Nat := 64 * 1024 / 4

/-- What holds of a connection before and after each call for it. -/
structure Connection.Bounded (conn : Connection) : Prop where
  intents : conn.IntentsMatch
  done : nextFrame? kMaxMsg conn.incoming = none
  incoming : conn.wantClose = false → conn.incoming.length < 4 + kMaxMsg
  outgoing : conn.outgoing.length ≤ maxRequests * (4 + kMaxMsg)

section
variable {now : UInt64} {clock : Nat → UInt64} {e : Event} {s s' : ServerData} {conn conn' : Connection}
  {written : Bytes}

/-! ## The requests -/

theorem handleOneRequest_of_overlong (h4 : 4 ≤ conn.incoming.length) (hover : kMaxMsg < frameLength conn.incoming)
    (now : UInt64) (s : ServerData) :
    handleOneRequest now s conn = .ok (false, s, { conn with wantClose := true }) := by
  simp only [handleOneRequest, toNat_frameLen, Nat.not_lt.mpr h4, if_false, GT.gt, hover, if_true]
  rfl

/-- The requests stop at a short rest, or at a header that closes the connection. -/
theorem handleRequests_short {fuel : Nat} (hrun : handleRequests fuel clock s conn = .ok (s', conn'))
    (hopen : conn'.wantClose = false) : conn'.incoming.length < 4 + kMaxMsg := by
  induction fuel generalizing clock s conn with
  | zero => cases hrun
  | succ fuel ih =>
    obtain ⟨⟨more, s₁, conn₁⟩, hone, hrun⟩ := bind_eq_ok.mp hrun
    cases hnext : nextFrame? kMaxMsg conn.incoming with
    | none =>
      obtain ⟨wantClose, hnone⟩ := handleOneRequest_of_none hnext (clock 0) s
      cases hnone.symm.trans hone
      cases hrun
      have hshort : conn.incoming.length < 4 + kMaxMsg := length_lt_of_none hnext fun h4 => by
        by_contra hover
        have hclose := handleOneRequest_of_overlong h4 (Nat.lt_of_not_le hover) (clock 0) s'
        cases hclose.symm.trans hnone
        cases hopen
      exact hshort
    | some r =>
      rw [handleOneRequest_of_frame hnext] at hone
      cases hrespond : respond (clock 0) s r.1 with
      | error fault =>
        rw [hrespond] at hone
        cases hone
      | ok r' =>
        rw [hrespond] at hone
        cases hone
        exact ih hrun

/-! ## The calls -/

/-- A write does not take the decision to close back. -/
theorem handleWrite_kept {rv : WriteResult} (hrun : handleWrite conn rv = .ok (conn', written))
    (hopen : conn'.wantClose = false) : conn.wantClose = false := by
  obtain ⟨_, -, hrun⟩ := bind_eq_ok.mp hrun
  cases rv with
  | again =>
    cases hrun
    exact hopen
  | failed =>
    cases hrun
    cases hopen
  | accepted n =>
    simp only at hrun
    split at hrun
    · cases hrun
      exact hopen
    · cases hrun
      exact hopen

namespace Connection.Bounded

theorem handleWrite {rv : WriteResult} (h : conn.Bounded)
    (hrun : MiniRedis.handleWrite conn rv = .ok (conn', written)) : conn'.Bounded := by
  obtain ⟨hincoming, hout, -⟩ := handleWrite_ok hrun
  refine ⟨h.intents.handleWrite hrun, ?_, fun hopen => ?_, ?_⟩
  · rw [hincoming]
    exact h.done
  · rw [hincoming]
    exact h.incoming (handleWrite_kept hrun hopen)
  · have hle := h.outgoing
    rw [← hout, List.length_append] at hle
    omega

/-- The requests that one `read()` completes: their responses fit into the bound, since there was no output
before. -/
theorem handleRead {rv : ReadResult} {write : Bytes → WriteResult} (h : conn.Bounded)
    (hwant : conn.wantRead = true) (hvalid : rv.Valid)
    (hrun : MiniRedis.handleRead clock s conn rv write = .ok (s', conn', written)) :
    conn'.Bounded ∧ ∃ xs, Serves clock s xs s' ∧
      xs.map Prod.fst = (splitFrames kMaxMsg (conn.incoming ++ rv.bytes)).1 ∧ xs.length ≤ maxRequests := by
  obtain ⟨xs, hserves, hsplit, hout, hlen, -⟩ := handleRead_ok h.done h.intents.write.mp hrun
  have hsilent : conn.outgoing = [] := by
    by_contra hne
    have hwrite := h.intents.write.mpr hne
    rw [h.intents.one, hwrite] at hwant
    cases hwant
  have hbytes : rv.bytes.length ≤ 64 * 1024 := by
    cases rv with
    | data chunk => exact hvalid.2
    | again | failed | eof => exact Nat.zero_le _
  have hcount : xs.length ≤ maxRequests := by
    have hle := length_splitFrames_append_le h.done rv.bytes
    rw [hsplit, List.length_map] at hle
    simp only [maxRequests] at *
    omega
  have hresponses : ∀ r ∈ xs.map Prod.snd, r.length ≤ kMaxMsg := by
    intro r hr
    obtain ⟨x, hx, rfl⟩ := List.mem_map.mp hr
    exact hlen x hx
  refine ⟨⟨h.intents.handleRead hwant hrun, ?_, ?_, ?_⟩, xs, hserves, by rw [hsplit], hcount⟩
  · have hrest := nextFrame?_splitFrames kMaxMsg (conn.incoming ++ rv.bytes)
    rwa [hsplit] at hrest
  · intro hopen
    cases rv with
    | again =>
      cases hrun
      exact h.incoming hopen
    | failed | eof =>
      cases hrun
      cases hopen
    | data chunk =>
      obtain ⟨⟨s₁, conn₁⟩, hreqs, hrun⟩ := bind_eq_ok.mp hrun
      simp only at hrun
      split at hrun
      · obtain ⟨r, hwrite, hret⟩ := bind_eq_ok.mp hrun
        cases hret
        have hkept := handleWrite_kept hwrite hopen
        have hshort := handleRequests_short hreqs (show conn₁.wantClose = false from hkept)
        rw [(handleWrite_ok hwrite).1]
        exact hshort
      · cases hrun
        exact handleRequests_short hreqs hopen
  · calc conn'.outgoing.length
      _ ≤ (written ++ conn'.outgoing).length := by
        rw [List.length_append]
        exact Nat.le_add_left ..
      _ = ((xs.map Prod.snd).map frame).flatten.length := by rw [hout, hsilent, List.nil_append]
      _ ≤ (xs.map Prod.snd).length * (4 + kMaxMsg) := length_frames_le hresponses
      _ ≤ maxRequests * (4 + kMaxMsg) := by
        rw [List.length_map]
        exact Nat.mul_le_mul_right _ hcount

theorem handleReadReady (h : conn.Bounded) (hvalid : e.read.Valid)
    (hrun : MiniRedis.handleReadReady e s conn = .ok (s', conn')) :
    conn'.Bounded ∧ if e.revents &&& pollIn ≠ 0 ∧ conn.wantRead then
        ∃ xs, Serves e.clock s xs s' ∧
          xs.map Prod.fst = (splitFrames kMaxMsg (conn.incoming ++ e.read.bytes)).1 ∧ xs.length ≤ maxRequests
      else s' = s ∧ conn' = conn := by
  unfold MiniRedis.handleReadReady at hrun
  split at hrun
  · next hready =>
    obtain ⟨⟨s₁, conn₁, written⟩, hread, hret⟩ := bind_eq_ok.mp hrun
    cases hret
    obtain ⟨h₁, hserved⟩ := h.handleRead hready.2 hvalid hread
    refine ⟨h₁, ?_⟩
    rw [if_pos hready]
    exact hserved
  · next hready =>
    cases hrun
    refine ⟨h, ?_⟩
    rw [if_neg hready]
    exact ⟨rfl, rfl⟩

theorem handleWriteReady (h : conn.Bounded) (hrun : MiniRedis.handleWriteReady e conn = .ok conn') :
    conn'.Bounded := by
  unfold MiniRedis.handleWriteReady at hrun
  split at hrun
  · obtain ⟨⟨conn₁, written⟩, hwrite, hret⟩ := bind_eq_ok.mp hrun
    cases hret
    exact h.handleWrite hwrite
  · cases hrun
    exact h

end Connection.Bounded

end

/-! ## The loop -/

namespace Server

/-- What holds of all connections between two events. -/
def Bounded (s : Server) : Prop :=
  ∀ p conn, s.conns p = some conn → conn.Bounded ∧ conn.wantClose = false

variable {s s' : Server}

namespace Bounded

theorem handleAccept {accepted : Option Nat} {now : UInt64} (h : s.Bounded)
    (hrun : MiniRedis.handleAccept accepted now s = .ok s') : s'.Bounded := by
  cases accepted with
  | none =>
    cases hrun
    exact h
  | some fd =>
    obtain ⟨idle, -, hrun⟩ := bind_eq_ok.mp hrun
    obtain ⟨slot, -, hrun⟩ := bind_eq_ok.mp hrun
    obtain ⟨_, -, hrun⟩ := bind_eq_ok.mp hrun
    obtain ⟨fd2conn, -, hret⟩ := bind_eq_ok.mp hrun
    cases hret
    refine forall_update_some (fun q c _ => h q c) fun c hc => ?_
    cases hc
    refine ⟨⟨⟨rfl, ?_⟩, ?_, fun _ => Nat.succ_pos _, Nat.zero_le _⟩, rfl⟩
    · exact iff_of_false Bool.false_ne_true fun hne => hne rfl
    · exact nextFrame?_splitFrames kMaxMsg [] ▸ congrArg _ (congrArg Prod.snd (splitFrames_nil kMaxMsg)).symm

theorem handleDestroy {p : CPtr} (h : s.Bounded) (hrun : MiniRedis.handleDestroy s p = .ok s') :
    s'.Bounded := by
  obtain ⟨conn, -, hrun⟩ := bind_eq_ok.mp hrun
  obtain ⟨fd2conn, -, hrun⟩ := bind_eq_ok.mp hrun
  obtain ⟨idle, -, hret⟩ := bind_eq_ok.mp hrun
  cases hret
  exact forall_update_some (fun q c _ => h q c) fun c hc => nomatch hc

theorem handleEvent {e : Event} {fd : Nat} (h : s.Bounded) (hvalid : e.read.Valid)
    (hrun : MiniRedis.handleEvent e fd s = .ok s') : s'.Bounded := by
  unfold MiniRedis.handleEvent at hrun
  split at hrun
  · cases hrun
    exact h
  obtain ⟨slot, -, hrun⟩ := bind_eq_ok.mp hrun
  obtain ⟨p, -, hrun⟩ := bind_eq_ok.mp hrun
  obtain ⟨client, hclient, hrun⟩ := bind_eq_ok.mp hrun
  obtain ⟨detached, -, hrun⟩ := bind_eq_ok.mp hrun
  obtain ⟨idle, -, hrun⟩ := bind_eq_ok.mp hrun
  obtain ⟨⟨data, conn₁⟩, hread, hrun⟩ := bind_eq_ok.mp hrun
  obtain ⟨conn₂, hwrite, hrun⟩ := bind_eq_ok.mp hrun
  obtain ⟨h₁, -⟩ := (h p client (deref_eq_ok.mp hclient)).1.handleReadReady hvalid hread
  have h₂ := h₁.handleWriteReady hwrite
  simp only at hrun
  split at hrun
  · obtain ⟨conn, -, hrun⟩ := bind_eq_ok.mp hrun
    obtain ⟨fd2conn, -, hrun⟩ := bind_eq_ok.mp hrun
    obtain ⟨idle', -, hret⟩ := bind_eq_ok.mp hrun
    cases hret
    refine forall_update_some (fun q c hne hc => ?_) fun c hc => nomatch hc
    exact h q c ((Function.update_of_ne hne ..).symm.trans hc)
  · next hkeep =>
    cases hrun
    refine forall_update_some (fun q c _ => h q c) fun c hc => ?_
    cases hc
    exact ⟨h₂, Bool.eq_false_iff.mpr fun hclose => hkeep (.inr hclose)⟩

theorem closeIdle {now : UInt64} {fuel : Nat} (h : s.Bounded)
    (hrun : MiniRedis.closeIdle now fuel s = .ok s') : s'.Bounded := by
  induction fuel generalizing s with
  | zero => cases hrun
  | succ fuel ih =>
    unfold MiniRedis.closeIdle at hrun
    split at hrun
    · cases hrun
      exact h
    · split at hrun
      · obtain ⟨conn, -, hrun⟩ := bind_eq_ok.mp hrun
        simp only at hrun
        split at hrun
        · cases hrun
          exact h
        · obtain ⟨s₁, hdestroy, hrun⟩ := bind_eq_ok.mp hrun
          exact ih (h.handleDestroy hdestroy) hrun
      · cases hrun

theorem processTimers {now : UInt64} (h : s.Bounded) (hrun : MiniRedis.processTimers now s = .ok s') :
    s'.Bounded := by
  obtain ⟨s₁, hclose, hrun⟩ := bind_eq_ok.mp hrun
  obtain ⟨data, -, hret⟩ := bind_eq_ok.mp hrun
  have h₁ := h.closeIdle hclose
  cases hret
  exact h₁

end Bounded

end Server

end MiniRedis
