import Mathlib.Data.List.Perm.Subperm
import Mathlib.Logic.Relation
import MiniRedis.Model.EventLoop
import MiniRedis.Verify.Commands
import MiniRedis.Verify.Expiry
import MiniRedis.Verify.List
import MiniRedis.Verify.Netio

/-! # The registry of connections

The map from descriptors to connections and the list of idle connections hold the same connections in
every state of the event loop, and the list is sorted by the time of the last activity. -/

namespace MiniRedis

/-- The connections `ps` are those in the list, from head to tail, and those in the map. -/
structure Server.Registered (s : Server) (ps : List CPtr) : Prop where
  idle : s.idle.Holds .idleConnList (ps.map .idleNode)
  live : ∀ p, p ∈ ps ↔ ∃ conn, s.conns p = some conn
  slots : ∀ fd p, s.fd2conn[fd]? = some (some p) ↔ ∃ conn, s.conns p = some conn ∧ conn.socketFd = fd
  sorted : ps.Pairwise fun p q => ∀ a b, s.conns p = some a → s.conns q = some b →
    a.lastActivityMs ≤ b.lastActivityMs
  isOpen : ∀ p conn, s.conns p = some conn → conn.socketFd ∈ s.openFds
  fresh : ∀ p ∈ ps, p < s.nextConn

/-- No connection was active after the given time. -/
def Server.Recent (s : Server) (t : UInt64) : Prop :=
  ∀ p conn, s.conns p = some conn → conn.lastActivityMs ≤ t

/-- There is a connection for the descriptor. -/
def Server.Serves (s : Server) (fd : Nat) : Prop :=
  ∃ p conn, s.conns p = some conn ∧ conn.socketFd = fd

namespace Server

variable {s s' : Server} {ps as bs : List CPtr} {p : CPtr} {fd : Nat} {now t : UInt64}

theorem Recent.mono {t' : UInt64} (h : s.Recent t) (ht : t ≤ t') : s.Recent t' :=
  fun p conn hconn => UInt64.le_trans (h p conn hconn) ht

theorem toNat_kIdleTimeoutMs : (UInt64.ofNat kIdleTimeoutMs).toNat = kIdleTimeoutMs := by decide

theorem registered_init (listenFd : Nat) : ({ openFds := [listenFd] } : Server).Registered [] where
  idle := DListMem.holds_dlistInit _ _
  live p := by simp
  slots fd p := by simp
  sorted := .nil
  isOpen p conn hconn := by simp at hconn
  fresh p hp := by simp at hp

namespace Registered

theorem nodup (h : s.Registered ps) : ps.Nodup :=
  (List.nodup_cons.mp h.idle.nodup).2.of_map _

theorem notMem_map_idleNode (hp : p ∉ ps) :
    IdleNode.idleNode p ∉ IdleNode.idleConnList :: ps.map .idleNode := by
  simp [hp]

/-- Two connections do not share a descriptor. -/
theorem eq_of_socketFd {q : CPtr} {a b : ClientConn} (h : s.Registered ps) (ha : s.conns p = some a)
    (hb : s.conns q = some b) (hfd : a.socketFd = b.socketFd) : p = q := by
  have hp := (h.slots a.socketFd p).mpr ⟨a, ha, rfl⟩
  have hq := (h.slots a.socketFd q).mpr ⟨b, hb, hfd.symm⟩
  exact Option.some.inj (Option.some.inj (hp.symm.trans hq))

/-- Storing a connection, or none, in a slot that exists. -/
theorem storeConn_eq {fd2conn : List (Option CPtr)} (h : fd < fd2conn.length) (conn : Option CPtr) :
    storeConn fd2conn fd conn = .ok (fd2conn.set fd conn) :=
  if_pos h

/-! ## Closing a connection -/

theorem handleDestroy (h : s.Registered (as ++ p :: bs)) :
    ∃ s', handleDestroy s p = .ok s' ∧ s'.Registered (as ++ bs) ∧
      s'.conns = Function.update s.conns p none ∧ s'.data = s.data ∧ s'.nextConn = s.nextConn := by
  obtain ⟨conn, hconn⟩ := (h.live p).mp (by simp)
  have hslot := (h.slots conn.socketFd p).mpr ⟨conn, hconn, rfl⟩
  have hlt := (List.getElem?_eq_some_iff.mp hslot).1
  have hidle := h.idle
  rw [List.map_append, List.map_cons] at hidle
  obtain ⟨idle, hdetach, hidle⟩ := hidle.detach
  rw [← List.map_append] at hidle
  have hnd := h.nodup
  have hp : p ∉ as ++ bs := (List.nodup_middle.mp hnd |> List.nodup_cons.mp).1
  have hold : ∀ q, q ≠ p → Function.update s.conns p none q = s.conns q := fun q hq =>
    Function.update_of_ne hq ..
  have hsome : ∀ q conn', Function.update s.conns p none q = some conn' →
      q ≠ p ∧ s.conns q = some conn' := fun q conn' hq => by
    have hne : q ≠ p := fun he => by simp [he] at hq
    exact ⟨hne, hold q hne ▸ hq⟩
  refine ⟨{ s with
    fd2conn := s.fd2conn.set conn.socketFd none, idle
    conns := Function.update s.conns p none
    openFds := s.openFds.filter (· ≠ conn.socketFd) }, ?_,
    ⟨hidle, fun q => ?_, fun fd q => ?_, ?_, fun q conn' hq => ?_,
    fun q hq => h.fresh q ?_⟩, rfl, rfl, rfl⟩
  · simp only [MiniRedis.handleDestroy, hconn, deref_some, ok_bind, storeConn_eq hlt, hdetach,
      pure_eq_ok]
  · by_cases hq : q = p
    · subst hq
      simp [hp]
    · change q ∈ as ++ bs ↔ ∃ conn, Function.update s.conns p none q = some conn
      rw [hold q hq, ← h.live q]
      simp [hq]
  · simp only
    rw [List.getElem?_set]
    by_cases hfd : conn.socketFd = fd
    · subst hfd
      simp only [if_true, hlt]
      refine ⟨fun he => by simp at he, ?_⟩
      rintro ⟨conn', hq, hfd⟩
      obtain ⟨hne, hq⟩ := hsome q conn' hq
      exact absurd (h.eq_of_socketFd hq hconn hfd) hne
    · rw [if_neg hfd, h.slots]
      refine exists_congr fun conn' => and_congr_left fun hfd' => ?_
      by_cases hq : q = p
      · subst hq
        simp only [Function.update_self, hconn, Option.some.injEq, reduceCtorEq, iff_false]
        rintro rfl
        exact hfd hfd'
      · rw [hold q hq]
  · have hsub : (as ++ bs).Sublist (as ++ p :: bs) := by simp
    refine (h.sorted.sublist hsub).imp fun hle a b ha hb => ?_
    exact hle a b (hsome _ _ ha).2 (hsome _ _ hb).2
  · obtain ⟨hne, hq⟩ := hsome q conn' hq
    have hfd : conn'.socketFd ≠ conn.socketFd := fun hfd => hne (h.eq_of_socketFd hq hconn hfd)
    simp [h.isOpen q conn' hq, hfd]
  · simp only [List.mem_append, List.mem_cons] at hq ⊢
    tauto

/-! ## Activity of a connection -/

/-- A connection that was active moves to the end of the list. -/
theorem refresh (h : s.Registered (as ++ p :: bs)) (hrecent : s.Recent now) :
    ∃ detached idle, dlistDetach s.idle (.idleNode p) = .ok detached ∧
      dlistInsertBefore detached .idleConnList (.idleNode p) = .ok idle ∧
      ∀ (conn conn' : ClientConn) (data : ServerData), s.conns p = some conn →
        conn'.socketFd = conn.socketFd → conn'.lastActivityMs = now →
        Registered { s with data, idle, conns := Function.update s.conns p (some conn') }
          (as ++ bs ++ [p]) := by
  have hidle := h.idle
  rw [List.map_append, List.map_cons] at hidle
  obtain ⟨detached, hdetach, hidle⟩ := hidle.detach
  rw [← List.map_append] at hidle
  have hp : p ∉ as ++ bs := (List.nodup_middle.mp h.nodup |> List.nodup_cons.mp).1
  obtain ⟨idle, hinsert, hidle⟩ := hidle.insertBefore (notMem_map_idleNode hp)
  refine ⟨detached, idle, hdetach, hinsert, fun conn conn' data hconn hfd hnow => ?_⟩
  have hmem : ∀ q, q ∈ as ++ bs ++ [p] ↔ q ∈ as ++ p :: bs := fun q => by
    simp only [List.mem_append, List.mem_cons, List.not_mem_nil, or_false]
    tauto
  have hold : ∀ q ∈ as ++ bs, Function.update s.conns p (some conn') q = s.conns q :=
    fun q hq => Function.update_of_ne (fun he : q = p => hp (he ▸ hq)) ..
  -- An update that keeps the descriptor keeps what a slot must hold.
  have hserves : ∀ q fd, (∃ c, Function.update s.conns p (some conn') q = some c ∧ c.socketFd = fd) ↔
      ∃ c, s.conns q = some c ∧ c.socketFd = fd := fun q fd => by
    by_cases hq : q = p
    · subst hq
      simp [hconn, hfd]
    · rw [Function.update_of_ne hq]
  refine ⟨?_, fun q => ?_, fun fd q => (h.slots fd q).trans (hserves q fd).symm, ?_,
    fun q c hq => ?_, fun q hq => h.fresh q ((hmem q).mp hq)⟩
  · simpa using hidle
  · rw [hmem, h.live]
    by_cases hq : q = p
    · subst hq
      simp [hconn]
    · simp [Function.update_of_ne hq]
  · refine List.pairwise_append.mpr ⟨?_, .cons (by simp) .nil, fun q hq r hr a b ha hb => ?_⟩
    · have hsub : (as ++ bs).Sublist (as ++ p :: bs) := by simp
      refine (h.sorted.sublist hsub).imp_of_mem fun hq hr hle a b ha hb => ?_
      exact hle a b (hold _ hq ▸ ha) (hold _ hr ▸ hb)
    · obtain rfl := List.mem_singleton.mp hr
      obtain rfl : conn' = b := by simpa using hb
      rw [hnow]
      exact hrecent q a (hold q hq ▸ ha)
  · obtain ⟨c', hc', hsame⟩ := (hserves q c.socketFd).mp ⟨c, hq, rfl⟩
    exact hsame ▸ h.isOpen q c' hc'

/-! ## A new connection -/

/-- The slot of a descriptor that is not open is empty. -/
theorem slot_eq_none (h : s.Registered ps) (hfd : fd ∉ s.openFds) (q : CPtr) :
    s.fd2conn[fd]? ≠ some (some q) := fun hslot => by
  obtain ⟨conn, hconn, rfl⟩ := (h.slots fd q).mp hslot
  exact hfd (h.isOpen q conn hconn)

/-- The map of `handle_accept`, long enough for the descriptor. -/
theorem getElem?_resize (fd2conn : List (Option CPtr)) (fd : Nat) :
    ∃ n, (if fd2conn.length ≤ fd then
        fd2conn ++ List.replicate (fd + 1 - fd2conn.length) none
      else fd2conn) = fd2conn ++ List.replicate n none ∧ fd < fd2conn.length + n := by
  split
  · exact ⟨_, rfl, by omega⟩
  · exact ⟨0, by simp, by omega⟩

theorem getElem?_set_resize {fd2conn : List (Option CPtr)} {n fd' : Nat} {q : CPtr}
    (hlt : fd < fd2conn.length + n) :
    ((fd2conn ++ List.replicate n none).set fd (some p))[fd']? = some (some q) ↔
      fd' = fd ∧ q = p ∨ fd' ≠ fd ∧ fd2conn[fd']? = some (some q) := by
  rw [List.getElem?_set]
  by_cases hfd : fd = fd'
  · subst hfd
    simp [hlt, eq_comm]
  · rw [if_neg hfd, List.getElem?_append]
    split
    · simp [Ne.symm hfd]
    · next hout =>
      rw [List.getElem?_eq_none (Nat.le_of_not_lt hout), List.getElem?_replicate]
      split <;> simp [Ne.symm hfd]

/-- `handle_accept` returns: its assertion holds for a descriptor that is not open. -/
theorem handleAccept (h : s.Registered ps) (hrecent : s.Recent now) (hfd : fd ∉ s.openFds) :
    ∃ s' conn, handleAccept (some fd) now s = .ok s' ∧ s'.Registered (ps ++ [s.nextConn]) ∧
      s'.conns = Function.update s.conns s.nextConn (some conn) ∧ conn.lastActivityMs = now ∧
      conn.socketFd = fd ∧ s'.data = s.data := by
  have hp : s.nextConn ∉ ps := fun hp => Nat.lt_irrefl _ (h.fresh _ hp)
  have hnone : s.conns s.nextConn = none :=
    Option.eq_none_iff_forall_ne_some.mpr fun c hc => hp ((h.live _).mpr ⟨c, hc⟩)
  have hnode := notMem_map_idleNode hp
  obtain ⟨idle, hinsert, hidle⟩ := (h.idle.update hnode {}).insertBefore hnode
  obtain ⟨n, hresize, hlt⟩ := getElem?_resize s.fd2conn fd
  have hslot : (s.fd2conn ++ List.replicate n none)[fd]? = some none := by
    rw [List.getElem?_append]
    split
    · next hin =>
      rw [List.getElem?_eq_getElem hin]
      refine congrArg some (Option.eq_none_iff_forall_ne_some.mpr fun q hq => ?_)
      exact h.slot_eq_none hfd q (List.getElem?_eq_some_iff.mpr ⟨hin, hq⟩)
    · rw [List.getElem?_replicate, if_pos (by omega)]
  let conn : ClientConn := { socketFd := fd, wantRead := true, lastActivityMs := now }
  have hold : ∀ q ∈ ps, Function.update s.conns s.nextConn (some conn) q = s.conns q :=
    fun q hq => Function.update_of_ne (fun he : q = s.nextConn => hp (he ▸ hq)) ..
  refine ⟨{ s with
    fd2conn := (s.fd2conn ++ List.replicate n none).set fd (some s.nextConn), idle
    conns := Function.update s.conns s.nextConn (some conn)
    nextConn := s.nextConn + 1
    openFds := fd :: s.openFds }, conn, ?_, ⟨?_, fun q => ?_, fun fd' q => ?_, ?_, fun q c hq => ?_,
    fun q hq => ?_⟩, rfl, rfl, rfl, rfl⟩
  · simp only [MiniRedis.handleAccept, hinsert, hresize, ok_bind, index_eq_ok.mpr hslot,
      storeConn_eq (show fd < (s.fd2conn ++ List.replicate n none).length by simpa using hlt)]
    rfl
  · simpa using hidle
  · by_cases hq : q = s.nextConn
    · subst hq
      simp
    · simp [h.live, hq]
  · change _ ↔ ∃ c, Function.update s.conns s.nextConn (some conn) q = some c ∧ c.socketFd = fd'
    rw [getElem?_set_resize hlt]
    by_cases hq : q = s.nextConn
    · subst hq
      simp [conn, h.slots, hnone, eq_comm]
    · rw [Function.update_of_ne hq, ← h.slots]
      have hne : s.fd2conn[fd']? = some (some q) → fd' ≠ fd := fun hget he =>
        h.slot_eq_none hfd q (he ▸ hget)
      tauto
  · refine List.pairwise_append.mpr ⟨?_, .cons (by simp) .nil, fun q hq r hr a b ha hb => ?_⟩
    · refine h.sorted.imp_of_mem fun hq hr hle a b ha hb => ?_
      exact hle a b (hold _ hq ▸ ha) (hold _ hr ▸ hb)
    · obtain rfl := List.mem_singleton.mp hr
      obtain rfl : conn = b := by simpa using hb
      exact hrecent q a (hold q hq ▸ ha)
  · by_cases he : q = s.nextConn
    · subst he
      obtain rfl : conn = c := by simpa using hq
      exact List.mem_cons_self
    · refine List.mem_cons_of_mem _ (h.isOpen q c ?_)
      simpa only [Function.update_of_ne he] using hq
  · rcases List.mem_append.mp hq with hq | hq
    · exact Nat.lt_succ_of_lt (h.fresh q hq)
    · obtain rfl := List.mem_singleton.mp hq
      exact Nat.lt_succ_self _

/-! ## The polled descriptors -/

/-- The slots from some position on: the descriptors are those positions, so they are increasing. -/
theorem pollArgs_suffix (h : s.Registered ps) {rest : List (Option CPtr)}
    (pre : List (Option CPtr)) (hmap : s.fd2conn = pre ++ rest) :
    ∃ polled, MiniRedis.pollArgs s rest = .ok polled ∧ polled.Pairwise (· < ·) ∧
      ∀ fd ∈ polled, pre.length ≤ fd ∧ s.Serves fd := by
  induction rest generalizing pre with
  | nil => exact ⟨[], rfl, .nil, by simp⟩
  | cons slot rest ih =>
    obtain ⟨polled, hrun, hsorted, hserves⟩ := ih (pre ++ [slot]) (by simp [hmap])
    simp only [List.length_append, List.length_singleton] at hserves
    cases slot with
    | none =>
      refine ⟨polled, hrun, hsorted, fun fd hfd => ?_⟩
      exact ⟨Nat.le_of_succ_le (hserves fd hfd).1, (hserves fd hfd).2⟩
    | some p =>
      obtain ⟨conn, hconn, hfd⟩ := (h.slots pre.length p).mp (by simp [hmap])
      refine ⟨pre.length :: polled, ?_, .cons (fun fd hmem => (hserves fd hmem).1) hsorted, ?_⟩
      · simp only [MiniRedis.pollArgs, hconn, deref_some, ok_bind, hrun, pure_eq_ok, hfd]
      · intro fd hmem
        rcases List.mem_cons.mp hmem with rfl | hmem
        · exact ⟨Nat.le_refl _, p, conn, hconn, hfd⟩
        · exact ⟨Nat.le_of_succ_le (hserves fd hmem).1, (hserves fd hmem).2⟩

theorem pollArgs (h : s.Registered ps) :
    ∃ polled, pollArgs s s.fd2conn = .ok polled ∧ polled.Nodup ∧ ∀ fd ∈ polled, s.Serves fd := by
  obtain ⟨polled, hrun, hsorted, hserves⟩ := h.pollArgs_suffix [] rfl
  exact ⟨polled, hrun, hsorted.imp Nat.ne_of_lt, fun fd hfd => (hserves fd hfd).2⟩

/-! ## An event -/

theorem handleReadReady_data {e : Event} {data data' : ServerData} {conn conn' : Connection}
    (hrun : handleReadReady e data conn = .ok (data', conn')) :
    data' = data ∨
      ∃ conn r, handleRead e.clock data conn e.read e.writeAfterRead = .ok (data', r) := by
  unfold handleReadReady at hrun
  split at hrun
  · obtain ⟨⟨data₁, conn₁, written⟩, hread, hret⟩ := bind_eq_ok.mp hrun
    cases hret
    exact .inr ⟨_, _, hread⟩
  · cases hrun
    exact .inl rfl

/-- The connection of the descriptor becomes the last one of the list or is closed. The others stay,
and the server data changes only by what is read from the socket. -/
theorem handleEvent {e : Event} (h : s.Registered ps) (hrecent : s.Recent e.now)
    (hserves : s.Serves fd) (hrun : handleEvent e fd s = .ok s') :
    ∃ ps', s'.Registered ps' ∧ s'.Recent e.now ∧ (∀ fd', fd' ≠ fd → s.Serves fd' → s'.Serves fd') ∧
      (s'.data = s.data ∨
        ∃ conn r, handleRead e.clock s.data conn e.read e.writeAfterRead = .ok (s'.data, r)) := by
  unfold MiniRedis.handleEvent at hrun
  split at hrun
  · cases hrun
    exact ⟨ps, h, hrecent, fun _ _ hserves => hserves, .inl rfl⟩
  obtain ⟨p, conn, hconn, rfl⟩ := hserves
  obtain ⟨as, bs, rfl⟩ := List.append_of_mem ((h.live p).mpr ⟨conn, hconn⟩)
  obtain ⟨detached, idle, hdetach, hinsert, hmoved⟩ := h.refresh (p := p) hrecent
  have hslot := (h.slots conn.socketFd p).mpr ⟨conn, hconn, rfl⟩
  simp only [index_eq_ok.mpr hslot, ok_bind, deref_some, hconn, hdetach, hinsert] at hrun
  obtain ⟨⟨data, conn₁⟩, hread, hrun⟩ := bind_eq_ok.mp hrun
  obtain ⟨conn₂, -, hrun⟩ := bind_eq_ok.mp hrun
  have hdata := handleReadReady_data hread
  let conn' : ClientConn := { conn with toConnection := conn₂, lastActivityMs := e.now }
  have h' := hmoved conn conn' data hconn rfl rfl
  have hsome : ∀ q c, Function.update s.conns p (some conn') q = some c →
      c.lastActivityMs ≤ e.now := fun q c hq => by
    by_cases he : q = p
    · subst he
      obtain rfl : conn' = c := by simpa using hq
      exact UInt64.le_refl _
    · exact hrecent q c (by simpa only [Function.update_of_ne he] using hq)
  -- A connection with another descriptor is another connection.
  have hothers : ∀ fd' ≠ conn.socketFd, s.Serves fd' →
      ∃ q c, q ≠ p ∧ s.conns q = some c ∧ c.socketFd = fd' := by
    rintro fd' hne ⟨q, c, hc, rfl⟩
    refine ⟨q, c, ?_, hc, rfl⟩
    rintro rfl
    exact hne (congrArg ClientConn.socketFd (Option.some.inj (hc.symm.trans hconn)))
  split at hrun
  · obtain ⟨s₁, hdestroy, hs₁, hconns, hdata₁, -⟩ := h'.handleDestroy
    cases hdestroy.symm.trans hrun
    rw [hdata₁]
    have hkept : ∀ q ≠ p, s'.conns q = s.conns q := fun q hq => by
      rw [hconns, Function.update_of_ne hq]
      exact Function.update_of_ne hq ..
    refine ⟨_, hs₁, fun q c hq => hsome q c ?_, fun fd' hne hserves => ?_, hdata⟩
    · by_cases he : q = p
      · simp [hconns, he] at hq
      · rw [Function.update_of_ne he, ← hkept q he, hq]
    · obtain ⟨q, c, hq, hc, hfd⟩ := hothers fd' hne hserves
      exact ⟨q, c, (hkept q hq).trans hc, hfd⟩
  · cases hrun
    refine ⟨_, h', hsome, fun fd' hne hserves => ?_, hdata⟩
    obtain ⟨q, c, hq, hc, hfd⟩ := hothers fd' hne hserves
    exact ⟨q, c, (Function.update_of_ne hq ..).trans hc, hfd⟩

/-! ## The idle connections -/

theorem length_le (h : s.Registered ps) : ps.length ≤ s.nextConn := by
  have hsub : ps ⊆ List.range s.nextConn := fun p hp => List.mem_range.mpr (h.fresh p hp)
  simpa using (List.subperm_of_subset h.nodup hsub).length_le

/-- The first half of `process_timers` closes the connections at the front of the list that have
expired, by the sum that the code computes, up to one that has not. -/
theorem closeIdle (h : s.Registered ps) {fuel : Nat} (hfuel : ps.length < fuel) (now : UInt64) :
    ∃ s' as bs, closeIdle now fuel s = .ok s' ∧ ps = as ++ bs ∧ s'.Registered bs ∧
      (∀ p ∈ bs, s'.conns p = s.conns p) ∧ s'.data = s.data ∧
      (∀ p ∈ as, ∀ conn, s.conns p = some conn → conn.lastActivityMs + .ofNat kIdleTimeoutMs < now) ∧
      ∀ p conn, bs.head? = some p → s.conns p = some conn →
        now ≤ conn.lastActivityMs + .ofNat kIdleTimeoutMs := by
  induction fuel generalizing s ps with
  | zero => omega
  | succ fuel ih =>
    unfold MiniRedis.closeIdle
    cases ps with
    | nil =>
      rw [if_pos (h.idle.empty_iff.mpr rfl)]
      exact ⟨s, [], [], rfl, rfl, h, by simp, rfl, by simp, by simp⟩
    | cons p ps =>
      have hne : dlistEmpty s.idle .idleConnList ≠ true := fun he => by
        simpa using h.idle.empty_iff.mp he
      have hnext : (s.idle .idleConnList).next = some (.idleNode p) := h.idle.next_eq
      obtain ⟨conn, hconn⟩ := (h.live p).mp List.mem_cons_self
      rw [if_neg hne]
      simp only [hnext, hconn, deref_some, ok_bind]
      split
      · next hdue =>
        refine ⟨s, [], p :: ps, rfl, rfl, h, fun _ _ => rfl, rfl, by simp, fun q c hq hc => ?_⟩
        obtain rfl : p = q := by simpa using hq
        obtain rfl := Option.some.inj (hconn.symm.trans hc)
        exact hdue
      · next hdue =>
        have hp : p ∉ ps := (List.nodup_cons.mp h.nodup).1
        have hsplit : s.Registered ([] ++ p :: ps) := h
        obtain ⟨s₁, hdestroy, h₁, hconns, hdata, -⟩ := hsplit.handleDestroy
        have hkept : ∀ q ∈ ps, s₁.conns q = s.conns q := fun q hq => by
          rw [hconns]
          exact Function.update_of_ne (fun he : q = p => hp (he ▸ hq)) ..
        obtain ⟨s', as, bs, hrun, rfl, h', hsame, hdata', hexpired, hfirst⟩ :=
          ih h₁ (by simpa using hfuel)
        have hmem : ∀ q, q ∈ as ∨ q ∈ bs → q ∈ as ++ bs := fun q hq => List.mem_append.mpr hq
        refine ⟨s', p :: as, bs, ?_, rfl, h', fun q hq => ?_, hdata'.trans hdata, ?_, ?_⟩
        · rw [hdestroy]
          exact hrun
        · exact (hsame q hq).trans (hkept q (hmem q (.inr hq)))
        · intro q hq c hc
          rcases List.mem_cons.mp hq with rfl | hq
          · obtain rfl := Option.some.inj (hconn.symm.trans hc)
            exact UInt64.not_le.mp hdue
          · exact hexpired q hq c ((hkept q (hmem q (.inl hq))).trans hc)
        · intro q c hq hc
          have hq' : q ∈ bs := List.mem_of_mem_head? hq
          exact hfirst q c hq ((hkept q (hmem q (.inr hq'))).trans hc)

/-- A connection that remains is not older than the first one, which has not expired. -/
theorem not_idle (h : s.Registered (as ++ bs))
    (hfirst : ∀ p conn, bs.head? = some p → s.conns p = some conn →
      now ≤ conn.lastActivityMs + .ofNat kIdleTimeoutMs) :
    ∀ p ∈ bs, ∀ conn, s.conns p = some conn →
      now.toNat ≤ conn.lastActivityMs.toNat + kIdleTimeoutMs := by
  intro p hp conn hconn
  obtain ⟨q, rest, rfl⟩ : ∃ q rest, bs = q :: rest :=
    List.exists_cons_of_ne_nil (List.ne_nil_of_mem hp)
  obtain ⟨c, hc⟩ := (h.live q).mp (by simp)
  have hle : c.lastActivityMs ≤ conn.lastActivityMs := by
    rcases List.mem_cons.mp hp with rfl | hp
    · obtain rfl := Option.some.inj (hc.symm.trans hconn)
      exact UInt64.le_refl _
    · have hsorted := (List.pairwise_append.mp h.sorted).2.1
      exact (List.pairwise_cons.mp hsorted).1 p hp c conn hc hconn
  have hsum := UInt64.le_iff_toNat_le.mp (hfirst q c rfl hc)
  have hle := UInt64.le_iff_toNat_le.mp hle
  rw [UInt64.toNat_add, toNat_kIdleTimeoutMs] at hsum
  -- a sum that wraps around is smaller than the real one
  exact Nat.le_trans (Nat.le_trans hsum (Nat.mod_le _ _)) (Nat.add_le_add_right hle _)

end Registered

/-- The connections are registered, and the database and the heap of deadlines fit together. -/
structure Consistent (s : Server) (ps : List CPtr) : Prop where
  registered : s.Registered ps
  data : s.data.WF
  ordered : s.data.heap.Ordered

/-- `process_timers` closes a first part of the list and deletes keys that are due, until it has done
all its work or nothing that is left is due. -/
theorem Consistent.timers (h : s.Consistent ps) (now : UInt64) :
    ∃ s' as bs items, processTimers now s = .ok s' ∧ ps = as ++ bs ∧ s'.Consistent bs ∧
      (∀ p ∈ bs, s'.conns p = s.conns p) ∧
      (∀ p ∈ as, ∀ conn, s.conns p = some conn → conn.lastActivityMs + .ofNat kIdleTimeoutMs < now) ∧
      (∀ p conn, bs.head? = some p → s.conns p = some conn →
        now ≤ conn.lastActivityMs + .ofNat kIdleTimeoutMs) ∧
      s.data.Expires items s'.data ∧ (∀ item ∈ items, item.val ≤ now) ∧ items.length ≤ kMaxWorks ∧
      (items.length = kMaxWorks ∨ ∀ top, s'.data.heap.items[0]? = some top → now < top.val) := by
  obtain ⟨s₁, as, bs, hclose, rfl, h₁, hsame, hdata₁, hexpired, hfirst⟩ :=
    h.registered.closeIdle (Nat.lt_succ_of_le h.registered.length_le) now
  obtain ⟨data, items, hexpire, hall, hpast, hlen, hstop⟩ :=
    h.data.expireLoop_expires now kMaxWorks
  have h' : Registered { s₁ with data } bs :=
    ⟨h₁.idle, h₁.live, h₁.slots, h₁.sorted, h₁.isOpen, h₁.fresh⟩
  refine ⟨{ s₁ with data }, as, bs, items, ?_, rfl, ⟨h', hall.wf, (hall.ordered h.ordered).1⟩, hsame,
    hexpired, hfirst, hall, hpast, hlen, hstop⟩
  simp only [processTimers, hclose, ok_bind, hdata₁, expireKeys, hexpire, pure_eq_ok]

end Server

/-! ## Runs of the loop -/

/-- The descriptors that are still to be looked at. -/
def Phase.polled : Phase → List Nat
  | .polling => []
  | .accepting polled | .serving polled => polled

namespace Loop

variable {l l' : Loop} {ps : List CPtr}

/-- What holds in every state of the loop; `ps` are the connections. -/
structure Consistent (l : Loop) (ps : List CPtr) : Prop where
  server : l.server.Consistent ps
  recent : l.server.Recent l.time
  nodup : l.phase.polled.Nodup
  serves : ∀ fd ∈ l.phase.polled, l.server.Serves fd

theorem consistent_init (listenFd : Nat) : (Loop.init listenFd).Consistent [] where
  server := ⟨Server.registered_init listenFd, .empty, fun i up item _ hup _ => by simp [init] at hup⟩
  recent p conn hconn := by simp [Loop.init] at hconn
  nodup := .nil
  serves fd hfd := by simp [Loop.init, Phase.polled] at hfd

theorem Consistent.accept {accepted : Option Nat} {now : UInt64} {s' : Server}
    (h : l.Consistent ps) (htime : l.time ≤ now)
    (hfd : ∀ fd, accepted = some fd → fd ∉ l.server.openFds)
    (hrun : handleAccept accepted now l.server = .ok s') :
    ∃ ps', Consistent ⟨.serving l.phase.polled, now, s'⟩ ps' := by
  have hrecent := h.recent.mono htime
  have hreg := h.server.registered
  cases accepted with
  | none =>
    cases hrun
    exact ⟨ps, h.server, hrecent, h.nodup, h.serves⟩
  | some fd =>
    obtain ⟨s₁, conn, hok, hreg', hconns, htime, -, hdata⟩ := hreg.handleAccept hrecent (hfd fd rfl)
    cases hok.symm.trans hrun
    have hfresh : ∀ p c, l.server.conns p = some c → p ≠ l.server.nextConn := by
      rintro p c hc rfl
      exact Nat.lt_irrefl _ (hreg.fresh _ ((hreg.live _).mpr ⟨c, hc⟩))
    refine ⟨_, ⟨hreg', hdata ▸ h.server.data, hdata ▸ h.server.ordered⟩, fun p c hc => ?_, h.nodup,
      fun fd' hfd' => ?_⟩
    · simp only [hconns] at hc
      by_cases hp : p = l.server.nextConn
      · subst hp
        obtain rfl : conn = c := by simpa using hc
        exact UInt64.le_of_eq htime
      · exact hrecent p c (by simpa only [Function.update_of_ne hp] using hc)
    · obtain ⟨p, c, hc, hcfd⟩ := h.serves fd' hfd'
      refine ⟨p, c, ?_, hcfd⟩
      simp only [hconns]
      exact (Function.update_of_ne (hfresh p c hc) ..).trans hc

/-- What is read from a socket keeps the server data consistent. -/
theorem handleRead_consistent {clock : Nat → UInt64} {data data' : ServerData} {conn : Connection}
    {rv : ReadResult} {write : Bytes → WriteResult} {r : Connection × Bytes}
    (h : data.WF ∧ data.heap.Ordered) (hrun : handleRead clock data conn rv write = .ok (data', r)) :
    data'.WF ∧ data'.heap.Ordered := by
  refine handleRead_invariant (motive := fun data => data.WF ∧ data.heap.Ordered) ?_ h hrun
  intro now s cmd s' value h hreq
  exact ⟨(h.1.runRequest_ok hreq).1, ServerData.runRequest_ordered h.2 hreq⟩

/-- One step of the loop. -/
theorem Consistent.step (h : l.Consistent ps) (hstep : l.Step l') : ∃ ps', l'.Consistent ps' := by
  have hdata : l.server.data.WF ∧ l.server.data.heap.Ordered := ⟨h.server.data, h.server.ordered⟩
  cases hstep with
  | poll hrun =>
    obtain ⟨polled, hok, hnodup, hserves⟩ := h.server.registered.pollArgs
    cases hok.symm.trans hrun
    exact ⟨ps, h.server, h.recent, hnodup, hserves⟩
  | interrupted => exact ⟨ps, h⟩
  | noAccept => exact ⟨ps, h.server, h.recent, h.nodup, h.serves⟩
  | accept htime hfd hrun => exact h.accept htime hfd hrun
  | @event t e fd s s' polled htime hrun =>
    obtain ⟨hfd, hnodup⟩ := List.nodup_cons.mp h.nodup
    obtain ⟨ps', hreg, hrecent, hothers, hread⟩ := h.server.registered.handleEvent
      (h.recent.mono htime) (h.serves fd List.mem_cons_self) hrun
    have hdata' : s'.data.WF ∧ s'.data.heap.Ordered := by
      rcases hread with hsame | ⟨conn, r, hread⟩
      · exact hsame ▸ hdata
      · exact handleRead_consistent hdata hread
    refine ⟨ps', ⟨hreg, hdata'.1, hdata'.2⟩, hrecent, hnodup, fun fd' hfd' => ?_⟩
    -- The descriptors are distinct, so the one just handled is not looked at again.
    have hne : fd' ≠ fd := fun he => hfd (he ▸ hfd')
    exact hothers fd' hne (h.serves fd' (List.mem_cons_of_mem _ hfd'))
  | @timers t now s s' htime hrun =>
    obtain ⟨s₁, as, bs, items, hok, -, hs₁, hsame, -⟩ := h.server.timers now
    cases hok.symm.trans hrun
    refine ⟨bs, hs₁, fun p c hc => ?_, .nil, fun fd hfd => by simp [Phase.polled] at hfd⟩
    have hp : p ∈ bs := (hs₁.registered.live p).mpr ⟨c, hc⟩
    exact UInt64.le_trans (h.recent p c (hsame p hp ▸ hc)) htime

/-- Every run of the loop from its start. -/
theorem consistent_run {listenFd : Nat} (hrun : Relation.ReflTransGen Step (Loop.init listenFd) l) :
    ∃ ps, l.Consistent ps := by
  induction hrun with
  | refl => exact ⟨[], consistent_init listenFd⟩
  | tail _ hstep ih =>
    obtain ⟨ps, h⟩ := ih
    exact h.step hstep

end Loop

/-- **The registry.** In every state that the loop reaches, the map and the list hold the same
connections, each once and each in the slot of its descriptor, and the list is sorted by the last
activity. So `poll_args` is built from live connections, `handle_accept` returns for a descriptor that
is not open, a polled descriptor that is looked at has a live connection, and `process_timers` leaves
no connection that has been idle for too long. A connection that it closes has expired by the sum that it computes, a `uint64_t`. -/
theorem registry_consistent {listenFd : Nat} {l : Loop}
    (hrun : Relation.ReflTransGen Loop.Step (Loop.init listenFd) l) :
    (∃ ps, l.server.Registered ps) ∧
    (∃ polled, pollArgs l.server l.server.fd2conn = .ok polled) ∧
    (∀ accepted now, l.time ≤ now → (∀ fd, accepted = some fd → fd ∉ l.server.openFds) →
      ∃ s', handleAccept accepted now l.server = .ok s') ∧
    (∀ fd polled, l.phase = .serving (fd :: polled) → ∃ p conn,
      l.server.fd2conn[fd]? = some (some p) ∧ l.server.conns p = some conn ∧ conn.socketFd = fd) ∧
    ∀ now, l.time ≤ now → ∃ s', processTimers now l.server = .ok s' ∧
      (∀ p conn, s'.conns p = some conn → l.server.conns p = some conn ∧
        ¬ conn.lastActivityMs.toNat + kIdleTimeoutMs < now.toNat) ∧
      (∀ p conn, l.server.conns p = some conn → s'.conns p = none →
        conn.lastActivityMs + .ofNat kIdleTimeoutMs < now) := by
  obtain ⟨ps, h⟩ := Loop.consistent_run hrun
  have hreg := h.server.registered
  refine ⟨⟨ps, hreg⟩, ?_, fun accepted now htime hfd => ?_, fun fd polled hphase => ?_,
    fun now htime => ?_⟩
  · obtain ⟨polled, hpoll, -⟩ := hreg.pollArgs
    exact ⟨polled, hpoll⟩
  · cases accepted with
    | none => exact ⟨l.server, rfl⟩
    | some fd =>
      obtain ⟨s', conn, hok, -⟩ := hreg.handleAccept (h.recent.mono htime) (hfd fd rfl)
      exact ⟨s', hok⟩
  · obtain ⟨p, conn, hconn, hfd⟩ := h.serves fd (by simp [hphase, Phase.polled])
    exact ⟨p, conn, (hreg.slots fd p).mpr ⟨conn, hconn, hfd⟩, hconn, hfd⟩
  · obtain ⟨s', as, bs, items, hok, rfl, hs', hsame, hexpired, hfirst, -⟩ :=
      h.server.timers now
    refine ⟨s', hok, fun p conn hconn => ?_, fun p conn hconn hnone => ?_⟩
    · have hp : p ∈ bs := (hs'.registered.live p).mpr ⟨conn, hconn⟩
      have hconn' := (hsame p hp).symm.trans hconn
      have hfit := hreg.not_idle hfirst p hp conn hconn'
      exact ⟨hconn', Nat.not_lt.mpr hfit⟩
    · rcases List.mem_append.mp ((hreg.live p).mpr ⟨conn, hconn⟩) with hp | hp
      · exact hexpired p hp conn hconn
      · obtain ⟨c, hc⟩ := (hs'.registered.live p).mp hp
        cases hnone.symm.trans hc

/-- The loop after one connection was accepted. -/
theorem reaches_accept {s : Server} {now : UInt64}
    (h : handleAccept (some 4) now { openFds := [3] } = .ok s) :
    Relation.ReflTransGen Loop.Step (Loop.init 3) ⟨.serving [], now, s⟩ := by
  have hpoll : Loop.Step (Loop.init 3) ⟨.accepting [], 0, { openFds := [3] }⟩ := .poll rfl
  have haccept : Loop.Step ⟨.accepting [], 0, { openFds := [3] }⟩ ⟨.serving [], now, s⟩ :=
    .accept (UInt64.le_iff_toNat_le.mpr (Nat.zero_le _)) (by simp) h
  exact .tail (.tail .refl hpoll) haccept

theorem registry_consistent_accept :
    ∃ s s', handleAccept (some 4) 5 { openFds := [3] } = .ok s ∧ s.fd2conn[4]? = some (some 0) ∧
      processTimers 15006 s = .ok s' ∧
      (∀ p conn, s'.conns p = some conn → ¬ conn.lastActivityMs.toNat + 15000 < 15006) ∧
      s'.conns 0 = none := by
  obtain ⟨s, hs⟩ : ∃ s, handleAccept (some 4) 5 { openFds := [3] } = .ok s := ⟨_, rfl⟩
  obtain ⟨-, -, -, -, htimers⟩ := registry_consistent (reaches_accept hs)
  obtain ⟨s', hs', hleft, -⟩ := htimers 15006 (show (5 : UInt64) ≤ 15006 by decide)
  refine ⟨s, s', hs, ?_, hs', fun p conn hconn => (hleft p conn hconn).2, ?_⟩
  · cases hs
    rfl
  · cases hs
    cases hs'
    rfl

/-- A connection is closed at the time of its last activity, when the sum wraps around. -/
theorem idle_wraps_accept :
    ∃ l s' conn, Relation.ReflTransGen Loop.Step (Loop.init 3) l ∧ l.phase = .serving [] ∧
      processTimers l.time l.server = .ok s' ∧ l.server.conns 0 = some conn ∧ s'.conns 0 = none ∧
      conn.lastActivityMs.toNat + kIdleTimeoutMs > l.time.toNat := by
  obtain ⟨s, hs⟩ : ∃ s, handleAccept (some 4) 18446744073709551615 { openFds := [3] } = .ok s :=
    ⟨_, rfl⟩
  obtain ⟨s', hs'⟩ : ∃ s', processTimers 18446744073709551615 s = .ok s' := by
    cases hs
    exact ⟨_, rfl⟩
  refine ⟨⟨.serving [], 18446744073709551615, s⟩, s',
    { wantRead := true, socketFd := 4, lastActivityMs := 18446744073709551615 }, reaches_accept hs,
    rfl, hs', ?_, ?_, Nat.lt_add_of_pos_right (by decide)⟩
  · cases hs
    rfl
  · cases hs
    cases hs'
    rfl

end MiniRedis
