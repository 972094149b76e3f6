import Mathlib.Order.Bounds.Basic
import MiniRedis.Verify.Protocol
import MiniRedis.Verify.Timers

/-! # The timeout of `poll()`

`next_timer_ms` against the deadlines of the connections and the keys, and what `process_timers` does
at the same time. -/

namespace MiniRedis

/-- The deadlines of the keys that have one. -/
def ServerData.deadlines (s : ServerData) : Set Nat :=
  { d | ∃ k x e, s.contents k = some x ∧ x.expiry = some e ∧ d = e.toNat }

namespace Server

/-- The deadline of a connection, without the width of `uint64_t`. -/
def deadline (conn : ClientConn) : Nat := conn.lastActivityMs.toNat + kIdleTimeoutMs

/-- The deadlines of the connections and of the keys. -/
def deadlines (s : Server) : Set Nat :=
  { d | ∃ p conn, s.conns p = some conn ∧ d = deadline conn } ∪ s.data.deadlines

/-- `poll()` does not sleep past a deadline: the timeout is `-1` if there is none; otherwise it is not
negative, and it ends at the earliest deadline or before. -/
def PollsInTime (s : Server) (now : UInt64) : Prop :=
  ∃ r, nextTimerMs now s = .ok r ∧ (r = -1 ↔ s.deadlines = ∅) ∧
    ∀ d, IsLeast s.deadlines d → 0 ≤ r.toInt ∧ (d ≤ now.toNat → r = 0) ∧
      (now.toNat < d → now.toNat + r.toInt ≤ d)

/-- The keys that are in the database before a call and not after it. -/
def removedKeys (s s' : Server) : Set Bytes :=
  { k | (∃ x, s.data.contents k = some x) ∧ s'.data.contents k = none }

/-- The two timer functions agree on what is due. If something is, `next_timer_ms` returns `0`, and
`process_timers` closes a connection or removes a key. Unless it stops at its limit, nothing that
remains is due. -/
def TimersAgree (s : Server) (now : UInt64) : Prop :=
  ∃ s', processTimers now s = .ok s' ∧
    (∀ d, IsLeast s.deadlines d → d ≤ now.toNat → nextTimerMs now s = .ok 0 ∧
      ((∃ p conn, s.conns p = some conn ∧ s'.conns p = none) ∨ (s.removedKeys s').Nonempty)) ∧
    ((s.removedKeys s').ncard < kMaxWorks → ∀ d ∈ s'.deadlines, ¬ d ≤ now.toNat)

/-- The first connection of the list is the one that has been idle for longest; `first` is the sum
that the code computes for it, or the largest `uint64_t` if there is no connection. -/
def FirstIdle (s : Server) (first : UInt64) : Prop :=
  (∀ p, s.conns p = none) ∧ first = .ofNat sizeMax ∨
  ∃ p conn, s.conns p = some conn ∧ first = conn.lastActivityMs + .ofNat kIdleTimeoutMs ∧
    ∀ q conn', s.conns q = some conn' → deadline conn ≤ deadline conn'

variable {s s' : Server} {ps : List CPtr} {now nextMs first : UInt64}

theorem toNat_sizeMax : (UInt64.ofNat sizeMax).toNat = 2 ^ 64 - 1 := by decide

theorem toNat_deadline_le (conn : ClientConn) :
    (conn.lastActivityMs + .ofNat kIdleTimeoutMs).toNat ≤ deadline conn := by
  rw [UInt64.toNat_add, toNat_kIdleTimeoutMs, deadline]
  exact Nat.mod_le _ _

theorem toNat_deadline_eq {conn : ClientConn} (h : deadline conn < 2 ^ 64) :
    (conn.lastActivityMs + .ofNat kIdleTimeoutMs).toNat = deadline conn := by
  rw [UInt64.toNat_add, toNat_kIdleTimeoutMs]
  exact Nat.mod_eq_of_lt h

theorem deadlines_eq (hnone : ∀ p conn, s.conns p ≠ some conn) : s.deadlines = s.data.deadlines := by
  refine Set.Subset.antisymm ?_ Set.subset_union_right
  rintro d (⟨p, conn, hconn, -⟩ | hd)
  · exact absurd hconn (hnone p conn)
  · exact hd

theorem mem_deadlines_of_item (h : s.data.WF) {item : HeapItem EPtr}
    (hitem : item ∈ s.data.heap.items) : item.val.toNat ∈ s.data.deadlines := by
  obtain ⟨hx, hd⟩ := h.contents_of_item hitem
  exact ⟨_, _, _, hx, hd, rfl⟩

theorem Registered.nextIdleMs (h : s.Registered ps) :
    ∃ first, nextIdleMs s = .ok first ∧ s.FirstIdle first := by
  cases ps with
  | nil =>
    have hempty : dlistEmpty s.idle .idleConnList = true := h.idle.empty_iff.mpr rfl
    have hnone : ∀ p, s.conns p = none := fun p => by
      by_contra hp
      exact absurd ((h.live p).mpr (Option.ne_none_iff_exists'.mp hp)) (by simp)
    exact ⟨.ofNat sizeMax, by simp only [MiniRedis.nextIdleMs, if_pos hempty, pure_eq_ok],
      .inl ⟨hnone, rfl⟩⟩
  | cons p ps =>
    have hne : dlistEmpty s.idle .idleConnList ≠ true := fun he => by
      simpa using h.idle.empty_iff.mp he
    have hnext : (s.idle .idleConnList).next = some (.idleNode p) := h.idle.next_eq
    obtain ⟨conn, hconn⟩ := (h.live p).mp List.mem_cons_self
    refine ⟨_, ?_, .inr ⟨p, conn, hconn, rfl, fun q conn' hconn' => Nat.add_le_add_right ?_ _⟩⟩
    · simp only [MiniRedis.nextIdleMs, if_neg hne, hnext, hconn, deref_some, ok_bind, pure_eq_ok]
    · rcases List.mem_cons.mp ((h.live q).mpr ⟨conn', hconn'⟩) with rfl | hq
      · obtain rfl := Option.some.inj (hconn.symm.trans hconn')
        exact Nat.le_refl _
      · exact UInt64.le_iff_toNat_le.mp
          ((List.pairwise_cons.mp h.sorted).1 q hq conn conn' hconn hconn')

/-- What `next_timer_ms` computes: the smaller one of the first sum and the top of the heap. -/
theorem Consistent.nextTimerMs (h : s.Consistent ps) (now : UInt64) :
    ∃ first nextMs, nextTimerMs now s = .ok (waitMs now nextMs) ∧ s.FirstIdle first ∧
      nextMs ≤ first ∧ (∀ d ∈ s.data.deadlines, nextMs.toNat ≤ d) ∧
      (nextMs = first ∨ nextMs.toNat ∈ s.data.deadlines) := by
  obtain ⟨first, hrun, hfirst⟩ := h.registered.nextIdleMs
  rw [MiniRedis.nextTimerMs, hrun, ok_bind]
  have hkeys : ∀ d ∈ s.data.deadlines, ∃ item ∈ s.data.heap.items, item.val.toNat = d := by
    rintro _ ⟨k, x, e, hx, he, rfl⟩
    obtain ⟨item, hitem, -, rfl⟩ := h.data.item_of_contents hx he
    exact ⟨item, hitem, rfl⟩
  cases hitems : s.data.heap.items with
  | nil =>
    refine ⟨first, first, rfl, hfirst, UInt64.le_refl _, fun d hd => ?_, .inl rfl⟩
    obtain ⟨item, hitem, -⟩ := hkeys d hd
    simp [hitems] at hitem
  | cons top rest =>
    have htop : ∀ d ∈ s.data.deadlines, top.val.toNat ≤ d := fun d hd => by
      obtain ⟨item, hitem, rfl⟩ := hkeys d hd
      exact UInt64.le_iff_toNat_le.mp (h.ordered.top_le (by simp [hitems]) hitem)
    have hmem : top.val.toNat ∈ s.data.deadlines :=
      mem_deadlines_of_item h.data (by simp [hitems])
    refine ⟨first, _, rfl, hfirst, ?_⟩
    split
    · next hlt => exact ⟨UInt64.le_of_lt hlt, htop, .inr hmem⟩
    · next hge =>
      exact ⟨UInt64.le_refl _, fun d hd =>
        Nat.le_trans (UInt64.le_iff_toNat_le.mp (UInt64.not_lt.mp hge)) (htop d hd), .inl rfl⟩

theorem waitMs_toInt (hmax : nextMs ≠ .ofNat sizeMax) (hlt : now < nextMs) :
    (waitMs now nextMs).toInt = ((nextMs.toNat - now.toNat : Nat) : Int).bmod (2 ^ 32) := by
  have hsub : (nextMs - now).toNat = nextMs.toNat - now.toNat :=
    UInt64.toNat_sub_of_le _ _ (UInt64.le_of_lt hlt)
  have hcast : (nextMs - now).toUInt32.toInt32.toInt =
      ((nextMs - now).toUInt32.toNat : Int).bmod (2 ^ 32) :=
    BitVec.toInt_eq_toNat_bmod _
  rw [waitMs, if_neg hmax, if_neg (UInt64.not_le.mpr hlt), hcast, UInt64.toNat_toUInt32, hsub,
    Int.natCast_emod]
  exact Int.emod_bmod _ _

/-- If no sum wraps around, the code finds the earliest deadline. -/
theorem FirstIdle.isLeast (hfirst : s.FirstIdle first)
    (hfit : ∀ p conn, s.conns p = some conn → deadline conn < 2 ^ 64) (hle : nextMs ≤ first)
    (hkeys : ∀ d ∈ s.data.deadlines, nextMs.toNat ≤ d)
    (hsource : nextMs = first ∨ nextMs.toNat ∈ s.data.deadlines) :
    s.deadlines = ∅ ∧ nextMs = .ofNat sizeMax ∨ IsLeast s.deadlines nextMs.toNat := by
  rcases hfirst with ⟨hnone, rfl⟩ | ⟨p, conn, hconn, rfl, hmin⟩
  · rw [deadlines_eq fun p conn => by simp [hnone p]]
    rcases hsource with rfl | hmem
    · rcases Set.eq_empty_or_nonempty s.data.deadlines with hempty | ⟨d, hd⟩
      · exact .inl ⟨hempty, rfl⟩
      · -- a key whose deadline is the largest number
        obtain ⟨k, x, e, hx, he, rfl⟩ := hd
        have hge := hkeys _ ⟨k, x, e, hx, he, rfl⟩
        have hmax := toNat_sizeMax
        have hlt := e.toNat_lt
        have : (UInt64.ofNat sizeMax).toNat = e.toNat := by omega
        exact .inr ⟨⟨k, x, e, hx, he, this⟩, hkeys⟩
    · exact .inr ⟨hmem, hkeys⟩
  · have hsum := toNat_deadline_eq (hfit p conn hconn)
    have hle' := UInt64.le_iff_toNat_le.mp hle
    rw [hsum] at hle'
    refine .inr ⟨?_, ?_⟩
    · rcases hsource with rfl | hmem
      · exact .inl ⟨p, conn, hconn, hsum⟩
      · exact .inr hmem
    · rintro d (⟨q, conn', hconn', rfl⟩ | hd)
      · exact Nat.le_trans hle' (hmin q conn' hconn')
      · exact hkeys d hd

/-- The narrowing of the timeout to `int32_t`. -/
theorem pollsInTime_iff (hrun : nextTimerMs now s = .ok (waitMs now nextMs))
    (hleast : IsLeast s.deadlines nextMs.toNat) :
    s.PollsInTime now ↔ nextMs ≠ .ofNat sizeMax ∧
      (nextMs ≤ now ∨ (nextMs.toNat - now.toNat) % 2 ^ 32 < 2 ^ 31) := by
  have hne : s.deadlines ≠ ∅ := Set.nonempty_iff_ne_empty.mp ⟨_, hleast.1⟩
  constructor
  · rintro ⟨r, hr, hforever, hwait⟩
    cases hrun.symm.trans hr
    have hmax : nextMs ≠ .ofNat sizeMax := fun heq => hne (hforever.mp (if_pos heq))
    refine ⟨hmax, ?_⟩
    by_cases hle : nextMs ≤ now
    · exact .inl hle
    · have hnonneg := (hwait _ hleast).1
      rw [waitMs_toInt hmax (UInt64.not_le.mp hle), Int.bmod_def] at hnonneg
      refine .inr ?_
      split at hnonneg <;> omega
  · rintro ⟨hmax, hcase⟩
    have hwait : 0 ≤ (waitMs now nextMs).toInt ∧ (nextMs ≤ now → waitMs now nextMs = 0) ∧
        (now < nextMs → now.toNat + (waitMs now nextMs).toInt ≤ nextMs.toNat) := by
      by_cases hle : nextMs ≤ now
      · have hzero : waitMs now nextMs = 0 := by rw [waitMs, if_neg hmax, if_pos hle]
        exact ⟨by rw [hzero]; decide, fun _ => hzero, fun hlt => absurd hle (UInt64.not_le.mpr hlt)⟩
      · have hlt := UInt64.lt_iff_toNat_lt.mp (UInt64.not_le.mp hle)
        have hsmall := hcase.resolve_left hle
        rw [waitMs_toInt hmax (UInt64.not_le.mp hle), Int.bmod_def, if_pos (by omega)]
        exact ⟨by omega, fun h => absurd h hle, fun _ => by omega⟩
    obtain ⟨hnonneg, hdue, hsleep⟩ := hwait
    refine ⟨_, hrun, ⟨fun heq => ?_, fun hempty => absurd hempty hne⟩, fun d hd => ?_⟩
    · rw [heq] at hnonneg
      exact absurd hnonneg (by decide)
    · obtain rfl := hd.unique hleast
      exact ⟨hnonneg, fun h => hdue (UInt64.le_iff_toNat_le.mpr h),
        fun h => hsleep (UInt64.lt_iff_toNat_lt.mpr h)⟩

theorem FirstIdle.toNat_le (hfirst : s.FirstIdle first) {p : CPtr} {conn : ClientConn}
    (hconn : s.conns p = some conn) : first.toNat ≤ deadline conn := by
  rcases hfirst with ⟨hnone, -⟩ | ⟨q, conn', -, rfl, hmin⟩
  · cases (hnone p).symm.trans hconn
  · exact Nat.le_trans (toNat_deadline_le conn') (hmin p conn hconn)

/-- The code takes the largest `uint64_t` for no deadline. -/
theorem FirstIdle.eq_max_iff (hfirst : s.FirstIdle first)
    (hleast : ∀ p conn, s.conns p = some conn → 2 ^ 64 - 1 ≤ deadline conn) :
    first = .ofNat sizeMax ↔ (∀ p, s.conns p = none) ∨
      ∃ p conn, s.conns p = some conn ∧ deadline conn = 2 ^ 64 - 1 := by
  rcases hfirst with ⟨hnone, rfl⟩ | ⟨p, conn, hconn, rfl, hmin⟩
  · exact iff_of_true rfl (.inl hnone)
  · rw [← UInt64.toNat_inj, toNat_sizeMax]
    constructor
    · intro heq
      refine .inr ⟨p, conn, hconn, ?_⟩
      have hlt := conn.lastActivityMs.toNat_lt
      rw [UInt64.toNat_add, toNat_kIdleTimeoutMs] at heq
      unfold deadline kIdleTimeoutMs at *
      omega
    · rintro (hnone | ⟨q, conn', hconn', heq⟩)
      · cases (hnone p).symm.trans hconn
      · have hle := hmin q conn' hconn'
        have hge := hleast p conn hconn
        rw [toNat_deadline_eq (by omega)]
        omega

/-- When something is due, `next_timer_ms` returns `0`, unless the earliest deadline is the number
that stands for no deadline. -/
theorem Consistent.nextTimerMs_zero_iff (h : s.Consistent ps) {d : Nat} (hleast : IsLeast s.deadlines d)
    (hdue : d ≤ now.toNat) :
    MiniRedis.nextTimerMs now s = .ok 0 ↔ ¬ (d = 2 ^ 64 - 1 ∧
      ((∀ p, s.conns p = none) ∨ ∃ p conn, s.conns p = some conn ∧ deadline conn = 2 ^ 64 - 1)) := by
  obtain ⟨first, nextMs, hnext, hfirst, hle, hkeys, hsource⟩ := h.nextTimerMs now
  have hmax := toNat_sizeMax
  have hlt := now.toNat_lt
  have hled : nextMs.toNat ≤ d := by
    rcases hleast.1 with ⟨p, conn, hconn, rfl⟩ | hd
    · exact Nat.le_trans (UInt64.le_iff_toNat_le.mp hle) (hfirst.toNat_le hconn)
    · exact hkeys d hd
  have hconns : d = 2 ^ 64 - 1 → ∀ p conn, s.conns p = some conn → 2 ^ 64 - 1 ≤ deadline conn :=
    fun heq p conn hconn => heq ▸ hleast.2 (.inl ⟨p, conn, hconn, rfl⟩)
  have hsentinel : nextMs = .ofNat sizeMax ↔ d = 2 ^ 64 - 1 ∧
      ((∀ p, s.conns p = none) ∨ ∃ p conn, s.conns p = some conn ∧ deadline conn = 2 ^ 64 - 1) := by
    constructor
    · rintro rfl
      have heq : d = 2 ^ 64 - 1 := by omega
      refine ⟨heq, (hfirst.eq_max_iff (hconns heq)).mp ?_⟩
      have hge := UInt64.le_iff_toNat_le.mp hle
      have hlt' := first.toNat_lt
      exact UInt64.toNat_inj.mp (by omega)
    · rintro ⟨heq, hcase⟩
      rcases hsource with rfl | hmem
      · exact (hfirst.eq_max_iff (hconns heq)).mpr hcase
      · have hge := hleast.2 (.inr hmem)
        exact UInt64.toNat_inj.mp (by omega)
  rw [← hsentinel, hnext, waitMs]
  split
  · next heq => exact iff_of_false (by decide) (not_not.mpr heq)
  · next hne =>
    rw [if_pos (UInt64.le_iff_toNat_le.mpr (Nat.le_trans hled hdue))]
    exact iff_of_true rfl hne

theorem removedKeys_eq (h : s.data.WF) {items : List (HeapItem EPtr)}
    (hall : s.data.Expires items s'.data) :
    s.removedKeys s' = (items.map s.data.keyOf).toFinset := by
  ext k
  simp only [removedKeys, hall.contents, Set.mem_ofPred_eq, List.coe_toFinset]
  constructor
  · rintro ⟨⟨x, hx⟩, hnone⟩
    by_contra hk
    have hsame : s.data.contents k = none := (if_neg hk).symm.trans hnone
    cases hx.symm.trans hsame
  · intro hk
    refine ⟨?_, if_pos hk⟩
    obtain ⟨item, hitem, rfl⟩ := List.mem_map.mp hk
    exact ⟨_, (h.contents_of_item (hall.heap.mem_iff.mpr (List.mem_append_left _ hitem))).1⟩

/-- A call closes the connections before the first one that has not expired, by the sum that the code
computes, and removes as many keys as are due, up to its limit. -/
theorem Consistent.timers_removed (h : s.Consistent ps) (now : UInt64) :
    ∃ s', processTimers now s = .ok s' ∧
      (∀ p conn, s.conns p = some conn →
        (s'.conns p = none ∧ conn.lastActivityMs + .ofNat kIdleTimeoutMs < now) ∨
        (s'.conns p = some conn ∧ now.toNat ≤ deadline conn)) ∧
      (∀ p conn, s'.conns p = some conn → s.conns p = some conn) ∧
      (s.removedKeys s').ncard = min kMaxWorks (s.data.dueItems now) ∧
      (s.data.dueItems now ≤ kMaxWorks → s'.data.expired now = ∅) := by
  obtain ⟨s', as, bs, items, hrun, rfl, h', hsame, hexpired, hfirst, hall, hpast, hlen, hstop⟩ :=
    h.timers now
  have hcount := hall.length_eq h.ordered hpast hlen hstop
  have hdue := hall.dueItems_eq hpast
  refine ⟨s', hrun, fun p conn hconn => ?_, fun p conn hconn => ?_, ?_, fun hle => ?_⟩
  · by_cases hp : p ∈ bs
    · exact .inr ⟨(hsame p hp).trans hconn, h.registered.not_idle hfirst p hp conn hconn⟩
    · have hp' := (List.mem_append.mp ((h.registered.live p).mpr ⟨conn, hconn⟩)).resolve_right hp
      refine .inl ⟨?_, hexpired p hp' conn hconn⟩
      by_contra hlive
      exact hp ((h'.registered.live p).mpr (Option.ne_none_iff_exists'.mp hlive))
  · exact (hsame p ((h'.registered.live p).mpr ⟨conn, hconn⟩)).symm.trans hconn
  · rw [removedKeys_eq h.data hall, Set.ncard_coe_finset,
      List.toFinset_card_of_nodup (hall.nodup_keyOf h.data), List.length_map, hcount]
  · exact h'.data.expired_eq_empty (by omega)

end Server

/-- Below `2 ^ 63` no sum wraps around. -/
theorem Loop.Consistent.nextTimerMs {l : Loop} {ps : List CPtr} (h : l.Consistent ps) {now : UInt64}
    (htime : l.time ≤ now) (hnow : now.toNat < 2 ^ 63) :
    ∃ nextMs, nextTimerMs now l.server = .ok (waitMs now nextMs) ∧
      (∀ p conn, l.server.conns p = some conn → Server.deadline conn ≤ now.toNat + 15000) ∧
      (l.server.deadlines = ∅ ∧ nextMs = .ofNat sizeMax ∨ IsLeast l.server.deadlines nextMs.toNat) := by
  obtain ⟨first, nextMs, hnext, hfirst, hle, hkeys, hsource⟩ := h.server.nextTimerMs now
  have hlast : ∀ p conn, l.server.conns p = some conn →
      Server.deadline conn ≤ now.toNat + 15000 := fun p conn hconn =>
    Nat.add_le_add_right (UInt64.le_iff_toNat_le.mp (h.recent.mono htime p conn hconn)) _
  refine ⟨nextMs, hnext, hlast, hfirst.isLeast (fun p conn hconn => ?_) hle hkeys hsource⟩
  have := hlast p conn hconn
  omega

/-- **The timeout.** In every state that the loop reaches and at every time below `2 ^ 63`, `poll()` does
not sleep past a deadline exactly if a connection is open, or the wait for the first key to expire is
not negative as an `int32_t`. -/
theorem pollsInTime_iff_narrow {listenFd : Nat} {l : Loop}
    (hrun : Relation.ReflTransGen Loop.Step (Loop.init listenFd) l) {now : UInt64}
    (htime : l.time ≤ now) (hnow : now.toNat < 2 ^ 63) :
    l.server.PollsInTime now ↔
      (∃ p conn, l.server.conns p = some conn) ∨
      ∀ d, IsLeast l.server.data.deadlines d →
        d ≤ now.toNat ∨ d ≠ 2 ^ 64 - 1 ∧ (d - now.toNat) % 2 ^ 32 < 2 ^ 31 := by
  obtain ⟨ps, h⟩ := Loop.consistent_run hrun
  obtain ⟨nextMs, hnext, hlast, ⟨hempty, rfl⟩ | hleast⟩ := h.nextTimerMs htime hnow
  · refine iff_of_true ⟨-1, by rw [hnext, waitMs, if_pos rfl], by simp [hempty], ?_⟩ (.inr ?_)
    · intro d hd
      rw [hempty] at hd
      exact absurd hd.1 (Set.notMem_empty d)
    · intro d hd
      exact absurd (show d ∈ l.server.deadlines from .inr hd.1) (by simp [hempty])
  · have hmax := Server.toNat_sizeMax
    rw [Server.pollsInTime_iff hnext hleast]
    by_cases hconn : ∃ p conn, l.server.conns p = some conn
    · refine iff_of_true ?_ (.inl hconn)
      obtain ⟨p, conn, hconn⟩ := hconn
      have hnear := Nat.le_trans (hleast.2 (.inl ⟨p, conn, hconn, rfl⟩)) (hlast p conn hconn)
      refine ⟨fun heq => ?_, .inr ?_⟩
      · rw [heq, hmax] at hnear
        omega
      · rw [Nat.mod_eq_of_lt (by omega)]
        omega
    · rw [Server.deadlines_eq fun p conn hc => hconn ⟨p, conn, hc⟩] at hleast
      have hne : nextMs = .ofNat sizeMax ↔ nextMs.toNat = 2 ^ 64 - 1 := by
        rw [← UInt64.toNat_inj, hmax]
      constructor
      · rintro ⟨hnot, hcase⟩
        refine .inr fun d hd => ?_
        obtain rfl := hd.unique hleast
        exact hcase.imp UInt64.le_iff_toNat_le.mp fun hsmall => ⟨fun he => hnot (hne.mpr he), hsmall⟩
      · intro hcase
        rcases hcase.resolve_left hconn _ hleast with hdue | ⟨hnot, hsmall⟩
        · exact ⟨fun he => by have := hne.mp he; omega, .inl (UInt64.le_iff_toNat_le.mpr hdue)⟩
        · exact ⟨fun he => hnot (hne.mp he), .inr hsmall⟩

theorem pollsInTime_iff_narrow_accept :
    ∃ s, handleAccept (some 4) 5 { openFds := [3] } = .ok s ∧ (5 : UInt64) ≤ 10 ∧
      s.PollsInTime 10 := by
  obtain ⟨s, hs⟩ : ∃ s, handleAccept (some 4) 5 { openFds := [3] } = .ok s := ⟨_, rfl⟩
  refine ⟨s, hs, by decide, ?_⟩
  have htime : (⟨.serving [], 5, s⟩ : Loop).time ≤ 10 := show (5 : UInt64) ≤ 10 by decide
  refine (pollsInTime_iff_narrow (reaches_accept hs) htime (by decide)).mpr (.inl ?_)
  cases hs
  exact ⟨0, _, rfl⟩

/-- A client sets a key to expire in `3000000000` milliseconds, and its connection breaks. -/
def longTtl : Event where
  revents := pollIn ||| pollErr
  now := 10
  clock := fun _ => 10
  read := .data (frame (encodeRequest [ascii ['s', 'e', 't'], ascii ['k'], ascii ['v']]) ++
    frame (encodeRequest [ascii ['p', 'e', 'x', 'p', 'i', 'r', 'e'], ascii ['k'],
      ascii ['3', '0', '0', '0', '0', '0', '0', '0', '0', '0']]))
  writeAfterRead := fun bytes => .accepted bytes.length
  write := .again

/-- The connection is accepted, `process_timers` is called, and the event is handled. -/
def longTtlServer : Result Server := do
  let s ← handleAccept (some 4) 5 { openFds := [3] }
  let s ← processTimers 5 s
  handleEvent longTtl 4 s

theorem reaches_longTtl {s : Server} (h : longTtlServer = .ok s) :
    Relation.ReflTransGen Loop.Step (Loop.init 3) ⟨.serving [], 10, s⟩ := by
  obtain ⟨s₁, haccept, h⟩ := bind_eq_ok.mp h
  obtain ⟨s₂, htimers, hevent⟩ := bind_eq_ok.mp h
  have hpoll : pollArgs s₂ s₂.fd2conn = .ok [4] := by
    cases haccept
    cases htimers
    rfl
  have hsteps := reaches_accept haccept
  have hsteps := hsteps.tail (.timers (UInt64.le_refl _) htimers)
  have hsteps := (hsteps.tail (.poll hpoll)).tail .noAccept
  exact hsteps.tail (.event (show (5 : UInt64) ≤ 10 by decide) hevent)

/-- The wait is negative as an `int32_t`, so `poll()` waits forever. -/
theorem pollsInTime_longTtl :
    ∃ l, Relation.ReflTransGen Loop.Step (Loop.init 3) l ∧ l.time ≤ 10 ∧
      nextTimerMs 10 l.server = .ok (-1294967296) ∧ ¬ l.server.PollsInTime 10 := by
  obtain ⟨s, hs⟩ : ∃ s, longTtlServer = .ok s := ⟨_, rfl⟩
  have hreach := reaches_longTtl hs
  have hrun : nextTimerMs 10 s = .ok (-1294967296) := by
    have heval : (longTtlServer >>= nextTimerMs 10).toOption = some (-1294967296) := by
      decide +kernel
    rw [hs, ok_bind] at heval
    exact eq_ok_of_toOption heval
  refine ⟨_, hreach, UInt64.le_refl _, hrun, ?_⟩
  rintro ⟨r, hr, -, hwait⟩
  cases hrun.symm.trans hr
  obtain ⟨ps, h⟩ := Loop.consistent_run hreach
  obtain ⟨nextMs, hnext, -, ⟨-, rfl⟩ | hleast⟩ := h.nextTimerMs (UInt64.le_refl _) (show (10 : UInt64).toNat < 2 ^ 63 by decide)
  · cases hrun.symm.trans hnext
  · exact absurd (hwait _ hleast).1 (by decide)

/-! ## The two timer functions -/

/-- **What is due.** In every state that the loop reaches and at every time, the two timer functions
agree exactly if no connection has its deadline at that time, for `process_timers` takes such a
connection not to have expired, or it stops at its limit anyway; and the earliest deadline is not the
number that stands for no deadline. -/
theorem timersAgree_iff {listenFd : Nat} {l : Loop}
    (hrun : Relation.ReflTransGen Loop.Step (Loop.init listenFd) l) (now : UInt64) :
    l.server.TimersAgree now ↔
      ((∀ p conn, l.server.conns p = some conn → Server.deadline conn ≠ now.toNat) ∨
        kMaxWorks ≤ (l.server.data.expired now).ncard) ∧
      ¬ (now.toNat = 2 ^ 64 - 1 ∧ IsLeast l.server.deadlines now.toNat ∧
        ((∀ p, l.server.conns p = none) ∨
          ∃ p conn, l.server.conns p = some conn ∧ Server.deadline conn = 2 ^ 64 - 1)) := by
  obtain ⟨ps, h⟩ := Loop.consistent_run hrun
  have h := h.server
  generalize l.server = s at h
  obtain ⟨s', hrun, hconns, hkept, hremoved, hnone⟩ := h.timers_removed now
  rw [h.data.ncard_expired]
  constructor
  · rintro ⟨_, hrun', hdue, hleft⟩
    cases hrun.symm.trans hrun'
    refine ⟨?_, fun ⟨hnow, hleast, hcase⟩ => ?_⟩
    · by_contra hnot
      rw [not_or, Nat.not_le] at hnot
      obtain ⟨hex, hfew⟩ := hnot
      refine hex fun p conn hconn heq => ?_
      -- a connection with this deadline stays
      rcases hconns p conn hconn with ⟨-, hlt⟩ | ⟨hstays, -⟩
      · have hlt := UInt64.lt_iff_toNat_lt.mp hlt
        rw [Server.toNat_deadline_eq (heq ▸ now.toNat_lt)] at hlt
        omega
      · exact hleft (by omega) _ (.inl ⟨p, conn, hstays, rfl⟩) heq.le
    · exact (h.nextTimerMs_zero_iff hleast (Nat.le_refl _)).mp (hdue _ hleast (Nat.le_refl _)).1
        ⟨hnow, hcase⟩
  · rintro ⟨hexact, hsentinel⟩
    have hremoves : 0 < s.data.dueItems now → (s.removedKeys s').Nonempty := fun hpos =>
      Set.nonempty_of_ncard_ne_zero (by rw [hremoved]; simp only [kMaxWorks]; omega)
    refine ⟨s', hrun, fun d hleast hdue => ⟨?_, ?_⟩, fun hfew d hd hle => ?_⟩
    · refine (h.nextTimerMs_zero_iff hleast hdue).mpr fun ⟨heq, hcase⟩ => hsentinel ?_
      have hnow : now.toNat = d := by
        have := now.toNat_lt
        omega
      exact ⟨hnow.trans heq, hnow ▸ hleast, hcase⟩
    · rcases hleast.1 with ⟨p, conn, hconn, rfl⟩ | ⟨k, x, e, hx, he, rfl⟩
      · rcases hconns p conn hconn with ⟨hclosed, -⟩ | ⟨-, hge⟩
        · exact .inl ⟨p, conn, hconn, hclosed⟩
        · have hmany := hexact.resolve_left fun hne => hne p conn hconn (by omega)
          exact .inr (hremoves (Nat.lt_of_lt_of_le (by decide) hmany))
      · obtain ⟨item, hitem, -, rfl⟩ := h.data.item_of_contents hx he
        exact .inr (hremoves (List.countP_pos_iff.mpr
          ⟨item, hitem, decide_eq_true (UInt64.le_iff_toNat_le.mpr hdue)⟩))
    · rw [hremoved] at hfew
      rcases hd with ⟨p, conn, hconn, rfl⟩ | ⟨k, x, e, hx, he, rfl⟩
      · have hold := hkept p conn hconn
        rcases hconns p conn hold with ⟨hclosed, -⟩ | ⟨-, hge⟩
        · cases hclosed.symm.trans hconn
        · exact hexact.elim (fun hne => hne p conn hold (by omega)) (by omega)
      · have hexp : k ∈ s'.data.expired now := ⟨x, e, hx, he, UInt64.le_iff_toNat_le.mpr hle⟩
        rw [hnone (by omega)] at hexp
        exact Set.notMem_empty k hexp

theorem timersAgree_iff_accept :
    ∃ s, handleAccept (some 4) 5 { openFds := [3] } = .ok s ∧ s.TimersAgree 15006 := by
  obtain ⟨s, hs⟩ : ∃ s, handleAccept (some 4) 5 { openFds := [3] } = .ok s := ⟨_, rfl⟩
  have hconns : ∀ p conn, s.conns p = some conn → conn.lastActivityMs = 5 := fun p conn hconn => by
    cases hs
    by_cases hp : p = 0
    · subst hp
      cases hconn
      rfl
    · cases (Function.update_of_ne hp _ _).symm.trans hconn
  refine ⟨s, hs, (timersAgree_iff (reaches_accept hs) 15006).mpr ⟨.inl ?_, ?_⟩⟩
  · intro p conn hconn heq
    rw [Server.deadline, hconns p conn hconn] at heq
    exact absurd heq (by decide)
  · rintro ⟨hnow, -⟩
    exact absurd hnow (by decide)

/-- A connection whose deadline is the time of the call is due for `next_timer_ms`, and not for
`process_timers`. -/
theorem timersAgree_deadline_now :
    ∃ l s', Relation.ReflTransGen Loop.Step (Loop.init 3) l ∧ nextTimerMs 15005 l.server = .ok 0 ∧
      processTimers 15005 l.server = .ok s' ∧ (∃ conn, s'.conns 0 = some conn) ∧
      ¬ l.server.TimersAgree 15005 := by
  obtain ⟨s, hs⟩ : ∃ s, handleAccept (some 4) 5 { openFds := [3] } = .ok s := ⟨_, rfl⟩
  obtain ⟨s', hs'⟩ : ∃ s', processTimers 15005 s = .ok s' := by
    cases hs
    exact ⟨_, rfl⟩
  have hstays : s'.conns 0 =
      some { wantRead := true, socketFd := 4, lastActivityMs := 5 } := by
    cases hs
    cases hs'
    rfl
  have hempty : s.removedKeys s' = ∅ := by
    cases hs
    refine Set.eq_empty_of_forall_notMem ?_
    rintro k ⟨⟨x, hx⟩, -⟩
    cases hx
  refine ⟨⟨.serving [], 5, s⟩, s', reaches_accept hs, ?_, hs', ⟨_, hstays⟩, ?_⟩
  · cases hs
    rfl
  · rintro ⟨_, hrun, -, hleft⟩
    cases hs'.symm.trans hrun
    refine hleft ?_ _ (.inl ⟨0, _, hstays, rfl⟩) (by decide)
    rw [hempty, Set.ncard_empty]
    decide

end MiniRedis
