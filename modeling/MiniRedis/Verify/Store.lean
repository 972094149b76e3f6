import MiniRedis.Verify.RangeQuery
import MiniRedis.Verify.Session
import MiniRedis.Verify.Timers

/-! # A store for many clients

What the server is for, without its pointers, tables and buffers: a store from keys to contents, which
answers one request after the other and drops the keys whose time has come. The event loop is such a
store: whatever it did for all of its clients is a history of the store. -/

namespace MiniRedis

/-- What the keys hold. -/
abbrev Store := Bytes → Option Content

namespace Store

variable {c c' : Store} {now : UInt64} {v : Value} {req : Request} {request response : Bytes}

/-- The answer `v` to a request on the store `c`, and the store `c'` afterwards. A range query is answered
from the list of the members in order. -/
def Answers (now : UInt64) (c : Store) (v : Value) (c' : Store) : Request → Prop
  | .zquery key score name offset limit =>
    c' = c ∧
    match str2dbl score, str2int offset, str2int limit, zsetFor (c key) with
    | none, _, _, _ => v = .badArg
        ['e', 'x', 'p', 'e', 'c', 't', ' ', 'f', 'p', ' ', 'n', 'u', 'm', 'b', 'e', 'r']
    | some _, some _, some _, none => v = .badTyp
    | some score, some offset, some limit, some x => ∃ S, Listing x.scores S ∧
        v = .arr (memberValues (querySlice S score name (offset.bmod (2 ^ 32)) limit))
    | some _, _, _, _ => v = .badArg ['e', 'x', 'p', 'e', 'c', 't', ' ', 'i', 'n', 't']
  | req => req.Answers now c v c'

theorem answers_of_request (h : req.Answers now c v c') : c.Answers now v c' req := by
  cases req with
  | zquery key scoreText name offsetText limitText =>
    obtain ⟨hsame, hv⟩ := h
    refine ⟨hsame, ?_⟩
    revert hv
    cases str2dbl scoreText with
    | none => exact id
    | some score =>
      cases str2int offsetText with
      | none => exact id
      | some offset =>
        cases str2int limitText with
        | none => exact id
        | some limit =>
          cases zsetFor (c key) with
          | none => exact id
          | some x =>
            rintro ⟨z, t, ht, hscores, rfl⟩
            refine ⟨t.inorder.map z.member, hscores ▸ ht.listing, ?_⟩
            rw [ZSet.pairs_eq, ZSet.queried_eq, Int32.toInt_ofInt]
            rfl
  | ping | get _ | set _ _ | del _ | keys | zadd _ _ _ | zrem _ _ | zscore _ _ | pttl _ | pexpire _ _ |
    unknown => exact h

/-- The answers to a request determine the store afterwards, and but for the order in which `keys` lists the
keys the store determines the answer. -/
theorem Answers.unique {v₁ v₂ : Value} {c₁ c₂ : Store} (h₁ : c.Answers now v₁ c₁ req)
    (h₂ : c.Answers now v₂ c₂ req) : c₁ = c₂ ∧ (req ≠ .keys → v₁ = v₂) := by
  cases req with
  | ping | get key | set key value | del key | pttl key =>
    exact ⟨h₁.2.trans h₂.2.symm, fun _ => h₁.1.trans h₂.1.symm⟩
  | unknown => exact ⟨h₁.1.trans h₂.1.symm, fun _ => h₁.2.trans h₂.2.symm⟩
  | keys => exact ⟨h₁.1.trans h₂.1.symm, fun hkeys => absurd rfl hkeys⟩
  | zadd key scoreText name | zrem key name | zscore key name | pexpire key ttl =>
    -- The store and the arguments decide the case, and the case decides the answer.
    simp only [Answers, Request.Answers] at h₁ h₂
    revert h₁ h₂
    split
    all_goals
      intro h₁ h₂
      exact ⟨h₁.2.trans h₂.2.symm, fun _ => h₁.1.trans h₂.1.symm⟩
  | zquery key scoreText name offsetText limitText =>
    obtain ⟨hsame₁, hv₁⟩ := h₁
    obtain ⟨hsame₂, hv₂⟩ := h₂
    refine ⟨hsame₁.trans hsame₂.symm, fun _ => ?_⟩
    revert hv₁ hv₂
    split
    · intro hv₁ hv₂
      exact hv₁.trans hv₂.symm
    · intro hv₁ hv₂
      exact hv₁.trans hv₂.symm
    · rintro ⟨S₁, hS₁, rfl⟩ ⟨S₂, hS₂, rfl⟩
      rw [hS₁.unique hS₂]
    · intro hv₁ hv₂
      exact hv₁.trans hv₂.symm

/-- The payload of a request and that of its response. What is not the encoding of a list of words is
answered with an error, and so is a request whose answer is too big. -/
def Responds (now : UInt64) (c : Store) (request response : Bytes) (c' : Store) : Prop :=
  (∃ words v, Encodable words ∧ request = encodeRequest words ∧
    c.Answers now v c' (Request.ofCmd words) ∧ response = capResponse v.encode) ∨
  ((∀ words, Encodable words → request ≠ encodeRequest words) ∧ c' = c ∧
    response = (Value.err errBadArg malformedText).encode)

/-- The store without the keys whose time has come. -/
def expire (now : UInt64) (c : Store) : Store := fun k => (c k).filter fun x => x.expiry.all (now < ·)

theorem expire_of_due {k : Bytes} {x : Content} {d : UInt64} (hx : c k = some x) (hd : x.expiry = some d)
    (hdue : d ≤ now) : c.expire now k = none := by
  simp [expire, hx, Option.filter, hd, UInt64.not_lt.mpr hdue]

theorem expire_of_not_due {k : Bytes} {x : Content} (hx : c k = some x)
    (hlate : ∀ d, x.expiry = some d → now < d) : c.expire now k = some x := by
  have hall : x.expiry.all (now < ·) := by
    cases hd : x.expiry with
    | none => rfl
    | some d => exact decide_eq_true (hlate d hd)
  simp only [expire, hx, Option.filter, hall, if_true]

/-- One request or expiry after the other. -/
def History : Store → List Executed → Store → Prop
  | c, [], c' => c' = c
  | c, .request now _ request response :: log, c' =>
    ∃ c₁, c.Responds now request response c₁ ∧ History c₁ log c'
  | c, .timers now :: log, c' => History (c.expire now) log c'

end Store

namespace ServerData

variable {s s' : ServerData} {now : UInt64} {log : List Executed}

/-- One request. -/
theorem FirstTables.responds {request response : Bytes} (h : s.WF) (hfirst : s.FirstTables)
    (hrun : MiniRedis.respond now s request = .ok (s', response)) :
    Store.Responds now s.contents request response s'.contents := by
  rcases respond_eq_ok hrun with ⟨hparse, rfl, rfl⟩ | ⟨cmd, payload, hparse, hreq, rfl⟩
  · refine .inr ⟨fun words hwords he => ?_, rfl, rfl⟩
    have hsome := parseRequest_eq_some.mpr ⟨hwords, he⟩
    cases hparse.symm.trans hsome
  · obtain ⟨hwords, rfl⟩ := parseRequest_eq_some.mp hparse
    have hhandled := h.runRequest now cmd [] fun _ => hfirst.small
    rw [hreq] at hhandled
    obtain ⟨-, -, v, rfl, hanswers⟩ := hhandled
    exact .inl ⟨cmd, v, hwords, rfl, Store.answers_of_request hanswers, rfl⟩

/-- One call of `process_timers`: it drops all keys that are due, since the heap is smaller than what one
call takes. -/
theorem FirstTables.expires (h : s.WF) (hfirst : s.FirstTables) (hord : s.heap.Ordered)
    (hrun : expireKeys now s = .ok s') :
    s'.WF ∧ s'.heap.Ordered ∧ s'.contents = Store.expire now s.contents := by
  obtain ⟨s₁, items, hloop, hall, hpast, hlen, hstop⟩ := h.expireLoop_expires now kMaxWorks
  cases hloop.symm.trans hrun
  obtain ⟨hord', -⟩ := hall.ordered hord
  refine ⟨hall.wf, hord', ?_⟩
  have htop : ∀ top, s'.heap.items[0]? = some top → now < top.val := by
    refine hstop.resolve_left fun hfull => ?_
    have hle := hall.heap.length_eq.symm.trans_le (hfirst.items_le h)
    rw [List.length_append, hfull] at hle
    exact absurd (Nat.le_of_add_right_le hle) (by decide)
  have hnone := hall.wf.expired_eq_empty (Expires.dueItems_eq_zero hord' htop)
  funext k
  have hk : s'.contents k = if k ∈ items.map s.keyOf then none else s.contents k :=
    congrFun hall.contents k
  by_cases hmem : k ∈ items.map s.keyOf
  · rw [hk, if_pos hmem]
    obtain ⟨item, hitem, rfl⟩ := List.mem_map.mp hmem
    obtain ⟨hx, hd⟩ := h.contents_of_item (hall.heap.mem_iff.mpr (List.mem_append_left _ hitem))
    exact (Store.expire_of_due hx hd (hpast item hitem)).symm
  · rw [if_neg hmem] at hk
    rw [hk]
    cases hx : s.contents k with
    | none => rw [Store.expire, hx, Option.filter_none]
    | some x =>
      refine (Store.expire_of_not_due hx fun d hd => ?_).symm
      have hnot : k ∉ s'.expired now := hnone ▸ Set.notMem_empty k
      exact UInt64.not_le.mp fun hle => hnot ⟨x, d, hk.trans hx, hd, hle⟩

end ServerData

/-- What is executed on the server data is a history of its contents. -/
theorem Replay.history {s s' : ServerData} {log : List Executed} (h : s.WF) (hfirst : s.FirstTables)
    (hord : s.heap.Ordered) (hreplay : Replay s log s') : Store.History s.contents log s'.contents := by
  induction log generalizing s with
  | nil =>
    cases hreplay
    rfl
  | cons x log ih =>
    cases x with
    | request now p request response =>
      obtain ⟨s₁, hrun, hreplay⟩ := hreplay
      obtain ⟨h₁, hfirst₁, -⟩ := hfirst.respond h hrun
      have hord₁ : s₁.heap.Ordered := by
        rcases respond_eq_ok hrun with ⟨-, rfl, -⟩ | ⟨cmd, payload, -, hreq, -⟩
        · exact hord
        · exact ServerData.runRequest_ordered hord hreq
      exact ⟨s₁.contents, hfirst.responds h hrun, ih h₁ hfirst₁ hord₁ hreplay⟩
    | timers now =>
      obtain ⟨s₁, hrun, hreplay⟩ := hreplay
      obtain ⟨h₁, hord₁, hcontents⟩ := hfirst.expires h hord hrun
      have hfirst₁ := hfirst.changes (ServerData.expireLoop_changes hrun)
      rw [Store.History, ← hcontents]
      exact ih h₁ hfirst₁ hord₁ hreplay

/-- The log of a run is a history from the empty store. -/
theorem Loop.Traced.history {listenFd : Nat} {l : Loop} {τ : Traffic} (h : Loop.Traced listenFd l τ) :
    ∃ log, l.server.Serialises τ log ∧ Store.History (fun _ => none) log l.server.data.contents := by
  obtain ⟨log, hlog⟩ := h.serialises
  have hordered : ({} : ServerData).heap.Ordered := (Loop.consistent_init listenFd).server.ordered
  exact ⟨log, hlog, hlog.replay.history .empty .empty hordered⟩

/-- **The server is a store.** In every state that the loop reaches there is one history of the store, from
the empty one to what the keys hold now, that explains what every client sees: the requests of a connection
in it are the complete frames that were read from it, in order, and what was written to it are the frames of
the responses, up to what has not been written yet. Its times are the readings of the clock. -/
theorem server_is_store {listenFd : Nat} {l : Loop} {τ : Traffic} (h : Loop.Traced listenFd l τ) :
    ∃ log, Store.History (fun _ => none) log l.server.data.contents ∧ log.map Executed.now = τ.times ∧
      ∀ p, (exchanges p log).map Prod.fst = (splitFrames kMaxMsg (τ.received p)).1 ∧
        τ.sent p <+: (((exchanges p log).map Prod.snd).map frame).flatten := by
  obtain ⟨log, hlog, hhistory⟩ := h.history
  refine ⟨log, hhistory, hlog.times, fun p => ?_⟩
  obtain ⟨hrequests, hsent, -⟩ := hlog.traffic p
  exact ⟨hrequests, hsent⟩

/-- Two requests in one chunk. -/
theorem server_is_store_longTtl :
    ∃ l τ log, Loop.Traced 3 l τ ∧ Store.History (fun _ => none) log l.server.data.contents ∧
      log.map Executed.now = [5, 10, 10] ∧
      (exchanges 0 log).map Prod.fst = (splitFrames kMaxMsg longTtl.read.bytes).1 := by
  obtain ⟨s, r, h, hevent, hreceived, htimes⟩ := traced_longTtl
  have h' := h.event (show (5 : UInt64) ≤ 10 by decide) hevent
  obtain ⟨log, hhistory, hnow, hconn⟩ := server_is_store h'
  exact ⟨_, _, log, h', hhistory, hnow.trans htimes, hreceived ▸ (hconn 0).1⟩

end MiniRedis
