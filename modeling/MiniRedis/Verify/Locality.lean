import MiniRedis.Verify.Alike

/-! # Keys are independent

A request that names a key depends on what that key holds and on nothing else, and changes nothing else. So
the store is one small store for each key, side by side: what a key holds, and every answer about it, follows
from the requests that name it. -/

namespace MiniRedis

/-- The key that a request names. -/
def Request.key? : Request → Option Bytes
  | .get key | .set key _ | .del key | .zadd key _ _ | .zrem key _ | .zscore key _ | .zquery key _ _ _ _ |
    .pttl key | .pexpire key _ => some key
  | .ping | .keys | .unknown => none

/-- The key that the payload of a request names. -/
def requestKey (request : Bytes) : Option Bytes :=
  (parseRequest request).bind fun words => (Request.ofCmd words).key?

/-- What a key may depend on: the requests that name it, and the time. -/
def Executed.concerns (key : Bytes) : Executed → Bool
  | .request _ _ payload _ => requestKey payload = some key
  | .timers _ => true

theorem Request.Writes.key? {now : UInt64} {c : Bytes → Option Content} {req : Request} {v : Value} {key : Bytes}
    {y : Option Content} (h : req.Writes now c v key y) : req.key? = some key := by
  cases h <;> rfl

namespace Store

variable {c c' d : Store} {now : UInt64} {v : Value} {req : Request} {key : Bytes} {request response : Bytes}

/-! ## One request -/

/-- A request leaves the other keys alone. -/
theorem Answers.others (h : c.Answers now v c' req) (hkey : req.key? ≠ some key) : c' key = c key := by
  rcases h.cases with rfl | ⟨key', y, hw, rfl⟩
  · rfl
  · refine Function.update_of_ne (fun he => hkey ?_) ..
    rw [he]
    exact hw.key?

/-- A request only looks at its key. -/
theorem Answers.local (h : c.Answers now v c' req) (hkey : req.key? = some key) (hsame : d key = c key) :
    d.Answers now v (Function.update d key (c' key)) req := by
  have hkeep : c' = c → Function.update d key (c' key) = d := by
    intro he
    rw [he, ← hsame, Function.update_eq_self]
  have hwrite : ∀ y, c' = Function.update c key y → Function.update d key (c' key) = Function.update d key y := by
    intro y he
    rw [he, Function.update_self]
  cases req with
  | ping | keys | unknown => cases hkey
  | get key' | pttl key' =>
    cases hkey
    exact ⟨hsame ▸ h.1, hkeep h.2⟩
  | set key' value =>
    cases hkey
    refine ⟨h.1, ?_⟩
    rw [hsame]
    exact hwrite _ h.2
  | del key' =>
    cases hkey
    refine ⟨?_, hwrite _ h.2⟩
    rw [hsame]
    exact h.1
  | zquery key' score name offset limit =>
    cases hkey
    refine ⟨hkeep h.1, ?_⟩
    rw [hsame]
    exact h.2
  | zadd key' score name | zrem key' name | zscore key' name | pexpire key' ttl =>
    -- What the key holds and the arguments decide the case, and each case keeps the store or writes to the key.
    cases hkey
    simp only [Answers, Request.Answers] at h ⊢
    rw [hsame]
    revert h
    split
    all_goals
      intro h
      first
        | exact ⟨h.1, hkeep h.2⟩
        | exact ⟨h.1, hwrite _ h.2⟩

/-- The payload decides which request it is. -/
theorem requestKey_of_words {words : List Bytes} (h : Encodable words) :
    requestKey (encodeRequest words) = (Request.ofCmd words).key? := by
  rw [requestKey, parseRequest_eq_some.mpr ⟨h, rfl⟩, Option.bind_some]

theorem Responds.others (h : c.Responds now request response c') (hkey : requestKey request ≠ some key) :
    c' key = c key := by
  rcases h with ⟨words, v, hwords, rfl, hanswers, -⟩ | ⟨-, rfl, -⟩
  · rw [requestKey_of_words hwords] at hkey
    exact hanswers.others hkey
  · rfl

theorem Responds.local (h : c.Responds now request response c') (hkey : requestKey request = some key)
    (hsame : d key = c key) : d.Responds now request response (Function.update d key (c' key)) := by
  rcases h with ⟨words, v, hwords, rfl, hanswers, rfl⟩ | ⟨hnone, -, -⟩
  · rw [requestKey_of_words hwords] at hkey
    exact .inl ⟨words, v, hwords, rfl, hanswers.local hkey hsame, rfl⟩
  · obtain ⟨words, hparse, -⟩ := Option.bind_eq_some_iff.mp hkey
    obtain ⟨hwords, he⟩ := parseRequest_eq_some.mp hparse
    exact absurd he (hnone words hwords)

/-- Requests on two keys may change places. -/
theorem Responds.commute {t₁ t₂ : UInt64} {k₁ k₂ r₁ r₂ a₁ a₂ : Bytes} {c₁ c₂ : Store} (hne : k₁ ≠ k₂)
    (hk₁ : requestKey r₁ = some k₁) (hk₂ : requestKey r₂ = some k₂) (h₁ : c.Responds t₁ r₁ a₁ c₁)
    (h₂ : c₁.Responds t₂ r₂ a₂ c₂) : ∃ d, c.Responds t₂ r₂ a₂ d ∧ d.Responds t₁ r₁ a₁ c₂ := by
  have hother₁ : ∀ k, k ≠ k₁ → c₁ k = c k := fun k hk =>
    h₁.others fun he => hk (Option.some.inj (he.symm.trans hk₁))
  have hother₂ : ∀ k, k ≠ k₂ → c₂ k = c₁ k := fun k hk =>
    h₂.others fun he => hk (Option.some.inj (he.symm.trans hk₂))
  have hd := h₂.local hk₂ (hother₁ k₂ hne.symm).symm
  refine ⟨_, hd, ?_⟩
  have hresult := h₁.local hk₁ (Function.update_of_ne hne (c₂ k₂) c)
  have hsame : Function.update (Function.update c k₂ (c₂ k₂)) k₁ (c₁ k₁) = c₂ := by
    funext k
    by_cases hk : k = k₁
    · rw [hk, Function.update_self, hother₂ k₁ hne]
    · rw [Function.update_of_ne hk]
      by_cases hk' : k = k₂
      · rw [hk', Function.update_self]
      · rw [Function.update_of_ne hk', hother₂ k hk', hother₁ k hk]
  rwa [hsame] at hresult

/-! ## Histories -/

/-- The store with one key. -/
def only (key : Bytes) (c : Store) : Store := Function.update (fun _ => none) key (c key)

theorem only_expire (key : Bytes) (now : UInt64) (c : Store) :
    (c.expire now).only key = (c.only key).expire now := by
  funext k
  by_cases hk : k = key
  · rw [hk, only, Function.update_self, expire, expire, only, Function.update_self]
  · rw [only, Function.update_of_ne hk, expire, only, Function.update_of_ne hk, Option.filter_none]

/-- One request on the store with one key. -/
theorem Responds.only (h : c.Responds now request response c') (hkey : requestKey request = some key) :
    (c.only key).Responds now request response (c'.only key) := by
  have hlocal := h.local hkey (Function.update_self key (c key) fun _ => none)
  rwa [Function.update_idem] at hlocal

/-- What concerns one key, of a history, is a history of that key. -/
theorem History.only {log : List Executed} (h : c.History log c') (key : Bytes) :
    (c.only key).History (log.filter (·.concerns key)) (c'.only key) := by
  induction log generalizing c with
  | nil =>
    cases h
    rfl
  | cons x log ih =>
    cases x with
    | request now p request response =>
      obtain ⟨c₁, hresp, h⟩ := h
      by_cases hkey : requestKey request = some key
      · rw [List.filter_cons_of_pos (by simpa [Executed.concerns] using hkey)]
        exact ⟨c₁.only key, hresp.only hkey, ih h⟩
      · have hsame : c₁.only key = c.only key := by
          rw [Store.only, Store.only, hresp.others hkey]
        rw [List.filter_cons_of_neg (by simpa [Executed.concerns] using hkey), ← hsame]
        exact ih h
    | timers now =>
      have hexpired := only_expire key now c
      rw [List.filter_cons_of_pos rfl, History, ← hexpired]
      exact ih h

end Store

/-- **Keys are independent.** In every state that the loop reaches there is a history of the store, at the
readings of the clock, that explains what every client sees, and for each key the requests in it that name
the key, with the answers they had, and the calls of `process_timers` are by themselves a history, from the
empty store to what this key holds. -/
theorem keys_independent {listenFd : Nat} {l : Loop} {τ : Traffic} (h : Loop.Traced listenFd l τ) :
    ∃ log, Store.History (fun _ => none) log l.server.data.contents ∧ log.map Executed.now = τ.times ∧
      (∀ p, (exchanges p log).map Prod.fst = (splitFrames kMaxMsg (τ.received p)).1 ∧
        τ.sent p <+: (((exchanges p log).map Prod.snd).map frame).flatten) ∧
      ∀ key, Store.History (fun _ => none) (log.filter (·.concerns key))
        (Store.only key l.server.data.contents) := by
  obtain ⟨log, hlog, hhistory⟩ := h.history
  refine ⟨log, hhistory, hlog.times, fun p => ⟨(hlog.traffic p).1, (hlog.traffic p).2.1⟩, fun key => ?_⟩
  have honly := hhistory.only key
  rwa [Store.only, Function.update_eq_self] at honly

/-- Two requests in one chunk, on one key. -/
theorem keys_independent_longTtl :
    ∃ l τ log, Loop.Traced 3 l τ ∧ (exchanges 0 log).map Prod.fst = (splitFrames kMaxMsg longTtl.read.bytes).1 ∧
      log.map Executed.now = [5, 10, 10] ∧ Store.History (fun _ => none) (log.filter (·.concerns (ascii ['k'])))
        (Store.only (ascii ['k']) l.server.data.contents) := by
  obtain ⟨s, r, h, hevent, hreceived, htimes⟩ := traced_longTtl
  have h' := h.event (show (5 : UInt64) ≤ 10 by decide) hevent
  obtain ⟨log, -, hnow, hconn, honly⟩ := keys_independent h'
  exact ⟨_, _, log, h', hreceived ▸ (hconn 0).1, hnow.trans htimes, honly _⟩

/-- **Requests on different keys commute.** If both orders are executed, every request is answered the same in
both, and the contents are the same afterwards. -/
theorem requests_commute {listenFd : Nat} {l : Loop}
    (hrun : Relation.ReflTransGen Loop.Step (Loop.init listenFd) l) {t₁ t₂ : UInt64}
    {k₁ k₂ r₁ r₂ a₁ a₂ b₁ b₂ : Bytes} {s₁ s₂ s₁₂ s₂₁ : ServerData} (hne : k₁ ≠ k₂)
    (hk₁ : requestKey r₁ = some k₁) (hk₂ : requestKey r₂ = some k₂)
    (h₁ : respond t₁ l.server.data r₁ = .ok (s₁, a₁)) (h₁₂ : respond t₂ s₁ r₂ = .ok (s₁₂, a₂))
    (h₂ : respond t₂ l.server.data r₂ = .ok (s₂, b₂)) (h₂₁ : respond t₁ s₂ r₁ = .ok (s₂₁, b₁)) :
    a₁ = b₁ ∧ a₂ = b₂ ∧ s₁₂.contents = s₂₁.contents := by
  have hwithin := Loop.within_run hrun
  have hresponds : ∀ {s s' : ServerData} {now : UInt64} {request response : Bytes}, s.WF ∧ s.FirstTables →
      respond now s request = .ok (s', response) →
      Store.Responds now s.contents request response s'.contents ∧ s'.WF ∧ s'.FirstTables := by
    intro s s' now request response h hresp
    obtain ⟨hwf, hfirst, -⟩ := h.2.respond h.1 hresp
    exact ⟨h.2.responds h.1 hresp, hwf, hfirst⟩
  have hkeys : ∀ {request key : Bytes}, requestKey request = some key → request ≠ Store.keysRequest := by
    intro request key hkey he
    rw [he, requestKey, Store.parseRequest_keysRequest] at hkey
    cases hkey
  obtain ⟨hstore₁, h₁⟩ := hresponds ⟨hwithin.wf, hwithin.first⟩ h₁
  obtain ⟨hstore₁₂, -⟩ := hresponds h₁ h₁₂
  obtain ⟨hstore₂, h₂⟩ := hresponds ⟨hwithin.wf, hwithin.first⟩ h₂
  obtain ⟨hstore₂₁, -⟩ := hresponds h₂ h₂₁
  -- The store answers the second request first as it did before, and then the first one.
  obtain ⟨d, hd₂, hd₁⟩ := hstore₁.commute hne hk₁ hk₂ hstore₁₂
  obtain ⟨rfl, hsame₂⟩ := hd₂.unique hstore₂
  obtain ⟨hcontents, hsame₁⟩ := hd₁.unique hstore₂₁
  exact ⟨hsame₁ (hkeys hk₁), hsame₂ (hkeys hk₂), hcontents⟩

def setRequest : Bytes := encodeRequest [ascii ['s', 'e', 't'], ascii ['a'], ascii ['v']]
def zaddRequest : Bytes := encodeRequest [ascii ['z', 'a', 'd', 'd'], ascii ['b'], ascii ['1'], ascii ['m']]

/-- A string and a set. -/
theorem requests_commute_setZadd :
    ∃ s₁ s₂ s₁₂ s₂₁ a₁ a₂ b₁ b₂, respond 1 (Loop.init 3).server.data setRequest = .ok (s₁, a₁) ∧
      respond 2 s₁ zaddRequest = .ok (s₁₂, a₂) ∧
      respond 2 (Loop.init 3).server.data zaddRequest = .ok (s₂, b₂) ∧
      respond 1 s₂ setRequest = .ok (s₂₁, b₁) ∧ a₁ = b₁ ∧ a₂ = b₂ ∧ s₁₂.contents = s₂₁.contents := by
  obtain ⟨⟨s₁, a₁⟩, h₁⟩ : ∃ r, respond 1 (Loop.init 3).server.data setRequest = .ok r := ⟨_, rfl⟩
  obtain ⟨⟨s₂, b₂⟩, h₂⟩ : ∃ r, respond 2 (Loop.init 3).server.data zaddRequest = .ok r := ⟨_, rfl⟩
  obtain ⟨⟨s₁₂, a₂⟩, h₁₂⟩ : ∃ r, respond 2 s₁ zaddRequest = .ok r := by
    cases h₁
    exact ⟨_, rfl⟩
  obtain ⟨⟨s₂₁, b₁⟩, h₂₁⟩ : ∃ r, respond 1 s₂ setRequest = .ok r := by
    cases h₂
    exact ⟨_, rfl⟩
  have hne : ascii ['a'] ≠ ascii ['b'] := by decide
  exact ⟨s₁, s₂, s₁₂, s₂₁, a₁, a₂, b₁, b₂, h₁, h₁₂, h₂, h₂₁,
    requests_commute .refl hne (by decide) (by decide) h₁ h₁₂ h₂ h₂₁⟩

end MiniRedis
