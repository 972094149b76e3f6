import MiniRedis.Verify.Decoder
import MiniRedis.Verify.Memory
import MiniRedis.Verify.Store

/-! # What clients can tell apart

Two servers hold the same contents exactly if no request is answered differently: the shape of the trees,
the order in the hash tables, the addresses and what was deleted before cannot be seen, and nothing of the
contents is hidden. Only the order in which `keys` lists the keys is not theirs to decide. -/

namespace MiniRedis

namespace Store

variable {c c' : Store} {now : UInt64} {v : Value} {req : Request} {request response : Bytes}

/-! ## Keys are short -/

/-- Every key can be asked for. -/
def KeysFit (c : Store) : Prop := ∀ k x, c k = some x → k.length ≤ kMaxMsg

theorem Answers.cases (h : c.Answers now v c' req) :
    c' = c ∨ ∃ key y, req.Writes now c v key y ∧ c' = Function.update c key y := by
  cases req with
  | zquery key score name offset limit => exact .inl h.1
  | ping | get _ | set _ _ | del _ | keys | zadd _ _ _ | zrem _ _ | zscore _ _ | pttl _ | pexpire _ _ |
    unknown => exact Request.Answers.cases h

/-- A word is shorter than the request. -/
theorem length_le_encodeRequest {words : List Bytes} {word : Bytes} (h : word ∈ words) :
    word.length ≤ (encodeRequest words).length := by
  obtain ⟨before, after, rfl⟩ := List.append_of_mem h
  rw [length_encodeRequest]
  simp only [List.map_append, List.map_cons, List.sum_append, List.sum_cons]
  omega

theorem KeysFit.responds (h : KeysFit c) (hlen : request.length ≤ kMaxMsg)
    (hresp : c.Responds now request response c') : KeysFit c' := by
  rcases hresp with ⟨words, v, -, rfl, hanswers, -⟩ | ⟨-, rfl, -⟩
  · rcases hanswers.cases with rfl | ⟨key, y, hw, rfl⟩
    · exact h
    · refine forall_update_some (fun k x _ hx => h k x hx) fun x hx => ?_
      generalize hreq : Request.ofCmd words = req at hw
      cases hw with
      | set =>
        rw [Request.cmd_of_set hreq] at hlen
        exact Nat.le_trans (length_le_encodeRequest (by simp)) hlen
      | del => cases hx
      | zadd hscore hset =>
        rw [Request.cmd_of_zadd hreq] at hlen
        exact Nat.le_trans (length_le_encodeRequest (by simp)) hlen
      | zrem | pexpire =>
        obtain ⟨x₀, hx₀, -⟩ := Option.map_eq_some_iff.mp hx
        exact h key x₀ hx₀
  · exact h

theorem KeysFit.expire (h : KeysFit c) (now : UInt64) : KeysFit (c.expire now) := by
  intro k x hx
  obtain ⟨hx, -⟩ := Option.filter_eq_some_iff.mp hx
  exact h k x hx

/-- In a history of requests that came in frames. -/
theorem KeysFit.history {log : List Executed} (h : KeysFit c)
    (hlen : ∀ p, ∀ request ∈ (exchanges p log).map Prod.fst, request.length ≤ kMaxMsg)
    (hlog : c.History log c') : KeysFit c' := by
  induction log generalizing c with
  | nil =>
    cases hlog
    exact h
  | cons x log ih =>
    cases x with
    | request now p request response =>
      obtain ⟨c₁, hresp, hlog⟩ := hlog
      have hfirst : request.length ≤ kMaxMsg := by
        refine hlen p request ?_
        rw [exchanges_request, if_pos rfl]
        exact List.mem_cons_self
      refine ih (h.responds hfirst hresp) (fun q r hr => hlen q r ?_) hlog
      rw [exchanges_request]
      split
      · exact List.mem_cons_of_mem _ hr
      · exact hr
    | timers now => exact ih (h.expire now) hlen hlog

/-! ## The store decides -/

/-- The request `keys`. -/
def keysRequest : Bytes := encodeRequest [ascii ['k', 'e', 'y', 's']]

theorem parseRequest_keysRequest : parseRequest keysRequest = some [ascii ['k', 'e', 'y', 's']] :=
  parseRequest_eq_some.mpr ⟨⟨by decide, by decide⟩, rfl⟩

theorem eq_keysRequest {words : List Bytes} (h : Request.ofCmd words = .keys) :
    encodeRequest words = keysRequest := by
  unfold Request.ofCmd at h
  repeat' split at h
  all_goals simp_all [keysRequest]

theorem Responds.unique {r₁ r₂ : Bytes} {c₁ c₂ : Store} (h₁ : c.Responds now request r₁ c₁)
    (h₂ : c.Responds now request r₂ c₂) : c₁ = c₂ ∧ (request ≠ keysRequest → r₁ = r₂) := by
  rcases h₁ with ⟨words, v₁, hwords, rfl, hanswers₁, rfl⟩ | ⟨hnone, rfl, rfl⟩
  · rcases h₂ with ⟨words₂, v₂, hwords₂, hsame, hanswers₂, rfl⟩ | ⟨hnone, -⟩
    · have hparse := parseRequest_eq_some.mpr ⟨hwords, rfl⟩
      obtain rfl := Option.some.inj (hparse.symm.trans (parseRequest_eq_some.mpr ⟨hwords₂, hsame⟩))
      obtain ⟨hstore, hvalue⟩ := hanswers₁.unique hanswers₂
      refine ⟨hstore, fun hne => ?_⟩
      rw [hvalue fun hkeys => hne (eq_keysRequest hkeys)]
    · exact absurd rfl (hnone words hwords)
  · rcases h₂ with ⟨words₂, v₂, hwords₂, hsame, -⟩ | ⟨-, rfl, rfl⟩
    · exact absurd hsame (hnone words₂ hwords₂)
    · exact ⟨rfl, fun _ => rfl⟩

/-- Two responses to `keys` with the same lines, in one order or another. -/
def SameLines (r₁ r₂ : Bytes) : Prop :=
  ∃ lines₁ lines₂ : List Bytes, lines₁.Perm lines₂ ∧ r₁ = capResponse (Value.arr (lines₁.map .str)).encode ∧
    r₂ = capResponse (Value.arr (lines₂.map .str)).encode

/-- `keys` answers with one line for each key. -/
theorem Responds.lines (h : c.Responds now keysRequest response c') :
    ∃ ks : List Bytes, ks.Nodup ∧ (∀ k, k ∈ ks ↔ (c k).isSome) ∧
      response = capResponse (Value.arr ((ks.map (keysLine c)).map .str)).encode := by
  have hparse := parseRequest_keysRequest
  rcases h with ⟨words, v, hwords, hsame, hanswers, rfl⟩ | ⟨hnone, -⟩
  · obtain rfl := Option.some.inj (hparse.symm.trans (parseRequest_eq_some.mpr ⟨hwords, hsame⟩))
    obtain ⟨-, ks, hnodup, hmem, rfl⟩ : Request.Answers now c v c' .keys := hanswers
    exact ⟨ks, hnodup, hmem, by rw [List.map_map]; rfl⟩
  · obtain ⟨hwords, hsame⟩ := parseRequest_eq_some.mp hparse
    exact absurd hsame (hnone _ hwords)

/-- The store decides the lines. -/
theorem Responds.sameLines {r₁ r₂ : Bytes} {c₁ c₂ : Store} (h₁ : c.Responds now keysRequest r₁ c₁)
    (h₂ : c.Responds now keysRequest r₂ c₂) : SameLines r₁ r₂ := by
  obtain ⟨ks₁, hnodup₁, hmem₁, rfl⟩ := h₁.lines
  obtain ⟨ks₂, hnodup₂, hmem₂, rfl⟩ := h₂.lines
  have hperm : ks₁.Perm ks₂ :=
    (List.perm_ext_iff_of_nodup hnodup₁ hnodup₂).mpr fun k => (hmem₁ k).trans (hmem₂ k).symm
  exact ⟨_, _, hperm.map (keysLine c), rfl, rfl⟩

end Store

open Store

theorem Loop.keysFit_run {listenFd : Nat} {l : Loop}
    (hrun : Relation.ReflTransGen Loop.Step (Loop.init listenFd) l) :
    Store.KeysFit l.server.data.contents := by
  obtain ⟨τ, htraced⟩ := Loop.exists_traced hrun
  obtain ⟨log, hlog, hhistory⟩ := htraced.history
  refine Store.KeysFit.history (c := fun _ => none) nofun (fun p request hrequest => ?_) hhistory
  rw [(hlog.traffic p).1] at hrequest
  exact length_le_of_mem_splitFrames kMaxMsg_lt _ hrequest

/-! ## What a request shows -/

theorem Double.ext_bits {x y : Double} (h : x.bits = y.bits) : x = y := by
  cases x
  cases y
  cases h
  rfl

namespace ServerData

variable {s s' s₁ s₂ : ServerData} {now : UInt64} {words : List Bytes} {k : Bytes} {x : Content}

/-- A string has no members. -/
theorem Tidy.scores_of_string (h : s.Tidy) (hx : s.contents k = some x) (hstr : x.isZset = false) (name : Bytes) :
    x.scores name = none := by
  obtain ⟨p, hp, -, rfl⟩ := (valueOf_eq_some h.wf.keys).mp hx
  have htype : (s.entries p).type ≠ .zset := of_decide_eq_false hstr
  obtain ⟨t, ht⟩ := (h.owns p).wf
  have hnone := (h.owns p).plain htype
  refine ht.scoreOf_eq_none.mpr fun q hq => ?_
  have hlt := ht.allocated q hq
  rw [hnone] at hlt
  exact absurd hlt (Nat.not_lt_zero q)

/-- The response to a request for which there is room is that of the store. -/
theorem Within.answered (h : s.Within) (hwords : Encodable words)
    (hroom : ¬ (Request.ofCmd words).LacksRoom s) (now : UInt64) :
    ∃ s' v, respond now s (encodeRequest words) = .ok (s', capResponse v.encode) ∧
      Store.Answers now s.contents v s'.contents (Request.ofCmd words) := by
  have hparse := parseRequest_eq_some.mpr ⟨hwords, rfl⟩
  have houtcome := h.respond_outcome now (encodeRequest words)
  cases hrun : respond now s (encodeRequest words) with
  | error fault =>
    rw [hrun] at houtcome
    obtain ⟨⟨cmd, hcmd, hlacks⟩, -⟩ := houtcome
    obtain rfl := Option.some.inj (hparse.symm.trans hcmd)
    exact absurd hlacks hroom
  | ok r =>
    rcases h.first.responds h.wf hrun with ⟨words', v, hwords', hsame, hanswers, hresponse⟩ | ⟨hnone, -⟩
    · have hparse' := parseRequest_eq_some.mpr ⟨hwords', hsame⟩
      obtain rfl := Option.some.inj (hparse.symm.trans hparse')
      exact ⟨r.1, v, congrArg Except.ok (Prod.ext rfl hresponse), hanswers⟩
    · exact absurd rfl (hnone words hwords)

/-- No request tells the two servers apart. The order in which `keys` lists the keys does not count. -/
def Alike (s₁ s₂ : ServerData) : Prop :=
  ∀ now request s₁' s₂' r₁ r₂, respond now s₁ request = .ok (s₁', r₁) →
    respond now s₂ request = .ok (s₂', r₂) → if request = keysRequest then SameLines r₁ r₂ else r₁ = r₂

/-- If both have an answer that is not too big, it is the same. -/
theorem Alike.answers (halike : Alike s₁ s₂) (h₁ : s₁.Within) (h₂ : s₂.Within) (hwords : Encodable words)
    (hkeys : Request.ofCmd words ≠ .keys) (hroom : ∀ s, ¬ (Request.ofCmd words).LacksRoom s) (now : UInt64) :
    ∃ v₁ v₂ c₁ c₂, Store.Answers now s₁.contents v₁ c₁ (Request.ofCmd words) ∧
      Store.Answers now s₂.contents v₂ c₂ (Request.ofCmd words) ∧
      (v₁.encode.length ≤ kMaxMsg → v₂.encode.length ≤ kMaxMsg → v₁ = v₂) := by
  obtain ⟨s₁', v₁, hrun₁, hanswers₁⟩ := h₁.answered hwords (hroom s₁) now
  obtain ⟨s₂', v₂, hrun₂, hanswers₂⟩ := h₂.answered hwords (hroom s₂) now
  have hne : encodeRequest words ≠ keysRequest := by
    intro he
    have hparse := parseRequest_eq_some.mpr ⟨hwords, rfl⟩
    rw [he, parseRequest_keysRequest] at hparse
    cases hparse
    exact hkeys rfl
  refine ⟨v₁, v₂, s₁'.contents, s₂'.contents, hanswers₁, hanswers₂, fun hlen₁ hlen₂ => ?_⟩
  have hsame := halike now _ s₁' s₂' _ _ hrun₁ hrun₂
  rw [if_neg hne, capResponse, capResponse, if_neg (Nat.not_lt.mpr hlen₁), if_neg (Nat.not_lt.mpr hlen₂)] at hsame
  exact Value.encode_inj hlen₁ hsame

theorem encodable_of_short (hcount : words.length ≤ kMaxArgs) (hshort : ∀ word ∈ words, word.length ≤ kMaxMsg) :
    Encodable words :=
  ⟨hcount, fun word hword => Nat.lt_of_le_of_lt (hshort word hword) kMaxMsg_lt⟩

/-- `get` shows whether there is a key, and its value. -/
theorem Alike.get (halike : Alike s₁ s₂) (h₁ : s₁.Within) (h₂ : s₂.Within) (hk : k.length ≤ kMaxMsg) :
    (s₁.contents k).map Content.value = (s₂.contents k).map Content.value := by
  have hwords : Encodable [ascii ['g', 'e', 't'], k] :=
    encodable_of_short (show 2 ≤ kMaxArgs by decide) (by simpa using ⟨by decide, hk⟩)
  obtain ⟨v₁, v₂, c₁, c₂, ⟨rfl, -⟩, ⟨rfl, -⟩, hsame⟩ :=
    halike.answers h₁ h₂ hwords nofun (fun _ => id) 0
  have hlen : ∀ s : ServerData, s.Within →
      ((s.contents k).elim Value.nil fun x => .str x.value).encode.length ≤ kMaxMsg := by
    intro s h
    cases hx : s.contents k with
    | none => exact show 1 ≤ kMaxMsg by decide
    | some x =>
      have hvalue := (h.fit k x hx).value
      rw [Option.elim_some, encode_str, List.length_cons, List.length_append, length_leEncode]
      omega
  have hv := hsame (hlen s₁ h₁) (hlen s₂ h₂)
  revert hv
  cases s₁.contents k with
  | none =>
    cases s₂.contents k with
    | none => exact fun _ => rfl
    | some y => exact nofun
  | some x =>
    cases s₂.contents k with
    | none => exact nofun
    | some y =>
      intro hv
      exact congrArg some (Value.str.inj hv)

/-- `pttl` shows the deadline, at one time or another. -/
theorem expiry_eq_of_pttl {x y : Content} (h : ∀ now, pttlAnswer now (some x) = pttlAnswer now (some y)) :
    x.expiry = y.expiry := by
  -- At the earlier of the two deadlines no time is left for the one, and some for the other.
  have hle : ∀ {x y : Content} {d e : UInt64}, x.expiry = some d → y.expiry = some e →
      pttlAnswer d (some x) = pttlAnswer d (some y) → e ≤ d := by
    intro x y d e hd he hsame
    simp only [pttlAnswer, Option.elim_some, hd, he, gt_iff_lt] at hsame
    rw [if_neg (UInt64.lt_irrefl d)] at hsame
    by_contra hlt
    have hlt : d < e := UInt64.not_le.mp hlt
    rw [if_pos hlt] at hsame
    have hzero : e - d = 0 := (congrArg Int64.toUInt64 hsame).symm
    grind
  cases hd : x.expiry with
  | none =>
    cases he : y.expiry with
    | none => rfl
    | some e =>
      have hsame := h e
      simp [pttlAnswer, hd, he] at hsame
  | some d =>
    cases he : y.expiry with
    | none =>
      have hsame := h d
      simp [pttlAnswer, hd, he] at hsame
    | some e => rw [UInt64.le_antisymm (hle he hd (h e).symm) (hle hd he (h d))]

theorem Alike.pttl (halike : Alike s₁ s₂) (h₁ : s₁.Within) (h₂ : s₂.Within) (hk : k.length ≤ kMaxMsg)
    (now : UInt64) : pttlAnswer now (s₁.contents k) = pttlAnswer now (s₂.contents k) := by
  have hwords : Encodable [ascii ['p', 't', 't', 'l'], k] :=
    encodable_of_short (show 2 ≤ kMaxArgs by decide) (by simpa using ⟨by decide, hk⟩)
  obtain ⟨v₁, v₂, c₁, c₂, ⟨rfl, -⟩, ⟨rfl, -⟩, hsame⟩ :=
    halike.answers h₁ h₂ hwords nofun (fun _ => id) now
  have hlen : ∀ n : Int64, (Value.int n).encode.length ≤ kMaxMsg := by
    intro n
    rw [encode_int, List.length_cons, length_leEncode]
    decide
  exact Value.int.inj (hsame (hlen _) (hlen _))

/-- The answer of `zscore`. -/
def scoreAnswer (x : Option Content) (name : Bytes) : Value :=
  match zsetFor x with
  | none => .badTyp
  | some x => (x.scores name).elim .nil (.dbl ·.bits)

/-- `zscore` shows whether there is a set, and its members. -/
theorem Alike.zscore {name : Bytes} (halike : Alike s₁ s₂) (h₁ : s₁.Within) (h₂ : s₂.Within)
    (hk : k.length ≤ kMaxMsg) (hname : name.length ≤ kMaxMsg) :
    scoreAnswer (s₁.contents k) name = scoreAnswer (s₂.contents k) name := by
  have hwords : Encodable [ascii ['z', 's', 'c', 'o', 'r', 'e'], k, name] :=
    encodable_of_short (show 3 ≤ kMaxArgs by decide) (by simpa using ⟨by decide, hk, hname⟩)
  obtain ⟨v₁, v₂, c₁, c₂, hanswers₁, hanswers₂, hsame⟩ :=
    halike.answers h₁ h₂ hwords nofun (fun _ => id) 0
  have hanswer : ∀ {c c' : Store} {v : Value},
      c.Answers 0 v c' (Request.ofCmd [ascii ['z', 's', 'c', 'o', 'r', 'e'], k, name]) →
        v = scoreAnswer (c k) name ∧ v.encode.length ≤ kMaxMsg := by
    intro c c' v hanswers
    change Request.Answers 0 c v c' (.zscore k name) at hanswers
    simp only [Request.Answers] at hanswers
    unfold scoreAnswer
    revert hanswers
    cases zsetFor (c k) with
    | none =>
      rintro ⟨rfl, -⟩
      exact ⟨rfl, by decide⟩
    | some x =>
      rintro ⟨rfl, -⟩
      refine ⟨rfl, ?_⟩
      cases x.scores name with
      | none => exact show 1 ≤ kMaxMsg by decide
      | some score =>
        rw [Option.elim_some, encode_dbl, List.length_cons, length_leEncode]
        decide
  obtain ⟨rfl, hlen₁⟩ := hanswer hanswers₁
  obtain ⟨rfl, hlen₂⟩ := hanswer hanswers₂
  exact hsame hlen₁ hlen₂

/-- What `zscore` answers for all names decides the members of a set. -/
theorem scores_eq_of_answers {x y : Content} (hx : x.Fits) (hy : y.Fits)
    (hstr : x.isZset = false → ∀ name, x.scores name = none) (hstr' : y.isZset = false → ∀ name, y.scores name = none)
    (h : ∀ name : Bytes, name.length ≤ kMaxMsg → scoreAnswer (some x) name = scoreAnswer (some y) name) :
    x.isZset = y.isZset ∧ x.scores = y.scores := by
  have hset : ∀ {x y : Content}, x.isZset = true → y.isZset = false → ∀ name,
      scoreAnswer (some x) name ≠ scoreAnswer (some y) name := by
    intro x y hx hy name
    simp only [scoreAnswer, zsetFor, hx, hy, if_true]
    intro hsame
    cases hscore : x.scores name with
    | none =>
      rw [hscore] at hsame
      cases hsame
    | some score =>
      rw [hscore] at hsame
      cases hsame
  have hempty : ([] : Bytes).length ≤ kMaxMsg := Nat.zero_le _
  cases hzx : x.isZset with
  | false =>
    cases hzy : y.isZset with
    | false =>
      refine ⟨rfl, funext fun name => ?_⟩
      rw [hstr hzx, hstr' hzy]
    | true => exact absurd (h [] hempty).symm (hset hzy hzx [])
  | true =>
    cases hzy : y.isZset with
    | false => exact absurd (h [] hempty) (hset hzx hzy [])
    | true =>
      refine ⟨rfl, funext fun name => ?_⟩
      by_cases hname : name.length ≤ kMaxMsg
      · have hsame := h name hname
        simp only [scoreAnswer, zsetFor, hzx, hzy, if_true] at hsame
        revert hsame
        cases x.scores name with
        | none =>
          cases y.scores name with
          | none => exact fun _ => rfl
          | some score =>
            intro hsame
            cases hsame
        | some score =>
          cases y.scores name with
          | none =>
            intro hsame
            cases hsame
          | some score' =>
            intro hsame
            exact congrArg some (Double.ext_bits (Value.dbl.inj hsame))
      · -- No set has a member with a name as long as this.
        have hlong : ∀ {x : Content}, x.Fits → x.scores name = none := by
          intro x hx
          by_contra hsome
          exact hname (Nat.le_of_add_right_le (hx.names name hsome))
        rw [hlong hx, hlong hy]

end ServerData

/-- **Full abstraction.** Two states that the loop reaches, in runs of any kind, hold the same contents exactly
if no request tells them apart: every request has the same response, and `keys` lists the same lines, in one
order or another. A request that both answer leaves them with the same contents again, and so
does `process_timers` at the same time. -/
theorem alike_iff_contents {listenFd₁ listenFd₂ : Nat} {l₁ l₂ : Loop}
    (hrun₁ : Relation.ReflTransGen Loop.Step (Loop.init listenFd₁) l₁)
    (hrun₂ : Relation.ReflTransGen Loop.Step (Loop.init listenFd₂) l₂) :
    (ServerData.Alike l₁.server.data l₂.server.data ↔ l₁.server.data.contents = l₂.server.data.contents) ∧
      (l₁.server.data.contents = l₂.server.data.contents →
        (∀ now request s₁ s₂ r₁ r₂, respond now l₁.server.data request = .ok (s₁, r₁) →
          respond now l₂.server.data request = .ok (s₂, r₂) → s₁.contents = s₂.contents) ∧
        ∀ now s₁ s₂, expireKeys now l₁.server.data = .ok s₁ → expireKeys now l₂.server.data = .ok s₂ →
          s₁.contents = s₂.contents) := by
  have h₁ := Loop.within_run hrun₁
  have h₂ := Loop.within_run hrun₂
  refine ⟨⟨fun halike => funext fun k => ?_, ?_⟩, fun hsame => ⟨?_, ?_⟩⟩
  · have hlong : ∀ {l : Loop} {listenFd : Nat}, Relation.ReflTransGen Loop.Step (Loop.init listenFd) l →
        ¬ k.length ≤ kMaxMsg → l.server.data.contents k = none := by
      intro l listenFd hrun hk
      by_contra hsome
      obtain ⟨x, hx⟩ := Option.ne_none_iff_exists'.mp hsome
      exact hk (Loop.keysFit_run hrun k x hx)
    by_cases hk : k.length ≤ kMaxMsg
    · have hvalue := halike.get h₁ h₂ hk
      have hpttl := halike.pttl h₁ h₂ hk
      have hscore : ∀ name : Bytes, name.length ≤ kMaxMsg → _ := fun name => halike.zscore h₁ h₂ hk
      cases hx : l₁.server.data.contents k with
      | none =>
        rw [hx, Option.map_none] at hvalue
        exact (Option.map_eq_none_iff.mp hvalue.symm).symm
      | some x =>
        rw [hx, Option.map_some] at hvalue
        obtain ⟨y, hy, hsame⟩ := Option.map_eq_some_iff.mp hvalue.symm
        rw [hy]
        rw [hx, hy] at hpttl hscore
        obtain ⟨hset, hscores⟩ := ServerData.scores_eq_of_answers (h₁.fit k x hx) (h₂.fit k y hy)
          ((Loop.tidy_run hrun₁).scores_of_string hx) ((Loop.tidy_run hrun₂).scores_of_string hy) hscore
        exact congrArg some (Content.ext hset hsame.symm hscores (ServerData.expiry_eq_of_pttl hpttl))
    · rw [hlong hrun₁ hk, hlong hrun₂ hk]
  · intro hsame now request s₁ s₂ r₁ r₂ hresp₁ hresp₂
    have hstore₁ := h₁.first.responds h₁.wf hresp₁
    rw [hsame] at hstore₁
    have hstore₂ := h₂.first.responds h₂.wf hresp₂
    split
    case isTrue hkeys =>
      subst hkeys
      exact hstore₁.sameLines hstore₂
    case isFalse hne => exact (hstore₁.unique hstore₂).2 hne
  · intro now request s₁ s₂ r₁ r₂ hresp₁ hresp₂
    have hstore₁ := h₁.first.responds h₁.wf hresp₁
    rw [hsame] at hstore₁
    exact (hstore₁.unique (h₂.first.responds h₂.wf hresp₂)).1
  · intro now s₁ s₂ hexpire₁ hexpire₂
    obtain ⟨ps₁, hcons₁⟩ := Loop.consistent_run hrun₁
    obtain ⟨ps₂, hcons₂⟩ := Loop.consistent_run hrun₂
    rw [(h₁.first.expires h₁.wf hcons₁.server.ordered hexpire₁).2.2, hsame,
      (h₂.first.expires h₂.wf hcons₂.server.ordered hexpire₂).2.2]

/-- A key that was set and deleted leaves nothing that a client can see. -/
theorem alike_iff_contents_setDel : ∃ l : Loop, Relation.ReflTransGen Loop.Step (Loop.init 3) l ∧
    l.server.data.freed = [0] ∧ ServerData.Alike (Loop.init 3).server.data l.server.data := by
  obtain ⟨s, h, hs⟩ := traced_accepted
  obtain ⟨s₁, hevent, hfreed, hrefs⟩ : ∃ s₁, handleEvent setDel 4 s = .ok s₁ ∧ s₁.data.freed = [0] ∧
      s₁.data.refs = [] := by
    cases hs
    exact ⟨_, rfl, rfl, rfl⟩
  have hrun := h.reaches.tail (.event (show (5 : UInt64) ≤ 10 by decide) hevent)
  refine ⟨_, hrun, hfreed, (alike_iff_contents .refl hrun).1.mpr ?_⟩
  have hnone : s₁.data.contents = fun _ => none := by
    rw [ServerData.contents, hrefs, valueOf_nil]
  exact hnone.symm

end MiniRedis
