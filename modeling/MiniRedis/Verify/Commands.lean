import MiniRedis.Verify.Query
import MiniRedis.Verify.Server

/-! # What the requests do

`Request.Answers` gives the meaning of every request on the contents of the keys: its answer and the
contents afterwards. The handlers have this meaning from every well-formed state, unless an
assertion or an allocation fails. -/

namespace MiniRedis

/-- A new string. -/
def Content.ofString (value : Bytes) : Content where
  isZset := false
  value := value
  scores := fun _ => none
  expiry := none

/-- A new sorted set. -/
def Content.emptySet : Content where
  isZset := true
  value := []
  scores := fun _ => none
  expiry := none

/-- The set that a command on sorted sets works on; none if the key has another type. -/
def zsetFor : Option Content → Option Content
  | none => some .emptySet
  | some x => if x.isZset then some x else none

def Value.badArg (text : List Char) : Value := .err errBadArg (ascii text)

def Value.badTyp : Value := .err errBadTyp expectZsetText

/-- The line of `keys` for one key. -/
def keysLine (c : Bytes → Option Content) (k : Bytes) : Bytes :=
  k ++ ascii [' ', ':', ' '] ++ ((c k).map Content.value).getD []

/-- The remaining time of a key. -/
def pttlAnswer (now : UInt64) (x : Option Content) : Int64 :=
  x.elim (-2) fun x => x.expiry.elim (-1) fun expiresAt =>
    if expiresAt > now then (expiresAt - now).toInt64 else 0

/-- The answer `v` to a request on the contents `c`, and the contents `c'` afterwards. -/
def Request.Answers (now : UInt64) (c : Bytes → Option Content) (v : Value)
    (c' : Bytes → Option Content) : Request → Prop
  | .ping => v = .str (ascii ['p', 'o', 'n', 'g']) ∧ c' = c
  | .get key => v = ((c key).elim .nil fun x => .str x.value) ∧ c' = c
  | .set key value => v = .nil ∧
      c' = Function.update c key (some ((c key).elim (.ofString value) fun x => { x with value }))
  | .del key => v = .int (if (c key).isSome then 1 else 0) ∧ c' = Function.update c key none
  | .keys => c' = c ∧ ∃ ks : List Bytes, ks.Nodup ∧ (∀ k, k ∈ ks ↔ (c k).isSome) ∧
      v = .arr (ks.map fun k => .str (keysLine c k))
  | .zadd key score name =>
    match str2dbl score, zsetFor (c key) with
    | none, _ => v = .badArg ['e', 'x', 'p', 'e', 'c', 't', ' ', 'f', 'l', 'o', 'a', 't'] ∧ c' = c
    | some _, none => v = .badTyp ∧ c' = c
    | some score, some x => v = .int (if (x.scores name).isNone then 1 else 0) ∧
        c' = Function.update c key (some { x with
          scores := Function.update x.scores name (some (overwritten (x.scores name) score)) })
  | .zrem key name =>
    match zsetFor (c key) with
    | none => v = .badTyp ∧ c' = c
    | some x => v = .int (if (x.scores name).isSome then 1 else 0) ∧
        c' = Function.update c key ((c key).map fun x =>
          { x with scores := Function.update x.scores name none })
  | .zscore key name =>
    match zsetFor (c key) with
    | none => v = .badTyp ∧ c' = c
    | some x => v = ((x.scores name).elim .nil (.dbl ·.bits)) ∧ c' = c
  | .zquery key score name offset limit =>
    c' = c ∧
    match str2dbl score, str2int offset, str2int limit, zsetFor (c key) with
    | none, _, _, _ => v = .badArg
        ['e', 'x', 'p', 'e', 'c', 't', ' ', 'f', 'p', ' ', 'n', 'u', 'm', 'b', 'e', 'r']
    | some _, some _, some _, none => v = .badTyp
    | some score, some offset, some limit, some x => ∃ (z : ZSet Double) (t : BinaryTree ZPtr),
        z.WF t ∧ z.scoreOf = x.scores ∧ v = .arr (z.pairs (z.queried t score name offset limit))
    | some _, _, _, _ => v = .badArg ['e', 'x', 'p', 'e', 'c', 't', ' ', 'i', 'n', 't']
  | .pttl key => v = .int (pttlAnswer now (c key)) ∧ c' = c
  | .pexpire key ttl =>
    match str2int ttl with
    | none => v = .badArg ['e', 'x', 'p', 'e', 'c', 't', ' ', 'i', 'n', 't'] ∧ c' = c
    | some ttlMs => v = .int (if (c key).isSome then 1 else 0) ∧
        c' = Function.update c key ((c key).map fun x =>
          { x with expiry := if ttlMs < 0 then none else some (now + .ofNat ttlMs.toNat) })
  | .unknown => c' = c ∧ v = .err errUnknown (ascii
      ['u', 'n', 'k', 'n', 'o', 'w', 'n', ' ', 'c', 'o', 'm', 'm', 'a', 'n', 'd'])

/-- What a request writes: the answer, the key and what the key holds afterwards. -/
inductive Request.Writes (now : UInt64) (c : Bytes → Option Content) :
    Request → Value → (key : Bytes) → Option Content → Prop where
  | set : Writes now c (.set key value) .nil key
      (some ((c key).elim (.ofString value) fun x => { x with value }))
  | del : Writes now c (.del key) (.int (if (c key).isSome then 1 else 0)) key none
  | zadd (hscore : str2dbl scoreText = some score) (hset : zsetFor (c key) = some x) :
      Writes now c (.zadd key scoreText name) (.int (if (x.scores name).isNone then 1 else 0)) key
        (some { x with
          scores := Function.update x.scores name (some (overwritten (x.scores name) score)) })
  | zrem (hset : zsetFor (c key) = some x) :
      Writes now c (.zrem key name) (.int (if (x.scores name).isSome then 1 else 0)) key
        ((c key).map fun x => { x with scores := Function.update x.scores name none })
  | pexpire (httl : str2int ttl = some ttlMs) :
      Writes now c (.pexpire key ttl) (.int (if (c key).isSome then 1 else 0)) key
        ((c key).map fun x =>
          { x with expiry := if ttlMs < 0 then none else some (now + .ofNat ttlMs.toNat) })

/-- A request changes nothing, or what one key holds. -/
theorem Request.Answers.cases {req : Request} {now : UInt64} {c c' : Bytes → Option Content}
    {v : Value} (h : req.Answers now c v c') :
    c' = c ∨ ∃ key y, req.Writes now c v key y ∧ c' = Function.update c key y := by
  cases req with
  | ping | get _ | pttl _ => exact .inl h.2
  | keys | unknown | zquery _ _ _ _ _ => exact .inl h.1
  | set key value =>
    obtain ⟨rfl, rfl⟩ := h
    exact .inr ⟨key, _, .set, rfl⟩
  | del key =>
    obtain ⟨rfl, rfl⟩ := h
    exact .inr ⟨key, _, .del, rfl⟩
  | zscore key name =>
    simp only [Request.Answers] at h
    split at h <;> exact .inl h.2
  | zadd key scoreText name =>
    simp only [Request.Answers] at h
    split at h
    · exact .inl h.2
    · exact .inl h.2
    · next hscore hset =>
      obtain ⟨rfl, rfl⟩ := h
      exact .inr ⟨key, _, .zadd hscore hset, rfl⟩
  | zrem key name =>
    simp only [Request.Answers] at h
    split at h
    · exact .inl h.2
    · next hset =>
      obtain ⟨rfl, rfl⟩ := h
      exact .inr ⟨key, _, .zrem hset, rfl⟩
  | pexpire key ttl =>
    simp only [Request.Answers] at h
    split at h
    · exact .inl h.2
    · next httl =>
      obtain ⟨rfl, rfl⟩ := h
      exact .inr ⟨key, _, .pexpire httl, rfl⟩

/-- The set that a command works on is the one of the key or a new one. -/
theorem zsetFor_eq_some {x : Option Content} {y : Content} (h : zsetFor x = some y) :
    x = some y ∧ y.isZset = true ∨ x = none ∧ y = .emptySet := by
  cases x with
  | none => exact .inr ⟨rfl, (Option.some.inj h).symm⟩
  | some x =>
    simp only [zsetFor] at h
    split at h
    · next hset =>
      cases h
      exact .inl ⟨rfl, hset⟩
    · cases h

/-- The outcome of a handler: a well-formed state and the answer of the request, or an abort. -/
def Request.Handled (req : Request) (now : UInt64) (s : ServerData) (resp : Bytes) :
    Result (ServerData × Bytes) → Prop
  | .ok (s', resp') => s'.WF ∧ s.Later s' ∧ ∃ v : Value, resp' = v.write resp ∧
      req.Answers now s.contents v s'.contents
  | .error e => e.IsAbort

/-- The requests whose answer depends on positions in a sorted set. -/
def Request.IsQuery : Request → Prop
  | .zquery .. => True
  | _ => False

/-- Fewer than `2 ^ 31` keys, and fewer than `2 ^ 31` members in each set. -/
structure ServerData.Small (s : ServerData) : Prop where
  keys : hmSize s.db < 2 ^ 31
  members : ∀ p ∈ s.refs, hmSize (s.entries p).zset.hmap < 2 ^ 31

namespace ServerData.WF

variable {s : ServerData} {key : Bytes} {now : UInt64} {resp : Bytes}

/-- `get` answers with the value of the entry, whatever its type and its deadline. -/
theorem getKey_eq (h : s.WF) (key resp : Bytes) :
    ∃ s₁, s₁.WF ∧ s.Later s₁ ∧ s₁.contents = s.contents ∧
      MiniRedis.getKey s key resp =
        match s.contents key with
        | none => .ok (s₁, outNil resp)
        | some x => if x.value.length ≤ kMaxMsg then .ok (s₁, outStr resp x.value)
          else .error (.assertion .getKeyValSize) := by
  rcases h.lookup key with ⟨p, s₁, hrun, h₁, hlater, hsame, -, -, hkey⟩ |
    ⟨s₁, hrun, h₁, hlater, hsame, hkey⟩
  · refine ⟨s₁, h₁, hlater, hsame, ?_⟩
    simp only [MiniRedis.getKey, hrun, ok_bind, hkey, content, assert]
    by_cases hlen : (s₁.entries p).value.length ≤ kMaxMsg
    · simp [hlen]
    · simp [hlen]
  · exact ⟨s₁, h₁, hlater, hsame, by simp [MiniRedis.getKey, hrun, hkey]⟩

theorem getKey (h : s.WF) (key : Bytes) :
    (Request.get key).Handled now s resp (getKey s key resp) := by
  obtain ⟨s₁, h₁, hlater, hsame, hrun⟩ := h.getKey_eq key resp
  rw [hrun]
  cases hkey : s.contents key with
  | none => exact ⟨h₁, hlater, .nil, rfl, by rw [hkey]; rfl, hsame⟩
  | some x =>
    simp only
    split
    · exact ⟨h₁, hlater, .str x.value, rfl, by rw [hkey]; rfl, hsame⟩
    · trivial

theorem setKey (h : s.WF) (key value : Bytes) :
    (Request.set key value).Handled now s resp (setKey s key value resp) := by
  rcases h.lookup key with ⟨p, s₁, hrun, h₁, hlater, hsame, hp, rfl, hkey⟩ |
    ⟨s₁, hrun, h₁, hlater, hsame, hkey⟩
  · simp only [MiniRedis.setKey, hrun, ok_bind, pure_eq_ok]
    obtain ⟨hwf, hcontents⟩ := h₁.setEntry (e := { s₁.entries p with value }) hp rfl rfl
      (h₁.zsets p hp)
    refine ⟨hwf, hlater.trans (.of_eq rfl rfl rfl), .nil, rfl, rfl, ?_⟩
    rw [hcontents, hsame, hkey]
    rfl
  · rw [← hsame] at hkey
    simp only [MiniRedis.setKey, hrun, ok_bind]
    rcases h₁.addEntry hkey .init value with
      ⟨s₂, hnew, ⟨s', hins, hs', hlater', -, -, hc, hcontents⟩ | hins⟩ | hnew
    · simp only [hnew, hins, ok_bind, pure_eq_ok]
      refine ⟨hs', hlater.trans hlater', .nil, rfl, rfl, ?_⟩
      rw [hcontents, ← hsame, hkey, hc]
      rfl
    · simp only [hnew, hins, ok_bind, error_bind]
      trivial
    · simp only [hnew, error_bind]
      trivial

theorem delKey (h : s.WF) (key : Bytes) :
    (Request.del key).Handled now s resp (delKey now s key resp) := by
  obtain ⟨found, db, hrun, hdb, hfound, hsome, hnone⟩ := h.db.hmDelete (h.searches key)
  simp only [MiniRedis.delKey, hrun, ok_bind]
  cases found with
  | none =>
    have hkey : s.contents key = none := contents_eq_none.mpr fun p hp hkey => by
      obtain ⟨n, hn, rfl⟩ := mem_refs.mp hp
      cases (hfound n).mpr ⟨hn, hkey⟩
    refine ⟨h.of_db hdb (hnone rfl), .of_eq rfl rfl rfl, .int 0, rfl, by rw [hkey]; rfl, ?_⟩
    rw [h.contents_of_db (hnone rfl), ← hkey, Function.update_eq_self]
  | some n =>
    obtain ⟨hmem, hkey⟩ : n ∈ s.db.nodes ∧ (s.entries n.ref).key = key := (hfound n).mp rfl
    obtain ⟨s', hdel, hs', hlater, hcontents⟩ := h.removeEntry (hsome n rfl) hdb now
    have hpresent : s.contents key = some (s.content n.ref) :=
      hkey ▸ h.contents_of_mem (mem_refs.mpr ⟨n, hmem, rfl⟩)
    simp only [hdel, ok_bind, pure_eq_ok]
    refine ⟨hs', hlater, .int 1, rfl, by rw [hpresent]; rfl, ?_⟩
    rw [hcontents, hkey]

theorem setTtlMs (h : s.WF) (key ttl : Bytes) :
    (Request.pexpire key ttl).Handled now s resp (setTtlMs now s key ttl resp) := by
  unfold MiniRedis.setTtlMs
  simp only [Request.Handled, Request.Answers]
  cases str2int ttl with
  | none => exact ⟨h, .refl s, _, rfl, rfl, rfl⟩
  | some ttlMs =>
    rcases h.lookup key with ⟨p, s₁, hrun, h₁, hlater, hsame, hp, rfl, hkey⟩ |
      ⟨s₁, hrun, h₁, hlater, hsame, hkey⟩
    · simp only [hrun, ok_bind, hkey, Option.map_some]
      by_cases hneg : ttlMs < 0
      · obtain ⟨heap, hclear, hserves, hdeadline⟩ := clearTtl h₁.heap hp now _ hneg
        simp only [hclear, ok_bind, pure_eq_ok]
        refine ⟨h₁.setHeap hserves, hlater.trans (.of_eq rfl rfl rfl), .int 1, rfl, rfl, ?_⟩
        rw [h₁.contents_setHeap hp hdeadline, hsame, if_pos hneg]
      · obtain ⟨s', hset, hs', hlater', hcontents⟩ := h₁.setTtl hp now (Int.not_lt.mp hneg)
        simp only [hset, ok_bind, pure_eq_ok]
        refine ⟨hs', hlater.trans hlater', .int 1, rfl, rfl, ?_⟩
        rw [hcontents, hsame, if_neg hneg]
    · simp only [hrun, ok_bind, hkey, Option.map_none, pure_eq_ok]
      refine ⟨h₁, hlater, .int 0, rfl, rfl, ?_⟩
      rw [hsame, ← hkey, Function.update_eq_self]

/-- `get_ttl_ms` always returns: it reads the deadline of the entry, if there is one. -/
theorem getTtlMs_eq (h : s.WF) (now : UInt64) (key resp : Bytes) :
    ∃ s₁, MiniRedis.getTtlMs now s key resp =
        .ok (s₁, outInt resp (pttlAnswer now (s.contents key))) ∧
      s₁.WF ∧ s.Later s₁ ∧ s₁.contents = s.contents := by
  rcases h.lookup key with ⟨p, s₁, hrun, h₁, hlater, hsame, hp, rfl, hkey⟩ |
    ⟨s₁, hrun, h₁, hlater, hsame, hkey⟩
  · simp only [MiniRedis.getTtlMs, hrun, ok_bind]
    by_cases hidx : s₁.heap.idx p = sizeMax
    · have hnone : s₁.heap.deadline p = none :=
        Heap.Serves.deadline_eq_none.mpr ((h₁.heap.idx_eq_sizeMax hp).mp hidx)
      simp only [hidx, if_true, pure_eq_ok]
      exact ⟨s₁, by simp [pttlAnswer, hkey, content, hnone], h₁, hlater, hsame⟩
    · have hmem : p ∈ s₁.heap.items.map (·.ref) := by
        by_contra hnot
        exact hidx ((h₁.heap.idx_eq_sizeMax hp).mpr hnot)
      obtain ⟨item, hitem, rfl, -⟩ := h₁.heap.item_of_mem hmem
      have hdeadline := h₁.heap.deadline_of_item hitem
      simp only [hidx, if_false, index_eq_ok.mpr hitem, ok_bind, pure_eq_ok]
      exact ⟨s₁, by simp [pttlAnswer, hkey, content, hdeadline], h₁, hlater, hsame⟩
  · simp only [MiniRedis.getTtlMs, hrun, ok_bind, pure_eq_ok]
    exact ⟨s₁, by rw [hkey]; rfl, h₁, hlater, hsame⟩

theorem getTtlMs (h : s.WF) (key : Bytes) :
    (Request.pttl key).Handled now s resp (getTtlMs now s key resp) := by
  obtain ⟨s₁, hrun, h₁, hlater, hsame⟩ := h.getTtlMs_eq now key resp
  rw [hrun]
  exact ⟨h₁, hlater, .int _, rfl, rfl, hsame⟩

theorem allKeys (h : s.WF) : Request.keys.Handled now s resp (allKeys s resp) := by
  have hrun := h.db.toTablesWF.hmForeach_of_true (f := cbKeys s) (fun _ _ => rfl)
    (outArr resp (.ofNat (hmSize s.db)))
  simp only [MiniRedis.allKeys, hrun, ok_bind, pure_eq_ok]
  set ks := s.refs.map fun p => (s.entries p).key with hks
  refine ⟨h, .refl s, .arr (ks.map fun k => .str (keysLine s.contents k)), ?_, rfl, ks, h.keys,
    fun k => ?_, rfl⟩
  · have hline : ∀ n ∈ s.db.nodes, keysLine s.contents (s.entries n.ref).key =
        (s.entries n.ref).key ++ ascii [' ', ':', ' '] ++ (s.entries n.ref).value := fun n hn => by
      rw [keysLine, h.contents_of_mem (mem_refs.mpr ⟨n, hn, rfl⟩)]
      rfl
    have hvalues : ks.map (fun k => Value.str (keysLine s.contents k)) = s.db.nodes.map fun n =>
        .str ((s.entries n.ref).key ++ ascii [' ', ':', ' '] ++ (s.entries n.ref).value) := by
      rw [hks, refs, List.map_map, List.map_map]
      exact List.map_congr_left fun n hn => congrArg Value.str (hline n hn)
    rw [Value.write, hvalues, writeAll_map_foldl, List.length_map, h.db.toTablesWF.hmSize]
    rfl
  · rw [Option.isSome_iff_ne_none, ne_eq, contents_eq_none]
    simp [hks]

/-! ## Sorted sets -/

theorem expectZset (h : s.WF) (key : Bytes) :
    (∃ p s₁, expectZset s key = .ok (.entry p, s₁) ∧ s₁.WF ∧ s.Later s₁ ∧ s₁.contents = s.contents ∧
      p ∈ s₁.refs ∧ (s₁.entries p).key = key ∧ s.contents key = some (s₁.content p) ∧
      zsetFor (s.contents key) = some (s₁.content p) ∧ p ∈ s.refs ∧ s₁.entries = s.entries) ∨
    (∃ s₁, expectZset s key = .ok (.missing, s₁) ∧ s₁.WF ∧ s.Later s₁ ∧ s₁.contents = s.contents ∧
      s.contents key = none) ∨
    (∃ s₁, expectZset s key = .ok (.badType, s₁) ∧ s₁.WF ∧ s.Later s₁ ∧ s₁.contents = s.contents ∧
      zsetFor (s.contents key) = none) := by
  rcases h.lookup key with ⟨p, s₁, hrun, h₁, hlater, hsame, hp, hname, hkey⟩ |
    ⟨s₁, hrun, h₁, hlater, hsame, hkey⟩
  · by_cases htype : (s₁.entries p).type = .zset
    · obtain ⟨hentries, hperm⟩ := h.lookup_frame hrun
      refine .inl ⟨p, s₁, by simp [MiniRedis.expectZset, hrun, htype], h₁, hlater, hsame, hp, hname,
        hkey, ?_, hperm.mem_iff.mp hp, hentries⟩
      simp [hkey, zsetFor, content, htype]
    · refine .inr (.inr ⟨s₁, by simp [MiniRedis.expectZset, hrun, htype], h₁, hlater, hsame, ?_⟩)
      simp [hkey, zsetFor, content, htype]
  · exact .inr (.inl ⟨s₁, by simp [MiniRedis.expectZset, hrun], h₁, hlater, hsame, hkey⟩)

/-- A lookup in the set of an entry changes no content. -/
theorem lookupMember {p : EPtr} (h : s.WF) (hp : p ∈ s.refs) (name : Bytes) :
    ∃ found zset t, zsetLookup (s.entries p).zset name = .ok (found, zset) ∧ zset.WF t ∧
      (∀ q, found = some q ↔ q ∈ t.inorder ∧ (zset.node q).name = name) ∧
      zset.scoreOf = (s.content p).scores ∧ (s.setZset p zset).WF ∧
      (s.setZset p zset).contents = s.contents := by
  obtain ⟨t, ht⟩ := h.zsets p hp
  obtain ⟨found, hmap, hrun, hz, hperm, hfound⟩ := ht.lookup name
  have hscores := ht.scoreOf_of_hmap hperm
  obtain ⟨hwf, hcontents⟩ := h.setZset hp hz
  refine ⟨found, _, t, hrun, hz, hfound, hscores, hwf, ?_⟩
  rw [hcontents, hscores]
  exact (congrArg _ (h.contents_of_mem hp).symm).trans (Function.update_eq_self _ _)

theorem zcmdScore (h : s.WF) (key name : Bytes) :
    (Request.zscore key name).Handled now s resp (zcmdScore s key name resp) := by
  simp only [Request.Handled, Request.Answers]
  rcases h.expectZset key with ⟨p, s₁, hrun, h₁, hlater, hsame, hp, rfl, -, hkey, -⟩ |
    ⟨s₁, hrun, h₁, hlater, hsame, hkey⟩ | ⟨s₁, hrun, h₁, hlater, hsame, hkey⟩
  · obtain ⟨found, zset, t, hlookup, hz, hfound, hscores, hwf, hcontents⟩ := h₁.lookupMember hp name
    simp only [MiniRedis.zcmdScore, hrun, ok_bind, hlookup, hkey, ← hscores]
    cases found with
    | none =>
      have hnone : zset.scoreOf name = none := hz.scoreOf_eq_none.mpr fun q hq hname => by
        cases (hfound q).mpr ⟨hq, hname⟩
      exact ⟨hwf, hlater.trans (.of_eq rfl rfl rfl), .nil, rfl, by rw [hnone]; rfl,
        hcontents.trans hsame⟩
    | some q =>
      have hsome : zset.scoreOf name = some (zset.node q).score := by
        obtain ⟨hq, hname⟩ := (hfound q).mp rfl
        exact hz.scoreOf_eq_some.mpr ⟨q, hq, hname, rfl⟩
      exact ⟨hwf, hlater.trans (.of_eq rfl rfl rfl), .dbl _, rfl, by rw [hsome]; rfl,
        hcontents.trans hsame⟩
  · simp only [MiniRedis.zcmdScore, hrun, ok_bind, hkey]
    exact ⟨h₁, hlater, .nil, rfl, rfl, hsame⟩
  · simp only [MiniRedis.zcmdScore, hrun, ok_bind, hkey]
    exact ⟨h₁, hlater, .badTyp, rfl, rfl, hsame⟩

theorem zcmdRemove (h : s.WF) (key name : Bytes) :
    (Request.zrem key name).Handled now s resp (zcmdRemove s key name resp) := by
  simp only [Request.Handled, Request.Answers]
  rcases h.expectZset key with ⟨p, s₁, hrun, h₁, hlater, hsame, hp, rfl, hkey, hset, -⟩ |
    ⟨s₁, hrun, h₁, hlater, hsame, hkey⟩ | ⟨s₁, hrun, h₁, hlater, hsame, hkey⟩
  · obtain ⟨found, zset, t, hlookup, hz, hfound, hscores, hwf, hcontents⟩ := h₁.lookupMember hp name
    rw [hkey] at hset
    simp only [MiniRedis.zcmdRemove, hrun, ok_bind, hlookup, hkey, hset, Option.map_some, ← hscores]
    cases found with
    | none =>
      have hnone : zset.scoreOf name = none := hz.scoreOf_eq_none.mpr fun q hq hname => by
        cases (hfound q).mpr ⟨hq, hname⟩
      refine ⟨hwf, hlater.trans (.of_eq rfl rfl rfl), .int 0, rfl, by rw [hnone]; rfl, ?_⟩
      rw [hcontents, hsame, ← hnone, Function.update_eq_self, hscores]
      exact ((congrArg _ hkey.symm).trans (Function.update_eq_self _ _)).symm
    | some q =>
      obtain ⟨hq, hname⟩ := (hfound q).mp rfl
      have hsome : zset.scoreOf name = some (zset.node q).score :=
        hz.scoreOf_eq_some.mpr ⟨q, hq, hname, rfl⟩
      obtain ⟨z', t', hdel, hz', -, -, -, -, hscores'⟩ := hz.delete hq
      obtain ⟨hwf', hcontents'⟩ := h₁.setZset hp hz'
      simp only [hdel, ok_bind, pure_eq_ok]
      refine ⟨hwf', hlater.trans (.of_eq rfl rfl rfl), .int 1, rfl, by rw [hsome]; rfl, ?_⟩
      rw [hcontents', hsame, hscores', hname]
  · simp only [MiniRedis.zcmdRemove, hrun, ok_bind, hkey, Option.map_none]
    refine ⟨h₁, hlater, .int 0, rfl, rfl, ?_⟩
    rw [hsame, ← hkey, Function.update_eq_self]
  · simp only [MiniRedis.zcmdRemove, hrun, ok_bind, hkey]
    exact ⟨h₁, hlater, .badTyp, rfl, rfl, hsame⟩

/-- The entry for `zadd` is found, created, or refused. -/
theorem zaddEntry (h : s.WF) (key : Bytes) :
    (∃ p s₁, zaddEntry s key = .ok (some p, s₁) ∧ s₁.WF ∧ s.Later s₁ ∧ p ∈ s₁.refs ∧
      (s₁.entries p).key = key ∧ zsetFor (s.contents key) = some (s₁.content p) ∧
      s₁.contents = Function.update s.contents key (some (s₁.content p))) ∨
    (∃ s₁, zaddEntry s key = .ok (none, s₁) ∧ s₁.WF ∧ s.Later s₁ ∧ s₁.contents = s.contents ∧
      zsetFor (s.contents key) = none) ∨
    (∃ e, zaddEntry s key = .error e ∧ e.IsAbort ∧ s.contents key = none) := by
  rcases h.lookup key with ⟨p, s₁, hrun, h₁, hlater, hsame, hp, hname, hkey⟩ |
    ⟨s₁, hrun, h₁, hlater, hsame, hkey⟩
  · by_cases htype : (s₁.entries p).type = .zset
    · refine .inl ⟨p, s₁, by simp [MiniRedis.zaddEntry, hrun, htype], h₁, hlater, hp, hname, ?_, ?_⟩
      · simp [hkey, zsetFor, content, htype]
      · rw [hsame, ← hkey, Function.update_eq_self]
    · refine .inr (.inl ⟨s₁, by simp [MiniRedis.zaddEntry, hrun, htype], h₁, hlater, hsame, ?_⟩)
      simp [hkey, zsetFor, content, htype]
  · simp only [MiniRedis.zaddEntry, hrun, ok_bind]
    rcases h₁.addEntry (hsame ▸ hkey) .zset [] with
      ⟨s₂, hnew, ⟨s', hins, hs', hlater', hp, hentry, hc, hcontents⟩ | hins⟩ | hnew
    · simp only [hnew, hins, ok_bind, pure_eq_ok]
      refine .inl ⟨_, s', rfl, hs', hlater.trans hlater', hp, by rw [hentry], ?_, hsame ▸ hcontents⟩
      rw [hkey, hc]
      rfl
    · exact .inr (.inr
        ⟨.assertion .hInitSize, by simp only [hnew, hins, ok_bind, error_bind], trivial, hkey⟩)
    · exact .inr (.inr ⟨.badAlloc, by simp only [hnew, error_bind], trivial, hkey⟩)

theorem zcmdAdd (h : s.WF) (key score name : Bytes) :
    (Request.zadd key score name).Handled now s resp (zcmdAdd s key score name resp) := by
  unfold MiniRedis.zcmdAdd
  simp only [Request.Handled, Request.Answers]
  cases str2dbl score with
  | none => exact ⟨h, .refl s, _, rfl, rfl, rfl⟩
  | some score =>
    rcases h.zaddEntry key with ⟨p, s₁, hrun, h₁, hlater, hp, rfl, hset, hcontents⟩ |
      ⟨s₁, hrun, h₁, hlater, hsame, hset⟩ | ⟨e, hrun, habort, -⟩
    · obtain ⟨t, ht⟩ := h₁.zsets p hp
      simp only [hrun, ok_bind, hset]
      rcases ht.insert name score with ⟨added, z', t', hins, hz', -, hadded, hscores⟩ | hins |
        ⟨hins, -⟩
      · obtain ⟨hwf, hcontents'⟩ := h₁.setZset hp hz'
        simp only [hins, ok_bind, pure_eq_ok]
        refine ⟨hwf, hlater.trans (.of_eq rfl rfl rfl), .int _, rfl, ?_, ?_⟩
        · cases added with
          | true => simp [content, hadded.mp rfl]
          | false =>
            have : (s₁.entries p).zset.scoreOf name ≠ none := fun hnone => by cases hadded.mpr hnone
            simp [content, this]
        · rw [hcontents', hcontents, Function.update_idem, hscores]
          rfl
      · simp only [hins, error_bind]
        trivial
      · simp only [hins, error_bind]
        trivial
    · simp only [hrun, ok_bind, hset]
      exact ⟨h₁, hlater, .badTyp, rfl, rfl, hsame⟩
    · simp only [hrun, error_bind]
      exact habort

theorem numNodes_eq {p : EPtr} {t : BinaryTree ZPtr} (ht : (s.entries p).zset.WF t) :
    t.numNodes = hmSize (s.entries p).zset.hmap := by
  rw [← BinaryTree.length_inorder, ← ht.refs.length_eq, List.length_map, ht.hmap.toTablesWF.hmSize]

theorem zcmdQuery (h : s.WF) (hsmall : s.Small) (key score name offset limit : Bytes) :
    (Request.zquery key score name offset limit).Handled now s resp
      (zcmdQuery s key score name offset limit resp) := by
  unfold MiniRedis.zcmdQuery
  simp only [Request.Handled, Request.Answers]
  cases str2dbl score with
  | none => exact ⟨h, .refl s, _, rfl, rfl, rfl⟩
  | some score =>
    cases str2int offset with
    | none => exact ⟨h, .refl s, _, rfl, rfl, rfl⟩
    | some offset =>
      cases str2int limit with
      | none => exact ⟨h, .refl s, _, rfl, rfl, rfl⟩
      | some limit =>
        rcases h.expectZset key with
          ⟨p, s₁, hrun, h₁, hlater, hsame, hp, -, -, hset, hp', hentries⟩ |
          ⟨s₁, hrun, h₁, hlater, hsame, hkey⟩ | ⟨s₁, hrun, h₁, hlater, hsame, hkey⟩
        · obtain ⟨t, ht⟩ := h₁.zsets p hp
          have hn : t.numNodes < 2 ^ 32 := by
            rw [numNodes_eq ht, hentries]
            exact Nat.lt_trans (hsmall.members p hp') (by decide)
          simp only [hrun, ok_bind, ht.queryZset hn, hset, pure_eq_ok]
          exact ⟨h₁, hlater, _, rfl, hsame, _, t, ht, rfl, rfl⟩
        · simp only [hrun, ok_bind, ZSet.WF.empty.queryZset (Nat.two_pow_pos 32), hkey, pure_eq_ok]
          exact ⟨h₁, hlater, _, rfl, hsame, .empty, .nil, .empty, rfl, rfl⟩
        · simp only [hrun, ok_bind, hkey, pure_eq_ok]
          exact ⟨h₁, hlater, .badTyp, rfl, hsame, rfl⟩

theorem expectZset_badType (h : s.WF) (hkey : zsetFor (s.contents key) = none) :
    ∃ s₁, MiniRedis.expectZset s key = .ok (.badType, s₁) := by
  rcases h.expectZset key with ⟨p, s₁, -, -, -, -, -, -, -, hset, -⟩ | ⟨s₁, -, -, -, -, hnone⟩ |
    ⟨s₁, hrun, -⟩
  · rw [hset] at hkey
    cases hkey
  · rw [hnone] at hkey
    cases hkey
  · exact ⟨s₁, hrun⟩

theorem zaddEntry_badType (h : s.WF) (hkey : zsetFor (s.contents key) = none) :
    ∃ s₁, MiniRedis.zaddEntry s key = .ok (none, s₁) := by
  rcases h.zaddEntry key with ⟨p, s₁, -, -, -, -, -, hset, -⟩ | ⟨s₁, hrun, -⟩ | ⟨e, -, -, hnone⟩
  · rw [hset] at hkey
    cases hkey
  · exact ⟨s₁, hrun⟩
  · rw [hnone] at hkey
    cases hkey

/-- Whatever `zquery` answers, it changes no content. -/
theorem zcmdQuery_frame {s' : ServerData} {key score name offset limit resp' : Bytes} (h : s.WF)
    (hrun : MiniRedis.zcmdQuery s key score name offset limit resp = .ok (s', resp')) :
    s'.WF ∧ s.Later s' ∧ s'.contents = s.contents := by
  unfold MiniRedis.zcmdQuery at hrun
  split at hrun
  · cases hrun
    exact ⟨h, .refl s, rfl⟩
  split at hrun
  · rcases h.expectZset key with ⟨p, s₁, hset, h₁, hlater, hsame, -⟩ |
      ⟨s₁, hset, h₁, hlater, hsame, -⟩ | ⟨s₁, hset, h₁, hlater, hsame, -⟩
    · simp only [hset, ok_bind] at hrun
      obtain ⟨_, -, hrun⟩ := bind_eq_ok.mp hrun
      cases hrun
      exact ⟨h₁, hlater, hsame⟩
    · simp only [hset, ok_bind] at hrun
      obtain ⟨_, -, hrun⟩ := bind_eq_ok.mp hrun
      cases hrun
      exact ⟨h₁, hlater, hsame⟩
    · simp only [hset, ok_bind] at hrun
      cases hrun
      exact ⟨h₁, hlater, hsame⟩
  · cases hrun
    exact ⟨h, .refl s, rfl⟩

/-- Every request has its meaning. -/
theorem runRequest (h : s.WF) (now : UInt64) (cmd : List Bytes) (resp : Bytes)
    (hsmall : (Request.ofCmd cmd).IsQuery → s.Small) :
    (Request.ofCmd cmd).Handled now s resp (runRequest now s cmd resp) := by
  unfold MiniRedis.runRequest
  revert hsmall
  cases Request.ofCmd cmd with
  | ping => exact fun _ => ⟨h, .refl s, _, rfl, rfl, rfl⟩
  | get key => exact fun _ => h.getKey key
  | set key value => exact fun _ => h.setKey key value
  | del key => exact fun _ => h.delKey key
  | keys => exact fun _ => h.allKeys
  | zadd key score name => exact fun _ => h.zcmdAdd key score name
  | zrem key name => exact fun _ => h.zcmdRemove key name
  | zscore key name => exact fun _ => h.zcmdScore key name
  | zquery key score name offset limit =>
    exact fun hsmall => h.zcmdQuery (hsmall trivial) key score name offset limit
  | pttl key => exact fun _ => h.getTtlMs key
  | pexpire key ttl => exact fun _ => h.setTtlMs key ttl
  | unknown => exact fun _ => ⟨h, .refl s, _, rfl, rfl, rfl⟩

/-- A request that returns, whatever the size of the sets. -/
theorem runRequest_ok {s' : ServerData} {cmd : List Bytes} {resp' : Bytes} (h : s.WF)
    (hrun : MiniRedis.runRequest now s cmd resp = .ok (s', resp')) :
    s'.WF ∧ s.Later s' ∧
      ((Request.ofCmd cmd).IsQuery ∧ s'.contents = s.contents ∨
        ∃ v : Value, resp' = v.write resp ∧
          (Request.ofCmd cmd).Answers now s.contents v s'.contents) := by
  by_cases hquery : (Request.ofCmd cmd).IsQuery
  · cases hreq : Request.ofCmd cmd with
    | zquery key score name offset limit =>
      simp only [MiniRedis.runRequest, hreq] at hrun
      obtain ⟨hwf, hlater, hsame⟩ := h.zcmdQuery_frame hrun
      exact ⟨hwf, hlater, .inl ⟨trivial, hsame⟩⟩
    | _ => simp [hreq, Request.IsQuery] at hquery
  · have hhandled := h.runRequest now cmd resp fun hq => absurd hq hquery
    rw [hrun] at hhandled
    obtain ⟨hwf, hlater, hanswers⟩ := hhandled
    exact ⟨hwf, hlater, .inr hanswers⟩

end ServerData.WF

end MiniRedis
