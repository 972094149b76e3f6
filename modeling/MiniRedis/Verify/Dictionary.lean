import Mathlib.Data.Finmap
import MiniRedis.Verify.History

/-! # The server as a dictionary

The reference is a finite map from keys to strings and sorted sets, with exact expiry times; a sorted
set is a finite map from members to scores. Requests and timers keep the server and the reference in
step, and the server answers as the reference does. -/

namespace MiniRedis

/-- A finite map from byte strings. -/
abbrev Dict (α : Type) := Finmap fun _ : Bytes => α

inductive RefValue where
  | str (value : Bytes)
  | zset (scores : Dict Double)

structure RefEntry where
  value : RefValue
  expiry : Option Nat

abbrev Dictionary := Dict RefEntry

namespace Dictionary

/-- The set that a command on sorted sets works on; none for a string. -/
def members : Option RefEntry → Option (Dict Double)
  | none => some ∅
  | some ⟨.zset scores, _⟩ => some scores
  | some ⟨.str _, _⟩ => none

/-- The remaining time, in exact arithmetic. -/
def pttl (now : Nat) : Option RefEntry → Int
  | none => -2
  | some e =>
    match e.expiry with
    | none => -1
    | some expiry => max 0 ((expiry : Int) - now)

/-- The line of `keys` for one key: sorted sets show no value. -/
def line (d : Dictionary) (k : Bytes) : Bytes :=
  k ++ ascii [' ', ':', ' '] ++
    match d.lookup k with
    | some ⟨.str value, _⟩ => value
    | _ => []

/-- The answers to a request. Only the order of `keys` is left open. -/
def Answers (now : Nat) (d : Dictionary) (v : Value) : Request → Prop
  | .ping => v = .str (ascii ['p', 'o', 'n', 'g'])
  | .get key =>
    match d.lookup key with
    | none => v = .nil
    | some ⟨.str value, _⟩ => v = .str value
    | some ⟨.zset _, _⟩ => v = .badTyp
  | .set _ _ => v = .nil
  | .del key => v = .int (if key ∈ d then 1 else 0)
  | .keys => ∃ ks : List Bytes, ks.Nodup ∧ (∀ k, k ∈ ks ↔ k ∈ d) ∧
      v = .arr (ks.map fun k => .str (d.line k))
  | .zadd key score name =>
    match str2dbl score, members (d.lookup key) with
    | none, _ => v = .badArg ['e', 'x', 'p', 'e', 'c', 't', ' ', 'f', 'l', 'o', 'a', 't']
    | some _, none => v = .badTyp
    | some _, some scores => v = .int (if name ∈ scores then 0 else 1)
  | .zrem key name =>
    match members (d.lookup key) with
    | none => v = .badTyp
    | some scores => v = .int (if name ∈ scores then 1 else 0)
  | .zscore key name =>
    match members (d.lookup key) with
    | none => v = .badTyp
    | some scores => v = (scores.lookup name).elim .nil (.dbl ·.bits)
  | .pexpire key ttl =>
    match str2int ttl with
    | none => v = .badArg ['e', 'x', 'p', 'e', 'c', 't', ' ', 'i', 'n', 't']
    | some _ => v = .int (if key ∈ d then 1 else 0)
  | .pttl key => ∃ n : Int64, v = .int n ∧ n.toInt = pttl now (d.lookup key)
  | .zquery .. | .unknown => False

/-- The dictionary after a request. `store` says which score a member has after `zadd`, from the old
score and the new one. -/
def next (store : Option Double → Double → Double) (now : Nat) (d : Dictionary) :
    Request → Dictionary
  | .set key value =>
    d.insert key ⟨.str value, (d.lookup key).bind (·.expiry)⟩
  | .del key => d.erase key
  | .zadd key score name =>
    match str2dbl score, members (d.lookup key) with
    | some score, some scores =>
      d.insert key ⟨.zset (scores.insert name (store (scores.lookup name) score)),
        (d.lookup key).bind (·.expiry)⟩
    | _, _ => d
  | .zrem key name =>
    match d.lookup key with
    | some ⟨.zset scores, expiry⟩ => d.insert key ⟨.zset (scores.erase name), expiry⟩
    | _ => d
  | .pexpire key ttl =>
    match str2int ttl, d.lookup key with
    | some ttlMs, some e =>
      d.insert key { e with expiry := if ttlMs < 0 then none else some (now + ttlMs.toNat) }
    | _, _ => d
  | _ => d

/-- The requests that the comparison is about: `get` and `set` only on keys that hold no sorted
set. -/
def Allows (d : Dictionary) : Request → Prop
  | .get key | .set key _ => ∀ scores expiry, d.lookup key ≠ some ⟨.zset scores, expiry⟩
  | .zquery .. | .unknown => False
  | _ => True

/-- Delete keys. -/
def without (d : Dictionary) (ks : List Bytes) : Dictionary := ks.foldl (fun d k => d.erase k) d

theorem lookup_without (d : Dictionary) (ks : List Bytes) (k : Bytes) :
    (d.without ks).lookup k = if k ∈ ks then none else d.lookup k := by
  induction ks generalizing d with
  | nil => rfl
  | cons k' ks ih =>
    refine (ih (d.erase k')).trans ?_
    by_cases hk : k = k'
    · subst hk
      simp
    · simp [hk, Finmap.lookup_erase_ne hk]

end Dictionary

/-- An entry of the reference describes the content of a key. -/
structure RefEntry.Describes (e : RefEntry) (x : Content) : Prop where
  expiry : x.expiry.map UInt64.toNat = e.expiry
  value : match e.value with
    | .str value => x.isZset = false ∧ x.value = value
    | .zset scores => x.isZset = true ∧ x.value = [] ∧ x.scores = fun name => scores.lookup name

def Dictionary.Describes (d : Dictionary) (c : Bytes → Option Content) : Prop :=
  ∀ k, Option.Rel RefEntry.Describes (d.lookup k) (c k)

namespace Dictionary.Describes

variable {d : Dictionary} {c c' : Bytes → Option Content} {key : Bytes}

theorem lookup (h : d.Describes c) (key : Bytes) :
    (d.lookup key = none ∧ c key = none) ∨
      ∃ e x, d.lookup key = some e ∧ c key = some x ∧ e.Describes x := by
  have hkey := h key
  cases he : d.lookup key <;> cases hx : c key <;> rw [he, hx] at hkey <;> cases hkey
  · exact .inl ⟨rfl, rfl⟩
  · next hdesc => exact .inr ⟨_, _, rfl, rfl, hdesc⟩

theorem mem_iff (h : d.Describes c) (key : Bytes) : key ∈ d ↔ (c key).isSome := by
  rw [← Finmap.lookup_isSome]
  rcases h.lookup key with ⟨he, hx⟩ | ⟨e, x, he, hx, -⟩ <;> simp [he, hx]

theorem insert {e : RefEntry} {x : Content} (h : d.Describes c) (hx : e.Describes x) :
    Dictionary.Describes (d.insert key e) (Function.update c key (some x)) := by
  intro k
  by_cases hk : k = key
  · subst hk
    rw [Finmap.lookup_insert, Function.update_self]
    exact .some hx
  · rw [Finmap.lookup_insert_of_ne _ hk, Function.update_of_ne hk]
    exact h k

theorem erase (h : d.Describes c) (key : Bytes) :
    Dictionary.Describes (d.erase key) (Function.update c key none) := by
  intro k
  by_cases hk : k = key
  · subst hk
    rw [Finmap.lookup_erase, Function.update_self]
    exact .none
  · rw [Finmap.lookup_erase_ne hk, Function.update_of_ne hk]
    exact h k

/-- The two sides agree on the set that a command works on. -/
theorem members (h : d.Describes c) (key : Bytes) :
    (members (d.lookup key) = none ∧ zsetFor (c key) = none) ∨
      ∃ scores x, Dictionary.members (d.lookup key) = some scores ∧ zsetFor (c key) = some x ∧
        x.isZset = true ∧ x.value = [] ∧ (x.scores = fun name => scores.lookup name) ∧
        x.expiry.map UInt64.toNat = (d.lookup key).bind (·.expiry) := by
  rcases h.lookup key with ⟨he, hx⟩ | ⟨⟨value, expiry⟩, x, he, hx, hexpiry, hvalue⟩
  · rw [he, hx]
    exact .inr ⟨∅, .emptySet, rfl, rfl, rfl, rfl, by simp [Content.emptySet], rfl⟩
  · rw [he, hx]
    cases value with
    | str value => exact .inl ⟨rfl, by simp [zsetFor, hvalue.1]⟩
    | zset scores =>
      obtain ⟨hset, hempty, hscores⟩ := hvalue
      exact .inr ⟨scores, x, rfl, by simp [zsetFor, hset], hset, hempty, hscores, hexpiry⟩

end Dictionary.Describes

/-! ## Numbers -/

theorem str2int_range {s : Bytes} {n : Int} (h : str2int s = some n) : -2 ^ 63 ≤ n ∧ n < 2 ^ 63 := by
  simp only [str2int, strtoll] at h
  split at h
  · obtain ⟨-, rfl⟩ := by simpa using h
    decide
  · split at h <;> obtain ⟨-, rfl⟩ := by simpa using h
    all_goals omega

/-- A difference of clock readings below `2 ^ 63` survives the conversion to `int64_t`. -/
theorem toInt_sub_toInt64 {a b : UInt64} (hle : b ≤ a) (hlt : a.toNat < b.toNat + 2 ^ 63) :
    (a - b).toInt64.toInt = (a.toNat : Int) - b.toNat := by
  have hsub : (a - b).toNat = a.toNat - b.toNat := UInt64.toNat_sub_of_le a b hle
  have hle' : b.toNat ≤ a.toNat := hle
  change (a - b).toBitVec.toInt = _
  rw [BitVec.toInt_eq_toNat_of_lt (by rw [UInt64.toNat_toBitVec]; omega), UInt64.toNat_toBitVec, hsub]
  omega

/-! ## One request -/

/-- Every expiry time lies before the limit. -/
def Dictionary.ExpiresBefore (d : Dictionary) (limit : Nat) : Prop :=
  ∀ k e t, d.lookup k = some e → e.expiry = some t → t < limit

namespace Dictionary.Describes

variable {d : Dictionary} {c c' : Bytes → Option Content} {now : UInt64} {req : Request} {v : Value}

theorem line_eq (h : d.Describes c) {k : Bytes} (hk : (c k).isSome) : d.line k = keysLine c k := by
  obtain ⟨x, hx⟩ := Option.isSome_iff_exists.mp hk
  rcases h.lookup k with ⟨-, hnone⟩ | ⟨⟨value, expiry⟩, y, he, hy, -, hvalue⟩
  · simp [hx] at hnone
  · cases value with
    | str value => simp [Dictionary.line, keysLine, he, hy, hvalue.2]
    | zset scores => simp [Dictionary.line, keysLine, he, hy, hvalue.2.1]

theorem pttl_eq {key : Bytes} (h : d.Describes c) (hexp : d.ExpiresBefore (now.toNat + 2 ^ 63)) :
    (pttlAnswer now (c key)).toInt = pttl now.toNat (d.lookup key) := by
  rcases h.lookup key with ⟨he, hx⟩ | ⟨e, x, he, hx, hexpiry, -⟩
  · simp [pttlAnswer, he, hx, pttl]
  · simp only [pttlAnswer, he, hx, pttl, Option.elim_some, ← hexpiry]
    cases hd : x.expiry with
    | none => simp
    | some deadline =>
      have hlt := hexp key e deadline.toNat he (by rw [← hexpiry, hd]; rfl)
      simp only [Option.elim_some, Option.map_some]
      split
      · next hgt =>
        have hgt' : now.toNat < deadline.toNat := hgt
        rw [toInt_sub_toInt64 (UInt64.le_of_lt hgt) hlt]
        omega
      · next hle =>
        have hle' : ¬ now.toNat < deadline.toNat := hle
        simp only [Int64.toInt_zero]
        omega

theorem answers (h : d.Describes c) (hallow : d.Allows req)
    (hexp : d.ExpiresBefore (now.toNat + 2 ^ 63)) (ha : req.Answers now c v c') :
    d.Answers now.toNat v req := by
  cases req with
  | ping => exact ha.1
  | get key =>
    simp only [Dictionary.Answers]
    rcases h.lookup key with ⟨he, hx⟩ | ⟨⟨value, expiry⟩, x, he, hx, -, hvalue⟩
    · simpa [he, hx] using ha.1
    · cases value with
      | str value => simpa [he, hx, hvalue.2] using ha.1
      | zset scores => exact absurd he (hallow scores expiry)
  | set key value => exact ha.1
  | del key => simpa [Dictionary.Answers, h.mem_iff] using ha.1
  | keys =>
    obtain ⟨-, ks, hnd, hks, rfl⟩ := ha
    refine ⟨ks, hnd, fun k => (hks k).trans (h.mem_iff k).symm, ?_⟩
    rw [List.map_congr_left fun k hk => congrArg Value.str (h.line_eq ((hks k).mp hk))]
  | zadd key score name =>
    simp only [Request.Answers, Dictionary.Answers] at ha ⊢
    rcases h.members key with ⟨hm, hz⟩ | ⟨scores, x, hm, hz, -, -, hscores, -⟩
    · cases hscore : str2dbl score <;> simp only [hscore, hm, hz] at ha ⊢ <;> exact ha.1
    · cases hscore : str2dbl score with
      | none =>
        simp only [hscore] at ha
        exact ha.1
      | some score =>
        simp only [hscore, hm, hz, hscores] at ha ⊢
        rw [ha.1]
        simp only [← Finmap.lookup_isSome]
        cases scores.lookup name <;> simp
  | zrem key name =>
    simp only [Request.Answers, Dictionary.Answers] at ha ⊢
    rcases h.members key with ⟨hm, hz⟩ | ⟨scores, x, hm, hz, -, -, hscores, -⟩
    · simp only [hm, hz] at ha ⊢
      exact ha.1
    · simp only [hm, hz, hscores] at ha ⊢
      simpa [← Finmap.lookup_isSome] using ha.1
  | zscore key name =>
    simp only [Request.Answers, Dictionary.Answers] at ha ⊢
    rcases h.members key with ⟨hm, hz⟩ | ⟨scores, x, hm, hz, -, -, hscores, -⟩
    · simp only [hm, hz] at ha ⊢
      exact ha.1
    · simp only [hm, hz, hscores] at ha ⊢
      exact ha.1
  | pexpire key ttl =>
    simp only [Request.Answers, Dictionary.Answers] at ha ⊢
    cases httl : str2int ttl <;> simp only [httl] at ha ⊢
    · exact ha.1
    · simpa [h.mem_iff] using ha.1
  | pttl key => exact ⟨_, ha.1, h.pttl_eq hexp⟩
  | zquery | unknown => exact hallow

theorem next (h : d.Describes c) (hallow : d.Allows req) (hnow : now.toNat < 2 ^ 63)
    (ha : req.Answers now c v c') : (d.next overwritten now.toNat req).Describes c' := by
  cases req with
  | ping | get _ | pttl _ => exact ha.2 ▸ h
  | keys => exact ha.1 ▸ h
  | zquery | unknown => exact hallow.elim
  | set key value =>
    obtain ⟨-, rfl⟩ := ha
    rcases h.lookup key with ⟨he, hx⟩ | ⟨⟨old, expiry⟩, x, he, hx, hexpiry, hvalue⟩
    · simp only [Dictionary.next, he, hx]
      exact h.insert ⟨rfl, rfl, rfl⟩
    · cases old with
      | str old =>
        simp only [Dictionary.next, he, hx]
        exact h.insert ⟨hexpiry, hvalue.1, rfl⟩
      | zset scores => exact absurd he (hallow scores expiry)
  | del key =>
    obtain ⟨-, rfl⟩ := ha
    exact h.erase key
  | zscore key name =>
    simp only [Request.Answers] at ha
    split at ha <;> exact ha.2 ▸ h
  | zadd key score name =>
    simp only [Request.Answers, Dictionary.next] at ha ⊢
    rcases h.members key with ⟨hm, hz⟩ | ⟨scores, x, hm, hz, hset, hempty, hscores, hexpiry⟩
    · cases hscore : str2dbl score <;> simp only [hscore, hm, hz] at ha ⊢ <;> exact ha.2 ▸ h
    · cases hscore : str2dbl score with
      | none =>
        simp only [hscore] at ha
        exact ha.2 ▸ h
      | some score =>
        simp only [hscore, hm, hz] at ha ⊢
        obtain ⟨-, rfl⟩ := ha
        refine h.insert ⟨hexpiry, hset, hempty, ?_⟩
        funext name'
        by_cases hn : name' = name
        · subst hn
          simp [hscores]
        · simp [hscores, hn, Finmap.lookup_insert_of_ne _ hn]
  | zrem key name =>
    simp only [Request.Answers, Dictionary.next] at ha ⊢
    rcases h.lookup key with ⟨he, hx⟩ | ⟨⟨value, expiry⟩, x, he, hx, hexpiry, hvalue⟩
    · simp only [he, hx, zsetFor, Option.map_none] at ha ⊢
      rw [ha.2, ← hx, Function.update_eq_self]
      exact h
    · cases value with
      | str value =>
        simp only [he, hx, zsetFor, hvalue.1] at ha ⊢
        exact ha.2 ▸ h
      | zset scores =>
        obtain ⟨hset, hempty, hscores⟩ := hvalue
        simp only [he, hx, zsetFor, hset, if_true, Option.map_some] at ha ⊢
        obtain ⟨-, rfl⟩ := ha
        refine h.insert ⟨hexpiry, rfl, hempty, ?_⟩
        funext name'
        by_cases hn : name' = name
        · subst hn
          simp
        · simp [hscores, hn, Finmap.lookup_erase_ne hn]
  | pexpire key ttl =>
    simp only [Request.Answers, Dictionary.next] at ha ⊢
    cases httl : str2int ttl with
    | none =>
      simp only [httl] at ha
      exact ha.2 ▸ h
    | some ttlMs =>
      have hrange := str2int_range httl
      simp only [httl] at ha ⊢
      obtain ⟨-, rfl⟩ := ha
      rcases h.lookup key with ⟨he, hx⟩ | ⟨e, x, he, hx, -, hvalue⟩
      · rw [he, hx, Option.map_none, ← hx, Function.update_eq_self]
        exact h
      · rw [he, hx, Option.map_some]
        refine h.insert ⟨?_, hvalue⟩
        split
        · rfl
        · have hlt : now.toNat + ttlMs.toNat < 2 ^ 64 := by omega
          have httl' : ttlMs.toNat < 2 ^ 64 := by omega
          rw [Option.map_some, UInt64.toNat_add, UInt64.toNat_ofNat_of_lt' httl', Nat.mod_eq_of_lt hlt]

end Dictionary.Describes

namespace Dictionary.ExpiresBefore

variable {d : Dictionary} {limit now : Nat} {key : Bytes}

theorem insert {e : RefEntry} (h : d.ExpiresBefore limit) (he : ∀ t, e.expiry = some t → t < limit) :
    Dictionary.ExpiresBefore (d.insert key e) limit := by
  intro k e' t hlookup ht
  by_cases hk : k = key
  · subst hk
    rw [Finmap.lookup_insert] at hlookup
    cases hlookup
    exact he t ht
  · rw [Finmap.lookup_insert_of_ne _ hk] at hlookup
    exact h k e' t hlookup ht

theorem without (h : d.ExpiresBefore limit) (ks : List Bytes) : (d.without ks).ExpiresBefore limit := by
  intro k e t hlookup ht
  rw [lookup_without] at hlookup
  split at hlookup
  · cases hlookup
  · exact h k e t hlookup ht

theorem bind_expiry (h : d.ExpiresBefore limit) (t : Nat)
    (ht : (d.lookup key).bind (·.expiry) = some t) : t < limit := by
  obtain ⟨e, he, ht⟩ := Option.bind_eq_some_iff.mp ht
  exact h key e t he ht

/-- Only `pexpire` sets an expiry time, less than `2 ^ 63` ahead. -/
theorem next (store : Option Double → Double → Double) (req : Request) (h : d.ExpiresBefore limit)
    (hnow : now + 2 ^ 63 ≤ limit) : (d.next store now req).ExpiresBefore limit := by
  cases req with
  | ping | get _ | pttl _ | keys | zscore _ _ | zquery _ _ _ _ _ | unknown => exact h
  | set key value => exact h.insert h.bind_expiry
  | del key => exact h.without [key]
  | zadd key score name =>
    simp only [Dictionary.next]
    split
    · exact h.insert h.bind_expiry
    · exact h
  | zrem key name =>
    simp only [Dictionary.next]
    split
    · next he => exact h.insert fun t ht => h key _ t he ht
    · exact h
  | pexpire key ttl =>
    simp only [Dictionary.next]
    split
    · next ttlMs e httl he =>
      have hrange := str2int_range httl
      refine h.insert fun t ht => ?_
      simp only at ht
      split at ht
      · cases ht
      · cases ht
        omega
    · exact h

end Dictionary.ExpiresBefore

/-! ## Histories -/

def ServerOp.clock : ServerOp → UInt64
  | .request now _ | .timers now => now

/-- The keys in the database. -/
def ServerData.keyList (s : ServerData) : List Bytes := s.refs.map fun p => (s.entries p).key

/-- A step of the server and of the reference. The timers delete the same keys in both. -/
def ServerOp.pair (store : Option Double → Double → Double) :
    ServerData × Dictionary → ServerOp → Result (ServerData × Dictionary)
  | (s, d), .request now cmd => do
    let (s', _) ← runRequest now s cmd []
    return (s', d.next store now.toNat (Request.ofCmd cmd))
  | (s, d), .timers now => do
    let s' ← expireKeys now s
    return (s', d.without (s.keyList.filter (· ∉ s'.keyList)))

def ServerOp.AllowedBy (d : Dictionary) : ServerOp → Prop
  | .request _ cmd => d.Allows (Request.ofCmd cmd)
  | .timers _ => True

/-- In every history of allowed requests with clock readings that do not decrease, the server answers
as the dictionary does. -/
def RefinesDictionary (store : Option Double → Double → Double) : Prop :=
  ∀ ops : List ServerOp, (ops.map ServerOp.clock).Pairwise (· ≤ ·) →
    (∀ op ∈ ops, op.clock.toNat < 2 ^ 63) →
    (∀ pre op s d, pre ++ [op] <+: ops → runSteps (ServerOp.pair store) ({}, ∅) pre = .ok (s, d) →
      op.AllowedBy d) →
    ∀ pre now cmd s d s' resp, pre ++ [.request now cmd] <+: ops →
      runSteps (ServerOp.pair store) ({}, ∅) pre = .ok (s, d) →
      runRequest now s cmd [] = .ok (s', resp) →
      ∃ v : Value, resp = v.encode ∧ d.Answers now.toNat v (Request.ofCmd cmd)

variable {s s' : ServerData} {d d' : Dictionary}

theorem ServerData.WF.contents_isSome_iff {k : Bytes} : (s.contents k).isSome ↔ k ∈ s.keyList := by
  rw [Option.isSome_iff_ne_none, ne_eq, ServerData.WF.contents_eq_none]
  simp [ServerData.keyList]

theorem Request.IsQuery.not_allows {req : Request} (h : req.IsQuery) : ¬ d.Allows req := by
  cases req with
  | zquery => exact id
  | _ => exact h.elim

theorem pair_step {op : ServerOp} {limit : Nat} (h : s.WF ∧ d.Describes s.contents)
    (hexp : d.ExpiresBefore limit) (hallow : op.AllowedBy d) (hclock : op.clock.toNat < 2 ^ 63)
    (hlimit : op.clock.toNat + 2 ^ 63 ≤ limit)
    (hrun : op.pair overwritten (s, d) = .ok (s', d')) :
    (s'.WF ∧ d'.Describes s'.contents) ∧ d'.ExpiresBefore limit := by
  cases op with
  | request now cmd =>
    obtain ⟨⟨s₁, resp⟩, hreq, hret⟩ := bind_eq_ok.mp hrun
    cases hret
    obtain ⟨hwf, -, ⟨hquery, -⟩ | ⟨v, -, hanswers⟩⟩ := h.1.runRequest_ok hreq
    · exact absurd hallow hquery.not_allows
    · exact ⟨⟨hwf, h.2.next hallow hclock hanswers⟩, hexp.next _ _ hlimit⟩
  | timers now =>
    obtain ⟨s₁, ks, hloop, hwf, -, -, hcontents⟩ := h.1.expireLoop now kMaxWorks
    obtain ⟨s₂, hloop', hret⟩ := bind_eq_ok.mp hrun
    obtain rfl : s₁ = s₂ := Except.ok.inj (hloop.symm.trans hloop')
    cases hret
    refine ⟨⟨hwf, fun k => ?_⟩, hexp.without _⟩
    rw [Dictionary.lookup_without]
    by_cases hk : k ∈ s.keyList.filter (· ∉ s'.keyList)
    · have hgone : s'.contents k = none := by
        rw [← Option.not_isSome_iff_eq_none, ServerData.WF.contents_isSome_iff]
        simpa using (List.mem_filter.mp hk).2
      rw [if_pos hk, hgone]
      exact .none
    · rw [if_neg hk]
      by_cases hkeep : k ∈ ks
      · have hgone : s'.contents k = none := by rw [hcontents]; exact if_pos hkeep
        have habsent : s.contents k = none := by
          rw [← Option.not_isSome_iff_eq_none, ServerData.WF.contents_isSome_iff]
          intro hmem
          refine hk (List.mem_filter.mpr ⟨hmem, ?_⟩)
          rw [decide_eq_true_iff, ← ServerData.WF.contents_isSome_iff, hgone]
          exact Bool.false_ne_true
        rw [hgone, ← habsent]
        exact h.2 k
      · have hsame : s'.contents k = s.contents k := by rw [hcontents]; exact if_neg hkeep
        rw [hsame]
        exact h.2 k

/-- **The server is a dictionary**, in which `zadd` leaves a score that compares equal as it is. -/
theorem refinesDictionary : RefinesDictionary overwritten := by
  intro ops hsorted hclock hallow pre now cmd s d s' resp hpre hrun hreq
  have hmem : ∀ op ∈ pre ++ [ServerOp.request now cmd], op ∈ ops := fun op hop => hpre.subset hop
  -- All expiry times are bounded in terms of the reading of this request, which is the latest.
  have hlatest : ∀ op ∈ pre, op.clock ≤ now := by
    have hpairs := hsorted.sublist (hpre.sublist.map ServerOp.clock)
    rw [List.map_append, List.pairwise_append] at hpairs
    exact fun op hop => hpairs.2.2 op.clock (List.mem_map_of_mem hop) now (by simp [ServerOp.clock])
  obtain ⟨⟨h, hdesc⟩, hexp⟩ := runSteps_prefix_invariant
    (motive := fun sd : ServerData × Dictionary =>
      (sd.1.WF ∧ sd.2.Describes sd.1.contents) ∧ sd.2.ExpiresBefore (now.toNat + 2 ^ 63))
    ⟨⟨.empty, fun k => .none⟩, by simp [Dictionary.ExpiresBefore]⟩
    (fun pre' op sd₁ sd₂ hpre' hrun₁ hinv hstep => by
      have hop : op ∈ pre := hpre'.subset (by simp)
      have hle : op.clock.toNat ≤ now.toNat := hlatest op hop
      refine pair_step hinv.1 hinv.2 ?_ (hclock op (hmem op (by simp [hop]))) (by omega) hstep
      exact hallow pre' op sd₁.1 sd₁.2 (hpre'.trans ((List.prefix_append _ _).trans hpre)) hrun₁)
    List.prefix_rfl hrun
  have hallowed : d.Allows (Request.ofCmd cmd) := hallow pre _ s d hpre hrun
  obtain ⟨-, -, ⟨hquery, -⟩ | ⟨v, hresp, hanswers⟩⟩ := h.runRequest_ok hreq
  · exact absurd hallowed hquery.not_allows
  · exact ⟨v, hresp, hdesc.answers hallowed hexp hanswers⟩

/-- The two zeros in turn as the score of a member. -/
def bothZeros : List ServerOp :=
  [.request 0 [ascii ['z', 'a', 'd', 'd'], ascii ['k'], ascii ['0'], ascii ['m']],
    .request 0 [ascii ['z', 'a', 'd', 'd'], ascii ['k'], ascii ['-', '0'], ascii ['m']]]

def askScore : List Bytes := [ascii ['z', 's', 'c', 'o', 'r', 'e'], ascii ['k'], ascii ['m']]

/-- A dictionary that always stores the new score differs: the old zero stays. -/
theorem not_refinesDictionary_overwriting : ¬ RefinesDictionary fun _ score => score := by
  intro h
  have hops : ∀ op ∈ bothZeros ++ [.request 0 askScore], op.clock = 0 ∧ ∀ d, op.AllowedBy d := by
    intro op hop
    simp only [bothZeros, List.cons_append, List.nil_append, List.mem_cons, List.not_mem_nil,
      or_false] at hop
    rcases hop with rfl | rfl | rfl <;> exact ⟨rfl, fun _ => trivial⟩
  obtain ⟨⟨s, d⟩, hrun⟩ : ∃ sd, runSteps (ServerOp.pair fun _ score => score) ({}, ∅) bothZeros =
      .ok sd := ⟨_, rfl⟩
  have hserver := eq_of_toOption_map (f := fun sd : ServerData × Dictionary =>
    (runRequest 0 sd.1 askScore []).toOption.map (·.2)) (b := some [4, 0, 0, 0, 0, 0, 0, 0, 0]) hrun
    (by decide +kernel)
  have hreference := eq_of_toOption_map (f := fun sd : ServerData × Dictionary =>
    ((Dictionary.members (sd.2.lookup (ascii ['k']))).bind (·.lookup (ascii ['m']))).map
      fun score => (Value.dbl score.bits).encode)
    (b := some [4, 0, 0, 0, 0, 0, 0, 0, 128]) hrun (by decide +kernel)
  cases hreq : runRequest 0 s askScore [] with
  | error e =>
    simp only [hreq] at hserver
    cases hserver
  | ok r =>
    simp only [hreq, Except.toOption, Option.map_some, Option.some.injEq] at hserver
    obtain ⟨v, hresp, hanswers⟩ := h (bothZeros ++ [.request 0 askScore]) (by decide)
      (fun op hop => by rw [(hops op hop).1]; decide)
      (fun pre op _ _ hpre _ => (hops op (hpre.subset (by simp))).2 _)
      bothZeros 0 askScore s d r.1 r.2 List.prefix_rfl hrun hreq
    have hask : Request.ofCmd askScore = .zscore (ascii ['k']) (ascii ['m']) := rfl
    rw [hask] at hanswers
    simp only [Dictionary.Answers] at hanswers
    cases hm : Dictionary.members (d.lookup (ascii ['k'])) with
    | none =>
      simp only [hm] at hreference
      cases hreference
    | some scores =>
      simp only [hm, Option.bind_some] at hreference hanswers
      cases hscore : scores.lookup (ascii ['m']) with
      | none =>
        rw [hscore] at hreference
        cases hreference
      | some score =>
        simp only [hscore, Option.map_some, Option.some.injEq, Option.elim_some] at hreference hanswers
        rw [hanswers, hreference] at hresp
        rw [hresp] at hserver
        cases hserver

end MiniRedis
