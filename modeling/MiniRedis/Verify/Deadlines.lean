import MiniRedis.Model.Commands
import MiniRedis.Verify.HeapOrder

/-! # The deadlines stay in order

Every request that returns leaves the deadlines in the order of a heap. Only the functions that set or
remove a TTL touch the items; this needs nothing of the database. -/

namespace MiniRedis

variable {s s' : ServerData} {now : UInt64} {key resp resp' : Bytes} {p : EPtr}

/-- The order depends on the items alone. -/
theorem Heap.Ordered.congr {ρ : Type} {heap heap' : Heap ρ} (h : heap.Ordered)
    (hitems : heap'.items = heap.items) : heap'.Ordered := by
  unfold Heap.Ordered
  rw [hitems]
  exact h

theorem Heap.Ordered.heapUpsert {ρ : Type} [DecidableEq ρ] {heap heap' : Heap ρ} {pos : Nat}
    {item : HeapItem ρ} (h : heap.Ordered) (hrun : heapUpsert heap pos item = .ok heap') :
    heap'.Ordered := by
  by_cases hpos : pos < heap.items.length
  · exact h.upsert_update hpos hrun
  · exact h.upsert_insert (Nat.le_of_not_lt hpos) hrun

namespace ServerData

/-! ## Functions that do not touch the items -/

theorem dbLookup_items {found : Option EPtr} (hrun : dbLookup s key = .ok (found, s')) :
    s'.heap.items = s.heap.items := by
  obtain ⟨r, -, hret⟩ := bind_eq_ok.mp hrun
  cases hret
  rfl

theorem dbInsert_items (hrun : dbInsert s p = .ok s') : s'.heap.items = s.heap.items := by
  obtain ⟨db, -, hret⟩ := bind_eq_ok.mp hrun
  cases hret
  rfl

theorem entryNew_items {type : ValueType} {value : Bytes}
    (hrun : entryNew s type key value = .ok (p, s')) : s'.heap.items = s.heap.items := by
  simp only [entryNew] at hrun
  split at hrun
  · cases hrun
    rfl
  · cases hrun

/-- The creation of a missing entry. -/
theorem addEntry_items {type : ValueType} {value : Bytes} {s₁ : ServerData}
    (hnew : entryNew s type key value = .ok (p, s₁)) (hinsert : dbInsert s₁ p = .ok s') :
    s'.heap.items = s.heap.items :=
  (dbInsert_items hinsert).trans (entryNew_items hnew)

theorem setKey_items {value : Bytes} (hrun : setKey s key value resp = .ok (s', resp')) :
    s'.heap.items = s.heap.items := by
  obtain ⟨⟨found, s₁⟩, hlookup, hrun⟩ := bind_eq_ok.mp hrun
  refine Eq.trans ?_ (dbLookup_items hlookup)
  cases found with
  | some p =>
    cases hrun
    rfl
  | none =>
    obtain ⟨⟨p, s₂⟩, hnew, hrun⟩ := bind_eq_ok.mp hrun
    obtain ⟨s₃, hinsert, hret⟩ := bind_eq_ok.mp hrun
    cases hret
    exact addEntry_items hnew hinsert

theorem getKey_items (hrun : getKey s key resp = .ok (s', resp')) :
    s'.heap.items = s.heap.items := by
  obtain ⟨⟨found, s₁⟩, hlookup, hrun⟩ := bind_eq_ok.mp hrun
  refine Eq.trans ?_ (dbLookup_items hlookup)
  cases found with
  | none =>
    cases hrun
    rfl
  | some p =>
    obtain ⟨_, -, hret⟩ := bind_eq_ok.mp hrun
    cases hret
    rfl

theorem getTtlMs_items (hrun : getTtlMs now s key resp = .ok (s', resp')) :
    s'.heap.items = s.heap.items := by
  obtain ⟨⟨found, s₁⟩, hlookup, hrun⟩ := bind_eq_ok.mp hrun
  refine Eq.trans ?_ (dbLookup_items hlookup)
  cases found with
  | none =>
    cases hrun
    rfl
  | some p =>
    simp only at hrun
    split at hrun
    · cases hrun
      rfl
    · obtain ⟨item, -, hret⟩ := bind_eq_ok.mp hrun
      cases hret
      rfl

theorem allKeys_items (hrun : allKeys s resp = .ok (s', resp')) :
    s'.heap.items = s.heap.items := by
  obtain ⟨r, -, hret⟩ := bind_eq_ok.mp hrun
  cases hret
  rfl

theorem expectZset_items {found : ExpectedZSet} (hrun : expectZset s key = .ok (found, s')) :
    s'.heap.items = s.heap.items := by
  obtain ⟨⟨found, s₁⟩, hlookup, hrun⟩ := bind_eq_ok.mp hrun
  refine Eq.trans ?_ (dbLookup_items hlookup)
  cases found <;> cases hrun <;> rfl

theorem zaddEntry_items {found : Option EPtr} (hrun : zaddEntry s key = .ok (found, s')) :
    s'.heap.items = s.heap.items := by
  obtain ⟨⟨found, s₁⟩, hlookup, hrun⟩ := bind_eq_ok.mp hrun
  refine Eq.trans ?_ (dbLookup_items hlookup)
  cases found with
  | none =>
    obtain ⟨⟨p, s₂⟩, hnew, hrun⟩ := bind_eq_ok.mp hrun
    obtain ⟨s₃, hinsert, hret⟩ := bind_eq_ok.mp hrun
    cases hret
    exact addEntry_items hnew hinsert
  | some p =>
    cases hrun
    rfl

theorem zcmdAdd_items {score name : Bytes} (hrun : zcmdAdd s key score name resp = .ok (s', resp')) :
    s'.heap.items = s.heap.items := by
  unfold zcmdAdd at hrun
  split at hrun
  · cases hrun
    rfl
  · obtain ⟨⟨found, s₁⟩, hentry, hrun⟩ := bind_eq_ok.mp hrun
    refine Eq.trans ?_ (zaddEntry_items hentry)
    cases found with
    | none =>
      cases hrun
      rfl
    | some p =>
      obtain ⟨r, -, hret⟩ := bind_eq_ok.mp hrun
      cases hret
      rfl

theorem zcmdRemove_items {name : Bytes} (hrun : zcmdRemove s key name resp = .ok (s', resp')) :
    s'.heap.items = s.heap.items := by
  obtain ⟨⟨found, s₁⟩, hexpect, hrun⟩ := bind_eq_ok.mp hrun
  refine Eq.trans ?_ (expectZset_items hexpect)
  cases found with
  | badType =>
    cases hrun
    rfl
  | missing =>
    obtain ⟨r, -, hret⟩ := bind_eq_ok.mp hrun
    cases hret
    rfl
  | entry p =>
    obtain ⟨⟨znode, zset⟩, -, hrun⟩ := bind_eq_ok.mp hrun
    cases znode with
    | some znode =>
      obtain ⟨zset', -, hret⟩ := bind_eq_ok.mp hrun
      cases hret
      rfl
    | none =>
      cases hrun
      rfl

theorem zcmdScore_items {name : Bytes} (hrun : zcmdScore s key name resp = .ok (s', resp')) :
    s'.heap.items = s.heap.items := by
  obtain ⟨⟨found, s₁⟩, hexpect, hrun⟩ := bind_eq_ok.mp hrun
  refine Eq.trans ?_ (expectZset_items hexpect)
  cases found with
  | badType =>
    cases hrun
    rfl
  | missing | entry p =>
    obtain ⟨⟨znode, zset⟩, -, hrun⟩ := bind_eq_ok.mp hrun
    cases znode <;> cases hrun <;> rfl

theorem zcmdQuery_items {score name offset limit : Bytes}
    (hrun : zcmdQuery s key score name offset limit resp = .ok (s', resp')) :
    s'.heap.items = s.heap.items := by
  unfold zcmdQuery at hrun
  split at hrun
  · cases hrun
    rfl
  · split at hrun
    · obtain ⟨⟨found, s₁⟩, hexpect, hrun⟩ := bind_eq_ok.mp hrun
      refine Eq.trans ?_ (expectZset_items hexpect)
      cases found with
      | badType =>
        cases hrun
        rfl
      | missing | entry p =>
        obtain ⟨r, -, hret⟩ := bind_eq_ok.mp hrun
        cases hret
        rfl
    · cases hrun
      rfl

/-! ## Functions that set or remove a TTL -/

theorem entrySetTtl_ordered {ttlMs : Int} (h : s.heap.Ordered)
    (hrun : entrySetTtl now s p ttlMs = .ok s') : s'.heap.Ordered := by
  unfold entrySetTtl at hrun
  split at hrun
  · obtain ⟨heap, hdelete, hret⟩ := bind_eq_ok.mp hrun
    cases hret
    exact (h.delete hdelete).congr rfl
  · split at hrun
    · obtain ⟨heap, hupsert, hret⟩ := bind_eq_ok.mp hrun
      cases hret
      exact h.heapUpsert hupsert
    · cases hrun
      exact h

theorem entryDelSync_items (hrun : entryDelSync s p = .ok s') : s'.heap.items = s.heap.items := by
  unfold entryDelSync at hrun
  split at hrun
  · obtain ⟨zset, -, hret⟩ := bind_eq_ok.mp hrun
    cases hret
    rfl
  · cases hrun
    rfl

theorem entryDel_ordered (h : s.heap.Ordered) (hrun : entryDel now s p = .ok s') :
    s'.heap.Ordered := by
  obtain ⟨s₁, hclear, hrun⟩ := bind_eq_ok.mp hrun
  have h₁ := entrySetTtl_ordered h hclear
  generalize (if (s₁.entries p).type = .zset then hmSize (s₁.entries p).zset.hmap else 0) = sz at hrun
  by_cases hlarge : sz > kLargeContainerSize
  · rw [if_pos hlarge] at hrun
    cases hrun
    exact h₁
  · rw [if_neg hlarge] at hrun
    exact h₁.congr (entryDelSync_items hrun)

theorem delKey_ordered (h : s.heap.Ordered) (hrun : delKey now s key resp = .ok (s', resp')) :
    s'.heap.Ordered := by
  obtain ⟨⟨node, db⟩, -, hrun⟩ := bind_eq_ok.mp hrun
  cases node with
  | some node =>
    obtain ⟨s₁, hdel, hret⟩ := bind_eq_ok.mp hrun
    cases hret
    exact entryDel_ordered (s := { s with db }) h hdel
  | none =>
    cases hrun
    exact h

theorem setTtlMs_ordered {ttl : Bytes} (h : s.heap.Ordered)
    (hrun : setTtlMs now s key ttl resp = .ok (s', resp')) : s'.heap.Ordered := by
  unfold setTtlMs at hrun
  split at hrun
  · cases hrun
    exact h
  · obtain ⟨⟨found, s₁⟩, hlookup, hrun⟩ := bind_eq_ok.mp hrun
    have h₁ := h.congr (dbLookup_items hlookup)
    cases found with
    | some p =>
      obtain ⟨s₂, hset, hret⟩ := bind_eq_ok.mp hrun
      cases hret
      exact entrySetTtl_ordered h₁ hset
    | none =>
      cases hrun
      exact h₁

theorem runRequest_ordered {cmd : List Bytes} (h : s.heap.Ordered)
    (hrun : runRequest now s cmd resp = .ok (s', resp')) : s'.heap.Ordered := by
  unfold runRequest at hrun
  cases hreq : Request.ofCmd cmd with
  | ping | unknown =>
    rw [hreq] at hrun
    cases hrun
    exact h
  | get key =>
    rw [hreq] at hrun
    exact h.congr (getKey_items hrun)
  | set key value =>
    rw [hreq] at hrun
    exact h.congr (setKey_items hrun)
  | del key =>
    rw [hreq] at hrun
    exact delKey_ordered h hrun
  | keys =>
    rw [hreq] at hrun
    exact h.congr (allKeys_items hrun)
  | zadd key score name =>
    rw [hreq] at hrun
    exact h.congr (zcmdAdd_items hrun)
  | zrem key name =>
    rw [hreq] at hrun
    exact h.congr (zcmdRemove_items hrun)
  | zscore key name =>
    rw [hreq] at hrun
    exact h.congr (zcmdScore_items hrun)
  | zquery key score name offset limit =>
    rw [hreq] at hrun
    exact h.congr (zcmdQuery_items hrun)
  | pttl key =>
    rw [hreq] at hrun
    exact h.congr (getTtlMs_items hrun)
  | pexpire key ttl =>
    rw [hreq] at hrun
    exact setTtlMs_ordered h hrun

end ServerData

end MiniRedis
