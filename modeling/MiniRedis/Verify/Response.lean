import MiniRedis.Model.Netio

/-! # Responses are appended

The handlers only append to the buffer that they are given, and what they append does not depend on
what the buffer holds already. -/

namespace MiniRedis

variable {pre resp : Bytes}

theorem outNil_append : outNil (pre ++ resp) = pre ++ outNil resp := by
  simp [outNil, appendBufferU8]

theorem outErr_append {code : UInt32} {msg : Bytes} :
    outErr (pre ++ resp) code msg = pre ++ outErr resp code msg := by
  simp [outErr, appendBufferU8, appendBufferU32]

theorem outStr_append {s : Bytes} : outStr (pre ++ resp) s = pre ++ outStr resp s := by
  simp [outStr, appendBufferU8, appendBufferU32]

theorem outInt_append {val : Int64} : outInt (pre ++ resp) val = pre ++ outInt resp val := by
  simp [outInt, appendBufferU8, appendBufferI64]

theorem outDbl_append {bits : UInt64} : outDbl (pre ++ resp) bits = pre ++ outDbl resp bits := by
  simp [outDbl, appendBufferU8, appendBufferF64]

theorem outArr_append {n : UInt32} : outArr (pre ++ resp) n = pre ++ outArr resp n := by
  simp [outArr, appendBufferU8, appendBufferU32]

/-- Put bytes in front of a response. -/
def prepend (pre : Bytes) (r : ServerData × Bytes) : ServerData × Bytes := (r.1, pre ++ r.2)

/-- Two computations that go on alike after a common first part. -/
theorem bind_eq_map {x : Result γ} {f : γ → Result β} {f' : γ → Result α} {g : α → β}
    (h : ∀ a, f a = (f' a).map g) : (x >>= f) = (x >>= f').map g := by
  cases x with
  | ok a => exact h a
  | error e => rfl

theorem bind_eq_map_of {x : Result γ} {x' : Result δ} {f : γ → Result β} {f' : δ → Result α}
    {k : δ → γ} {g : α → β} (hx : x = x'.map k) (h : ∀ a, f (k a) = (f' a).map g) :
    (x >>= f) = (x' >>= f').map g := by
  subst hx
  cases x' with
  | ok a => exact h a
  | error e => rfl

variable {s : ServerData} {now : UInt64}

theorem setKey_append {key value : Bytes} :
    setKey s key value (pre ++ resp) = (setKey s key value resp).map (prepend pre) := by
  refine bind_eq_map fun ⟨found, s₁⟩ => ?_
  cases found with
  | some p => simp [Except.map, prepend, outNil_append]
  | none =>
    refine bind_eq_map fun ⟨p, s₂⟩ => bind_eq_map fun s₃ => ?_
    simp [Except.map, prepend, outNil_append]

theorem getKey_append {key : Bytes} :
    getKey s key (pre ++ resp) = (getKey s key resp).map (prepend pre) := by
  refine bind_eq_map fun ⟨found, s₁⟩ => ?_
  cases found with
  | some p =>
    refine bind_eq_map fun _ => ?_
    simp [Except.map, prepend, outStr_append]
  | none => simp [Except.map, prepend, outNil_append]

theorem delKey_append {key : Bytes} :
    delKey now s key (pre ++ resp) = (delKey now s key resp).map (prepend pre) := by
  refine bind_eq_map fun ⟨found, db⟩ => ?_
  cases found with
  | some n =>
    refine bind_eq_map fun _ => ?_
    simp [Except.map, prepend, outInt_append]
  | none => simp [Except.map, prepend, outInt_append]

theorem setTtlMs_append {key ttl : Bytes} :
    setTtlMs now s key ttl (pre ++ resp) = (setTtlMs now s key ttl resp).map (prepend pre) := by
  unfold setTtlMs
  cases str2int ttl with
  | none => simp [Except.map, prepend, outErr_append]
  | some ttlMs =>
    refine bind_eq_map fun ⟨found, s₁⟩ => ?_
    cases found with
    | some p =>
      refine bind_eq_map fun _ => ?_
      simp [Except.map, prepend, outInt_append]
    | none => simp [Except.map, prepend, outInt_append]

theorem getTtlMs_append {key : Bytes} :
    getTtlMs now s key (pre ++ resp) = (getTtlMs now s key resp).map (prepend pre) := by
  refine bind_eq_map fun ⟨found, s₁⟩ => ?_
  cases found with
  | none => simp [Except.map, prepend, outInt_append]
  | some p =>
    by_cases hidx : s₁.heap.idx p = sizeMax
    · simp [hidx, Except.map, prepend, outInt_append]
    · simp only [hidx, if_false]
      refine bind_eq_map fun _ => ?_
      simp [Except.map, prepend, outInt_append]

/-! ## Walks over a hash map -/

section
variable {σ : Type} {g : σ → σ} {f : HNode α → σ → Bool × σ}

theorem chainForeach_map (hf : ∀ n a, f n (g a) = ((f n a).1, g (f n a).2)) (ns : List (HNode α))
    (a : σ) : chainForeach f ns (g a) = ((chainForeach f ns a).1, g (chainForeach f ns a).2) := by
  induction ns generalizing a with
  | nil => rfl
  | cons n ns ih =>
    simp only [chainForeach, hf]
    obtain ⟨b, a'⟩ := f n a
    cases b with
    | true => exact ih a'
    | false => rfl

theorem slotsForeach_map (hf : ∀ n a, f n (g a) = ((f n a).1, g (f n a).2))
    (tab : List (List (HNode α))) (n i : Nat) (a : σ) :
    slotsForeach f tab n i (g a) = (slotsForeach f tab n i a).map fun r => (r.1, g r.2) := by
  induction n generalizing i a with
  | zero => rfl
  | succ n ih =>
    refine bind_eq_map fun chain => ?_
    rw [chainForeach_map hf]
    obtain ⟨b, a'⟩ := chainForeach f chain a
    cases b with
    | true => exact ih (i + 1) a'
    | false => rfl

theorem hmForeach_map (hf : ∀ n a, f n (g a) = ((f n a).1, g (f n a).2)) (m : HMap α) (a : σ) :
    hmForeach m f (g a) = (hmForeach m f a).map g := by
  have hht : ∀ (ht : HTable α) (a : σ),
      hForeach ht f (g a) = (hForeach ht f a).map fun r => (r.1, g r.2) := fun ht a => by
    unfold hForeach
    cases ht.tab with
    | none => rfl
    | some tab => exact slotsForeach_map hf tab _ _ a
  refine bind_eq_map_of (hht m.newer a) fun ⟨b, a'⟩ => ?_
  cases b with
  | true => exact bind_eq_map_of (hht m.older a') fun _ => rfl
  | false => rfl

end

theorem allKeys_append : allKeys s (pre ++ resp) = (allKeys s resp).map (prepend pre) := by
  unfold allKeys
  rw [outArr_append]
  refine bind_eq_map_of (hmForeach_map (g := (pre ++ ·)) (fun n a => ?_) _ _) fun _ => rfl
  simp [cbKeys, outStr_append]

/-! ## Sorted sets -/

theorem zcmdAdd_append {key score name : Bytes} :
    zcmdAdd s key score name (pre ++ resp) = (zcmdAdd s key score name resp).map (prepend pre) := by
  unfold zcmdAdd
  cases str2dbl score with
  | none => simp [Except.map, prepend, outErr_append]
  | some score =>
    refine bind_eq_map fun ⟨found, s₁⟩ => ?_
    cases found with
    | none => simp [Except.map, prepend, outErr_append]
    | some p =>
      refine bind_eq_map fun ⟨added, zset⟩ => ?_
      simp [Except.map, prepend, outInt_append]

theorem zcmdRemove_append {key name : Bytes} :
    zcmdRemove s key name (pre ++ resp) = (zcmdRemove s key name resp).map (prepend pre) := by
  refine bind_eq_map fun ⟨expected, s₁⟩ => ?_
  cases expected with
  | badType => simp [Except.map, prepend, outErr_append]
  | missing =>
    refine bind_eq_map fun _ => ?_
    simp [Except.map, prepend, outInt_append]
  | entry p =>
    refine bind_eq_map fun ⟨found, zset⟩ => ?_
    cases found with
    | some znode =>
      refine bind_eq_map fun _ => ?_
      simp [Except.map, prepend, outInt_append]
    | none => simp [Except.map, prepend, outInt_append]

theorem zcmdScore_append {key name : Bytes} :
    zcmdScore s key name (pre ++ resp) = (zcmdScore s key name resp).map (prepend pre) := by
  refine bind_eq_map fun ⟨expected, s₁⟩ => ?_
  cases expected with
  | badType => simp [Except.map, prepend, outErr_append]
  | missing | entry _ =>
    refine bind_eq_map fun ⟨found, zset⟩ => ?_
    cases found with
    | some znode => simp [Except.map, prepend, outDbl_append]
    | none => simp [Except.map, prepend, outNil_append]

theorem queryOutput_append {zset : ZSet Double} {n fuel : Nat} {i : UInt32} {znode : Option ZPtr} :
    queryOutput zset n fuel i znode (pre ++ resp) =
      (queryOutput zset n fuel i znode resp).map (pre ++ ·) := by
  induction fuel generalizing i znode resp with
  | zero => rfl
  | succ fuel ih =>
    cases znode with
    | none => rfl
    | some znode =>
      unfold queryOutput
      split
      · refine bind_eq_map fun next => ?_
        rw [outStr_append, outDbl_append]
        exact ih
      · rfl

theorem queryZset_append {zset : ZSet Double} {score : Double} {name : Bytes} {offset limit : Int} :
    queryZset zset score name offset limit (pre ++ resp) =
      (queryZset zset score name offset limit resp).map (pre ++ ·) := by
  unfold queryZset
  rw [outArr_append]
  split
  · rfl
  · refine bind_eq_map fun found => ?_
    cases found with
    | none => rfl
    | some znode =>
      refine bind_eq_map fun start => ?_
      cases start with
      | none => rfl
      | some znode =>
        refine bind_eq_map fun n => ?_
        rw [outArr_append]
        exact queryOutput_append

theorem zcmdQuery_append {key score name offset limit : Bytes} :
    zcmdQuery s key score name offset limit (pre ++ resp) =
      (zcmdQuery s key score name offset limit resp).map (prepend pre) := by
  unfold zcmdQuery
  cases str2dbl score with
  | none => simp [Except.map, prepend, outErr_append]
  | some score =>
    cases str2int offset with
    | none => simp [Except.map, prepend, outErr_append]
    | some offset =>
      cases str2int limit with
      | none => simp [Except.map, prepend, outErr_append]
      | some limit =>
        refine bind_eq_map fun ⟨expected, s₁⟩ => ?_
        cases expected with
        | badType => simp [Except.map, prepend, outErr_append]
        | missing | entry _ => exact bind_eq_map_of queryZset_append fun _ => rfl

/-- What a request appends does not depend on what the buffer holds. -/
theorem runRequest_append {cmd : List Bytes} :
    runRequest now s cmd (pre ++ resp) = (runRequest now s cmd resp).map (prepend pre) := by
  unfold runRequest
  cases Request.ofCmd cmd with
  | ping => simp [Except.map, prepend, outStr_append]
  | get => exact getKey_append
  | set => exact setKey_append
  | del => exact delKey_append
  | keys => exact allKeys_append
  | zadd => exact zcmdAdd_append
  | zrem => exact zcmdRemove_append
  | zscore => exact zcmdScore_append
  | zquery => exact zcmdQuery_append
  | pttl => exact getTtlMs_append
  | pexpire => exact setTtlMs_append
  | unknown => simp [Except.map, prepend, outErr_append]

end MiniRedis
