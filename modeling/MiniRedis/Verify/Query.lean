import MiniRedis.Model.Commands
import MiniRedis.Verify.AvlOffset
import MiniRedis.Verify.Format
import MiniRedis.Verify.SortedSet

/-! # Range queries

`zset_seek_greater_equal` finds a position in the order of the set, `znode_offset` moves it, and the
two loops of `zquery` walk on from there. `ZSet.queried` is the stretch of the order that they
cover. -/

namespace MiniRedis

open BinaryTree

section
variable [Preorder σ] [DecidableLE σ] [DecidableLT σ] {z : ZSet σ} {t : BinaryTree ZPtr} {p : ZPtr}

/-- In the order of the set, whatever stands before a node that is before the key is before the key. -/
theorem Ascending.find?_eq {l r : BinaryTree ZPtr} {score : σ} {name : Bytes}
    (h : Ascending z.node (node p l r).inorder) :
    ((node p l r).inorder.find? fun q => !zless (z.node q) score name) =
      if zless (z.node p) score name then r.inorder.find? fun q => !zless (z.node q) score name
      else (l.inorder.find? fun q => !zless (z.node q) score name).or (some p) := by
  rw [inorder_node, List.find?_append]
  split
  · next hless =>
    have hnone : (l.inorder.find? fun q => !zless (z.node q) score name) = none := by
      refine List.find?_eq_none.mpr fun q hq => ?_
      have hqp : (z.node q).Before (z.node p) :=
        (List.pairwise_append.mp (inorder_node p l r ▸ h)).2.2 q hq p List.mem_cons_self
      have hless' : zless (z.node q) score name = true :=
        hqp.trans (c := { hashCode := 0, score, name }) hless
      simpa using hless'
    simp [hnone, hless]
  · next hless => simp [hless]

theorem seekLoop_eq {parent : Option ZPtr} {fuel : Nat} {score : σ} {name : Bytes}
    (h : Rep z.tree parent t) (hsorted : Ascending z.node t.inorder) (hfuel : t.height < fuel)
    (found : Option ZPtr) :
    seekLoop z score name fuel t.root? found =
      .ok ((t.inorder.find? fun q => !zless (z.node q) score name).or found) := by
  induction t generalizing parent fuel found with
  | nil =>
    obtain ⟨fuel, rfl⟩ : ∃ n, fuel = n + 1 := ⟨fuel - 1, by omega⟩
    simp [seekLoop]
  | node p l r ihl ihr =>
    obtain ⟨fuel, rfl⟩ : ∃ n, fuel = n + 1 := ⟨fuel - 1, by omega⟩
    obtain ⟨hp, hl, hr⟩ := h
    simp only [height] at hfuel
    rw [hsorted.find?_eq]
    obtain ⟨hsl, hsr, -⟩ := List.pairwise_append.mp (inorder_node p l r ▸ hsorted)
    simp only [root?_node, seekLoop, hp, cell]
    split
    · exact ihr hr (List.pairwise_cons.mp hsr).2 (by omega) found
    · rw [ihl hl hsl (by omega) (some p)]
      simp

/-- The position of the first node that is not before `(score, name)`. -/
def ZSet.rank (z : ZSet σ) (t : BinaryTree ZPtr) (score : σ) (name : Bytes) : Nat :=
  t.inorder.findIdx fun p => !zless (z.node p) score name

theorem ZSet.WF.seek (h : z.WF t) (score : σ) (name : Bytes) :
    zsetSeekGreaterEqual z score name = .ok t.inorder[z.rank t score name]? := by
  rw [zsetSeekGreaterEqual, h.tree.root, seekLoop_eq h.tree.rep h.sorted h.tree.height_lt]
  simp [ZSet.rank, List.find?_eq_getElem?_findIdx]

theorem ZSet.WF.offset (h : z.WF t) (hn : t.numNodes < 2 ^ 32) {i : Nat}
    (hp : t.inorder[i]? = some p) (offset : Int) :
    znodeOffset z p offset = .ok (atRank t.inorder (i + (Int32.ofInt offset).toInt)) :=
  h.tree.offset_eq hn hp _

theorem ZSet.WF.next (h : z.WF t) (hn : t.numNodes < 2 ^ 32) {i : Nat}
    (hp : t.inorder[i]? = some p) : znodeOffset z p 1 = .ok t.inorder[i + 1]? := by
  have h1 : (Int32.ofInt 1).toInt = 1 := by decide
  have hpos : (0 : Int) ≤ (i : Int) + 1 := by omega
  rw [h.offset hn hp, h1, atRank, if_pos hpos]
  rfl

end

/-- The nodes that a query covers. -/
def ZSet.queried (z : ZSet Double) (t : BinaryTree ZPtr) (score : Double) (name : Bytes)
    (offset limit : Int) : List ZPtr :=
  let i := z.rank t score name
  let start := i + (Int32.ofInt offset).toInt
  if limit ≤ 0 ∨ t.numNodes ≤ i ∨ start < 0 then []
  else (t.inorder.drop start.toNat).take ((limit.toNat + 1) / 2)

/-- The values of a stretch of nodes: each name and its score. -/
def ZSet.pairs (z : ZSet Double) (ps : List ZPtr) : List Value :=
  ps.flatMap fun p => [.str (z.node p).name, .dbl (z.node p).score.bits]

variable {z : ZSet Double} {t : BinaryTree ZPtr} {limit fuel j n : Nat} {p : ZPtr}

theorem ZSet.length_pairs (ps : List ZPtr) : (z.pairs ps).length = 2 * ps.length := by
  induction ps with
  | nil => rfl
  | cons p ps ih =>
    simp only [pairs, List.flatMap_cons, List.length_append] at ih ⊢
    simp [ih]
    omega

theorem ZSet.WF.queryCount (h : z.WF t) (hn : t.numNodes < 2 ^ 32)
    (hfuel : t.numNodes - j < fuel) :
    queryCount z limit fuel t.inorder[j]? n =
      .ok (n + 2 * min ((limit - n + 1) / 2) (t.numNodes - j)) := by
  induction fuel generalizing j n with
  | zero => omega
  | succ fuel ih =>
    cases hp : t.inorder[j]? with
    | none =>
      have : t.numNodes ≤ j := by simpa using hp
      simp [MiniRedis.queryCount, Nat.sub_eq_zero_of_le this]
    | some p =>
      have hj : j < t.numNodes := by simpa using (List.getElem?_eq_some_iff.mp hp).1
      simp only [MiniRedis.queryCount]
      split
      · rw [h.next hn hp, ok_bind, ih (by omega)]
        congr 1
        omega
      · rw [Nat.sub_eq_zero_of_le (by omega)]
        simp

theorem ZSet.WF.queryOutput {i : UInt32} (h : z.WF t) (hn : t.numNodes < 2 ^ 32)
    (hfuel : t.numNodes - j < fuel) (hi : i.toNat + (t.numNodes - j) < 2 ^ 32) (resp : Bytes) :
    queryOutput z n fuel i t.inorder[j]? resp =
      .ok (writeAll resp (z.pairs ((t.inorder.drop j).take (n / 2 - i.toNat)))) := by
  induction fuel generalizing j i resp with
  | zero => omega
  | succ fuel ih =>
    cases hp : t.inorder[j]? with
    | none =>
      have : t.inorder.length ≤ j := by simpa using hp
      simp [MiniRedis.queryOutput, List.drop_eq_nil_of_le this, ZSet.pairs, writeAll]
    | some p =>
      obtain ⟨hlen, hget⟩ := List.getElem?_eq_some_iff.mp hp
      have hj : j < t.numNodes := by simpa using hlen
      simp only [MiniRedis.queryOutput]
      split
      · next hlt =>
        have hsucc : (i + 1).toNat = i.toNat + 1 := by
          rw [UInt32.toNat_add, UInt32.toNat_one, Nat.mod_eq_of_lt (by omega)]
        rw [h.next hn hp, ok_bind, ih (by omega) (by omega), hsucc, List.drop_eq_getElem_cons hlen, hget]
        obtain ⟨k, hk⟩ : ∃ k, n / 2 - i.toNat = k + 1 := ⟨n / 2 - i.toNat - 1, by omega⟩
        rw [hk, show n / 2 - (i.toNat + 1) = k by omega]
        simp [ZSet.pairs, writeAll, Value.write]
      · rw [Nat.sub_eq_zero_of_le (by omega)]
        simp [ZSet.pairs, writeAll]

/-- A query answers with the pairs of the nodes that it covers. -/
theorem ZSet.WF.queryZset (h : z.WF t) (hn : t.numNodes < 2 ^ 32) (score : Double) (name : Bytes)
    (offset limit : Int) (resp : Bytes) :
    queryZset z score name offset limit resp =
      .ok ((Value.arr (z.pairs (z.queried t score name offset limit))).write resp) := by
  have hempty : (Value.arr (z.pairs [])).write resp = outArr resp 0 := rfl
  simp only [MiniRedis.queryZset, ZSet.queried]
  by_cases hlimit : limit ≤ 0
  · simp only [hlimit, if_true, true_or, hempty, pure_eq_ok]
  simp only [hlimit, if_false, false_or, h.seek, ok_bind]
  by_cases hi : t.numNodes ≤ z.rank t score name
  · have hnone : t.inorder[z.rank t score name]? = none :=
      List.getElem?_eq_none (by simpa using hi)
    simp only [hnone, hi, true_or, if_true, hempty, pure_eq_ok]
  obtain ⟨p, hp⟩ : ∃ p, t.inorder[z.rank t score name]? = some p :=
    ⟨_, List.getElem?_eq_getElem (by simpa using hi)⟩
  simp only [hp, hi, false_or, h.offset hn hp, ok_bind, atRank]
  generalize hstart : (z.rank t score name : Int) + (Int32.ofInt offset).toInt = start
  by_cases hneg : start < 0
  · simp only [if_neg (Int.not_le.mpr hneg), hneg, if_true, hempty, pure_eq_ok]
  simp only [if_pos (Int.not_lt.mp hneg), hneg, if_false]
  cases hq : t.inorder[start.toNat]? with
  | none =>
    have hlen : t.inorder.length ≤ start.toNat := by simpa using hq
    simp only [List.drop_eq_nil_of_le hlen, List.take_nil, hempty, pure_eq_ok]
  | some q =>
    have hfuel : t.numNodes - start.toNat < addressSpace := by
      simp only [addressSpace]
      omega
    simp only [← hq, h.queryCount hn hfuel, ok_bind,
      h.queryOutput hn hfuel (i := 0) (by simp only [UInt32.toNat_zero]; omega)]
    -- The counting loop stops where the writing loop does, also at the end of the order.
    have htake : (t.inorder.drop start.toNat).take
          (min ((limit.toNat + 1) / 2) (t.numNodes - start.toNat)) =
        (t.inorder.drop start.toNat).take ((limit.toNat + 1) / 2) := by
      rw [← List.take_take, List.take_of_length_le (l := t.inorder.drop start.toNat) (by simp)]
    have hcount : (z.pairs ((t.inorder.drop start.toNat).take ((limit.toNat + 1) / 2))).length =
        2 * min ((limit.toNat + 1) / 2) (t.numNodes - start.toNat) := by
      simp [ZSet.length_pairs]
    rw [Value.write, hcount]
    simp [htake]

/-! ## The query of one member -/

theorem avlOffset_zero (m : AVLMem ZPtr) (p : ZPtr) : avlOffset m (some p) 0 = .ok (some p) := by
  obtain ⟨fuel, hfuel⟩ : ∃ fuel, addressSpace = fuel + 1 := ⟨2 ^ 64 - 1, rfl⟩
  simp [avlOffset, hfuel, avlOffsetLoop]

/-- The search for the score and the name of a node ends at the node. -/
theorem ZSet.WF.seek_self (h : z.WF t) (hp : p ∈ t.inorder) :
    zsetSeekGreaterEqual z (z.node p).score (z.node p).name = .ok (some p) := by
  obtain ⟨as, bs, hsplit⟩ := List.append_of_mem hp
  have hsorted := hsplit ▸ h.sorted
  have hbefore : ∀ q ∈ as, zless (z.node q) (z.node p).score (z.node p).name = true := fun q hq =>
    (List.pairwise_append.mp hsorted).2.2 q hq p List.mem_cons_self
  have hself : zless (z.node p) (z.node p).score (z.node p).name = false := by
    rw [Bool.eq_false_iff, ne_eq, zless_iff]
    rintro (hlt | ⟨-, hlt⟩)
    · exact lt_irrefl _ hlt
    · exact List.lt_irrefl _ hlt
  have hnone : (as.find? fun q => !zless (z.node q) (z.node p).score (z.node p).name) = none :=
    List.find?_eq_none.mpr fun q hq => by simp [hbefore q hq]
  rw [h.seek, ZSet.rank, ← List.find?_eq_getElem?_findIdx, hsplit, List.find?_append, hnone,
    List.find?_cons_of_pos (by simp [hself])]
  rfl

/-- A query of one pair from a member on, if it returns, answers with the member. The number of
members does not matter: only the step to the next one depends on it. -/
theorem ZSet.WF.queryZset_self (h : z.WF t) (hp : p ∈ t.inorder) {resp resp' : Bytes}
    (hrun : MiniRedis.queryZset z (z.node p).score (z.node p).name 0 1 resp = .ok resp') :
    resp' = (Value.arr (z.pairs [p])).write resp := by
  obtain ⟨fuel, hfuel⟩ : ∃ fuel, addressSpace = fuel + 2 := ⟨2 ^ 64 - 2, rfl⟩
  have hstay : znodeOffset z p 0 = .ok (some p) := avlOffset_zero z.tree p
  cases hnext : znodeOffset z p 1 with
  | error e =>
    simp [MiniRedis.queryZset, h.seek_self hp, hstay, hfuel, MiniRedis.queryCount, hnext] at hrun
  | ok iter =>
    cases iter with
    | none =>
      simp [MiniRedis.queryZset, h.seek_self hp, hstay, hfuel, MiniRedis.queryCount, hnext,
        MiniRedis.queryOutput] at hrun
      exact hrun.symm
    | some q =>
      simp [MiniRedis.queryZset, h.seek_self hp, hstay, hfuel, MiniRedis.queryCount, hnext,
        MiniRedis.queryOutput] at hrun
      exact hrun.symm

end MiniRedis
