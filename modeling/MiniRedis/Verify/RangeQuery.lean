import Mathlib.Data.List.Sort
import MiniRedis.Verify.History

/-! # What `zquery` answers

The members of a set in order form one list (`Listing`), whatever the shape of the tree. A query
answers with a stretch of that list. -/

namespace MiniRedis

/-- The order of the members: by score, then by name. -/
def memberLT (a b : Bytes × Double) : Prop :=
  a.2 < b.2 ∨ (a.2 ≤ b.2 ∧ b.2 ≤ a.2) ∧ a.1 < b.1

instance : DecidableRel memberLT := fun a b =>
  inferInstanceAs (Decidable (a.2 < b.2 ∨ (a.2 ≤ b.2 ∧ b.2 ≤ a.2) ∧ a.1 < b.1))

instance : Std.Irrefl memberLT where
  irrefl _ h := h.elim (lt_irrefl _) fun h => List.lt_irrefl _ h.2

instance : Std.Asymm memberLT where
  asymm a b hab hba := by
    rcases hab with hab | ⟨hle, hab⟩
    · rcases hba with hba | ⟨hle', -⟩
      · exact lt_asymm hab hba
      · exact not_lt_of_ge hle'.1 hab
    · rcases hba with hba | ⟨-, hba⟩
      · exact not_lt_of_ge hle.1 hba
      · exact List.lt_asymm hab hba

/-- `S` lists the members of a set in order. -/
structure Listing (scores : Bytes → Option Double) (S : List (Bytes × Double)) : Prop where
  sorted : S.Pairwise memberLT
  mem : ∀ name score, (name, score) ∈ S ↔ scores name = some score

/-- The members have only one such list. -/
theorem Listing.unique {scores : Bytes → Option Double} {S S' : List (Bytes × Double)}
    (h : Listing scores S) (h' : Listing scores S') : S = S' :=
  h.sorted.eq_of_mem_iff h'.sorted fun (name, score) =>
    (h.mem name score).trans (h'.mem name score).symm

/-- The name and the score of a node. -/
def ZSet.member (z : ZSet Double) (p : ZPtr) : Bytes × Double := ((z.node p).name, (z.node p).score)

theorem zless_member (z : ZSet Double) (p : ZPtr) (score : Double) (name : Bytes) :
    zless (z.node p) score name = decide (memberLT (z.member p) (name, score)) :=
  Bool.eq_iff_iff.mpr (zless_iff.trans decide_eq_true_iff.symm)

theorem ZSet.WF.listing {z : ZSet Double} {t : BinaryTree ZPtr} (h : z.WF t) :
    Listing z.scoreOf (t.inorder.map z.member) where
  sorted := List.pairwise_map.mpr (h.sorted.imp fun hab => zless_iff.mp hab)
  mem name score := by
    rw [h.scoreOf_eq_some]
    simp [ZSet.member]

/-- The nodes of the hash map, sorted, are the listing. -/
theorem ZSet.WF.listing_of_perm {z : ZSet Double} {t : BinaryTree ZPtr} {S : List (Bytes × Double)}
    (h : z.WF t) (hsorted : S.Pairwise memberLT)
    (hperm : (z.hmap.nodes.map fun n => z.member n.ref).Perm S) : Listing z.scoreOf S where
  sorted := hsorted
  mem name score := by
    have hrefs := h.refs.map z.member
    rw [List.map_map] at hrefs
    rw [← h.listing.mem, ← hperm.mem_iff, ← hrefs.mem_iff]
    rfl

/-! ## The stretch of a query -/

/-- The index of the first member that is not before `(score, name)`. -/
def seekIndex (S : List (Bytes × Double)) (score : Double) (name : Bytes) : Nat :=
  S.findIdx fun m => ¬ memberLT m (name, score)

/-- The members that a query covers, for an offset that `avl_offset` takes. -/
def querySlice (S : List (Bytes × Double)) (score : Double) (name : Bytes) (offset limit : Int) :
    List (Bytes × Double) :=
  let start := seekIndex S score name + offset
  if limit ≤ 0 ∨ S.length ≤ seekIndex S score name ∨ start < 0 then []
  else (S.drop start.toNat).take ((limit.toNat + 1) / 2)

/-- The values of some members: each name and its score. -/
def memberValues (ms : List (Bytes × Double)) : List Value :=
  ms.flatMap fun m => [.str m.1, .dbl m.2.bits]

theorem ZSet.queried_eq (z : ZSet Double) (t : BinaryTree ZPtr) (score : Double) (name : Bytes)
    (offset limit : Int) :
    (z.queried t score name offset limit).map z.member =
      querySlice (t.inorder.map z.member) score name (Int32.ofInt offset).toInt limit := by
  have hseek : seekIndex (t.inorder.map z.member) score name = z.rank t score name := by
    rw [seekIndex, ZSet.rank, List.findIdx_map]
    refine congrArg (List.findIdx · t.inorder) (funext fun p => ?_)
    rw [zless_member, ← decide_not]
    rfl
  simp only [queried, querySlice, hseek, List.length_map, BinaryTree.length_inorder]
  split
  · rfl
  · rw [List.map_take, List.map_drop]

theorem ZSet.pairs_eq (z : ZSet Double) (ps : List ZPtr) :
    z.pairs ps = memberValues (ps.map z.member) := by
  rw [pairs, memberValues, List.flatMap_map]
  rfl

/-- `zquery` answers with a stretch of the listing. -/
theorem ServerData.WF.zcmdQuery_slice {s : ServerData} {key scoreText offsetText limitText : Bytes}
    {x : Content} {S : List (Bytes × Double)} {score : Double} {offset limit : Int} (h : s.WF)
    (hset : zsetFor (s.contents key) = some x) (hS : Listing x.scores S) (hlen : S.length < 2 ^ 32)
    (hscore : str2dbl scoreText = some score) (hoffset : str2int offsetText = some offset)
    (hlimit : str2int limitText = some limit) (name resp : Bytes) :
    ∃ s', MiniRedis.zcmdQuery s key scoreText name offsetText limitText resp = .ok (s', (Value.arr
        (memberValues (querySlice S score name (Int32.ofInt offset).toInt limit))).write resp) ∧
      s'.contents = s.contents := by
  -- The set is that of the entry, or the empty set of a missing key.
  have hquery : ∀ (z : ZSet Double) (t : BinaryTree ZPtr), z.WF t → z.scoreOf = x.scores →
      queryZset z score name offset limit resp = .ok ((Value.arr (memberValues
        (querySlice S score name (Int32.ofInt offset).toInt limit))).write resp) := by
    intro z t ht hscores
    obtain rfl : S = t.inorder.map z.member := hS.unique (hscores ▸ ht.listing)
    rw [ht.queryZset (by simpa using hlen), ZSet.pairs_eq, ZSet.queried_eq]
  simp only [MiniRedis.zcmdQuery, hscore, hoffset, hlimit]
  rcases h.expectZset _ with ⟨p, s₁, hrun, h₁, -, hsame, hp, -, -, hx, -⟩ |
    ⟨s₁, hrun, -, -, hsame, hnone⟩ | ⟨s₁, -, -, -, -, hnone⟩
  · obtain ⟨t, ht⟩ := h₁.zsets p hp
    obtain rfl : x = s₁.content p := Option.some.inj (hset.symm.trans hx)
    exact ⟨s₁, by simp only [hrun, ok_bind, hquery _ t ht rfl, pure_eq_ok], hsame⟩
  · obtain rfl : x = .emptySet := by
      rw [hnone] at hset
      exact (Option.some.inj hset).symm
    exact ⟨s₁, by simp only [hrun, ok_bind, hquery _ _ .empty rfl, pure_eq_ok], hsame⟩
  · rw [hnone] at hset
    cases hset

theorem length_memberValues (ms : List (Bytes × Double)) :
    (memberValues ms).length = 2 * ms.length := by
  induction ms with
  | nil => rfl
  | cons m ms ih =>
    simp only [memberValues, List.flatMap_cons, List.length_append] at ih ⊢
    simp [ih]
    omega

/-- The slice is empty exactly if the start is not in the listing, or nothing is asked for. -/
theorem querySlice_eq_nil {S : List (Bytes × Double)} {score : Double} {name : Bytes}
    {offset limit : Int} :
    querySlice S score name offset limit = [] ↔
      limit ≤ 0 ∨ S.length ≤ seekIndex S score name ∨ seekIndex S score name + offset < 0 ∨
        (S.length : Int) ≤ seekIndex S score name + offset := by
  unfold querySlice
  simp only
  split
  · next hempty =>
    simp only [true_iff]
    omega
  · next hstart =>
    rw [List.take_eq_nil_iff, List.drop_eq_nil_iff]
    omega

/-- Where the start is in the listing, the slice begins there and takes half of the limit. -/
theorem querySlice_of_start {S : List (Bytes × Double)} {score : Double} {name : Bytes}
    {offset limit : Int} (hlimit : 0 < limit) (hseek : seekIndex S score name < S.length)
    (hstart : 0 ≤ seekIndex S score name + offset) :
    querySlice S score name offset limit =
      (S.drop (seekIndex S score name + offset).toNat).take ((limit.toNat + 1) / 2) :=
  if_neg (by omega)

/-- A query with valid numbers on a key that holds a set with the listing `S`, or on a missing key. -/
structure QueryOn (s : ServerData) (key scoreText offsetText limitText : Bytes)
    (S : List (Bytes × Double)) (score : Double) (offset limit : Int) : Prop where
  wf : s.WF
  set : ∃ x, zsetFor (s.contents key) = some x ∧ Listing x.scores S
  score : str2dbl scoreText = some score
  offset : str2int offsetText = some offset
  limit : str2int limitText = some limit

namespace QueryOn

variable {s : ServerData} {key scoreText offsetText limitText : Bytes} {S : List (Bytes × Double)}
  {score : Double} {offset limit : Int} {name : Bytes}

theorem answer (h : QueryOn s key scoreText offsetText limitText S score offset limit)
    (hlen : S.length < 2 ^ 32) (name resp : Bytes) :
    ∃ s', zcmdQuery s key scoreText name offsetText limitText resp = .ok (s',
      (Value.arr (memberValues (querySlice S score name (offset.bmod (2 ^ 32)) limit))).write resp) := by
  obtain ⟨x, hset, hS⟩ := h.set
  obtain ⟨s', hrun, -⟩ := h.wf.zcmdQuery_slice hset hS hlen h.score h.offset h.limit name resp
  exact ⟨s', by rw [hrun, Int32.toInt_ofInt]; rfl⟩

theorem bmod_of_fits (offset : Int) (h : -2 ^ 31 ≤ offset ∧ offset < 2 ^ 31) :
    offset.bmod (2 ^ 32) = offset :=
  Int.bmod_eq_of_le (by omega) (by omega)

/-- A set of two members with one score. -/
def twoMembers : List ServerOp :=
  [.request 0 [ascii ['z', 'a', 'd', 'd'], ascii ['k'], ascii ['1'], ascii ['a']],
    .request 0 [ascii ['z', 'a', 'd', 'd'], ascii ['k'], ascii ['1'], ascii ['b']]]

/-- `1.0` -/
def oneDouble : Double := ⟨0x3FF0000000000000, rfl⟩

def twoListing : List (Bytes × Double) := [(ascii ['a'], oneDouble), (ascii ['b'], oneDouble)]

theorem of_twoMembers (offsetText limitText : Bytes) (offset limit : Int)
    (hoffset : str2int offsetText = some offset) (hlimit : str2int limitText = some limit) :
    ∃ s, runSteps ServerOp.apply {} twoMembers = .ok s ∧
      QueryOn s (ascii ['k']) (ascii ['1']) offsetText limitText twoListing oneDouble offset limit := by
  obtain ⟨s, hs⟩ : ∃ s, runSteps ServerOp.apply {} twoMembers = .ok s := ⟨_, rfl⟩
  have hrefs : s.refs = [0] := eq_of_toOption_map hs (by decide +kernel)
  have htype : (s.entries 0).type = .zset :=
    eq_of_toOption_map (f := fun s => (s.entries 0).type) hs (by decide +kernel)
  have hkey : (s.entries 0).key = ascii ['k'] :=
    eq_of_toOption_map (f := fun s => (s.entries 0).key) hs (by decide +kernel)
  have hnodes : ((s.entries 0).zset.hmap.nodes.map fun n => (s.entries 0).zset.member n.ref) =
      twoListing.reverse :=
    eq_of_toOption_map (f := fun s => (s.entries 0).zset.hmap.nodes.map fun n =>
      (s.entries 0).zset.member n.ref) hs (by decide +kernel)
  obtain ⟨h, -⟩ := ServerData.WF.empty.run hs
  have hp : 0 ∈ s.refs := by simp [hrefs]
  obtain ⟨t, ht⟩ := h.zsets 0 hp
  have hlisting := ht.listing_of_perm (S := twoListing) (by decide)
    (hnodes ▸ List.reverse_perm twoListing)
  refine ⟨s, hs, h, ⟨s.content 0, ?_, hlisting⟩, by decide +kernel, hoffset, hlimit⟩
  have hcontents : s.contents (ascii ['k']) = some (s.content 0) := hkey ▸ h.contents_of_mem hp
  simp [hcontents, zsetFor, ServerData.content, htype]

/-- **Contiguous run.** A query with an offset of 32 bits answers with a stretch of the listing that
begins `offset` places after the first member that is not before `(score, name)`, if there is such a
place. It ends at the end of the listing or when the elements written reach the limit. -/
theorem answers_run (h : QueryOn s key scoreText offsetText limitText S score offset limit)
    (hsmall : S.length < 2 ^ 31) (hoffset : -2 ^ 31 ≤ offset ∧ offset < 2 ^ 31) (name resp : Bytes) :
    (limit ≤ 0 ∨ S.length ≤ seekIndex S score name ∨ seekIndex S score name + offset < 0 ∨
        (S.length : Int) ≤ seekIndex S score name + offset →
      ∃ s', zcmdQuery s key scoreText name offsetText limitText resp = .ok (s', outArr resp 0)) ∧
    (0 < limit ∧ seekIndex S score name < S.length ∧ 0 ≤ seekIndex S score name + offset ∧
        seekIndex S score name + offset < (S.length : Int) →
      ∃ (s' : ServerData) (ms : List (Bytes × Double)) (n : UInt32),
        zcmdQuery s key scoreText name offsetText limitText resp =
          .ok (s', writeAll (outArr resp n) (memberValues ms)) ∧
        n.toNat = 2 * ms.length ∧ ms ≠ [] ∧
        ms <+: S.drop (seekIndex S score name + offset).toNat ∧
        ((seekIndex S score name + offset).toNat + ms.length = S.length ∨
          limit ≤ 2 * ms.length ∧ 2 * ms.length ≤ limit + 1)) := by
  obtain ⟨s', hrun⟩ := h.answer (by omega) name resp
  rw [bmod_of_fits offset hoffset] at hrun
  constructor
  · intro hempty
    rw [querySlice_eq_nil.mpr hempty] at hrun
    exact ⟨s', hrun⟩
  · rintro ⟨hlimit, hseek, hstart, hend⟩
    have hne : querySlice S score name offset limit ≠ [] := fun hnil => by
      have := querySlice_eq_nil.mp hnil
      omega
    rw [querySlice_of_start hlimit hseek hstart] at hrun hne
    refine ⟨s', _, _, hrun, ?_, hne, List.take_prefix _ _, ?_⟩
    · rw [length_memberValues, List.length_take, List.length_drop]
      exact UInt32.toNat_ofNat_of_lt' (by simp only [UInt32.size]; omega)
    · rw [List.length_take, List.length_drop]
      omega

theorem answers_run_twoMembers :
    ∃ (s s' : ServerData) (ms : List (Bytes × Double)) (n : UInt32),
      runSteps ServerOp.apply {} twoMembers = .ok s ∧
      zcmdQuery s (ascii ['k']) (ascii ['1']) (ascii ['a']) (ascii ['1']) (ascii ['9']) [] =
        .ok (s', writeAll (outArr [] n) (memberValues ms)) ∧
      n.toNat = 2 * ms.length ∧ ms ≠ [] ∧ ms <+: [(ascii ['b'], oneDouble)] := by
  obtain ⟨s, hs, h⟩ := of_twoMembers (ascii ['1']) (ascii ['9']) 1 9 (by decide +kernel)
    (by decide +kernel)
  obtain ⟨s', ms, n, hrun, hn, hne, hpre, -⟩ := (h.answers_run (by decide) (by decide) (ascii ['a'])
    []).2 (by decide +kernel)
  have hdrop : twoListing.drop ((seekIndex twoListing oneDouble (ascii ['a']) : Int) + 1).toNat =
    [(ascii ['b'], oneDouble)] := by decide +kernel
  exact ⟨s, s', ms, n, hs, hrun, hn, hne, hdrop ▸ hpre⟩

/-- **Limit.** The number of pairs is the limit, or that of the members from the start on if it is
smaller, exactly if the limit is one or the members from the start on fill at most half of it. -/
theorem limit_counts_pairs_iff
    (h : QueryOn s key scoreText offsetText limitText S score offset limit)
    (hlen : S.length < 2 ^ 32) (hoffset : -2 ^ 31 ≤ offset ∧ offset < 2 ^ 31) (hlimit : 0 < limit)
    (hseek : seekIndex S score name < S.length) (hstart : 0 ≤ seekIndex S score name + offset)
    (hend : seekIndex S score name + offset < (S.length : Int)) (resp : Bytes) :
    ∃ (s' : ServerData) (pairs : Nat) (n : UInt32),
      zcmdQuery s key scoreText name offsetText limitText resp = .ok (s', writeAll (outArr resp n)
        (memberValues ((S.drop (seekIndex S score name + offset).toNat).take pairs))) ∧
      pairs ≤ S.length - (seekIndex S score name + offset) ∧
      ((pairs : Int) = min limit (S.length - (seekIndex S score name + offset)) ↔
        limit = 1 ∨ 2 * (S.length - (seekIndex S score name + offset)) ≤ limit + 1) := by
  obtain ⟨s', hrun⟩ := h.answer hlen name resp
  rw [bmod_of_fits offset hoffset, querySlice_of_start hlimit hseek hstart,
    List.take_eq_take_min] at hrun
  refine ⟨s', _, _, hrun, ?_, ?_⟩
  · rw [List.length_drop]
    omega
  · rw [List.length_drop]
    omega

theorem limit_counts_pairs_iff_twoMembers :
    ∃ (s s' : ServerData) (n : UInt32), runSteps ServerOp.apply {} twoMembers = .ok s ∧
      zcmdQuery s (ascii ['k']) (ascii ['1']) (ascii ['a']) (ascii ['0']) (ascii ['3']) [] =
        .ok (s', writeAll (outArr [] n) (memberValues twoListing)) := by
  obtain ⟨s, hs, h⟩ := of_twoMembers (ascii ['0']) (ascii ['3']) 0 3 (by decide +kernel)
    (by decide +kernel)
  have hlt : seekIndex twoListing oneDouble (ascii ['a']) < twoListing.length := by decide +kernel
  obtain ⟨s', pairs, n, hrun, -, hiff⟩ := h.limit_counts_pairs_iff (by decide) (by decide) (by decide)
    hlt (by decide +kernel) (by decide +kernel) []
  have hseek : seekIndex twoListing oneDouble (ascii ['a']) = 0 := by decide +kernel
  rw [hseek] at hrun hiff
  have hpairs : (pairs : Int) = 2 := hiff.mpr (.inr (by decide))
  obtain rfl : pairs = 2 := by omega
  exact ⟨s, s', n, hs, hrun⟩

/-- With the limit two, only one of the two members is in the answer. -/
theorem limit_halved_twoMembers :
    ∃ s s', runSteps ServerOp.apply {} twoMembers = .ok s ∧
      QueryOn s (ascii ['k']) (ascii ['1']) (ascii ['0']) (ascii ['2']) twoListing oneDouble 0 2 ∧
      seekIndex twoListing oneDouble (ascii ['a']) = 0 ∧
      zcmdQuery s (ascii ['k']) (ascii ['1']) (ascii ['a']) (ascii ['0']) (ascii ['2']) [] =
        .ok (s', writeAll (outArr [] 2) (memberValues [(ascii ['a'], oneDouble)])) ∧
      [(ascii ['a'], oneDouble)].length ≠ min 2 (twoListing.length - 0) := by
  obtain ⟨s, hs, h⟩ := of_twoMembers (ascii ['0']) (ascii ['2']) 0 2 (by decide +kernel)
    (by decide +kernel)
  obtain ⟨s', hrun⟩ := h.answer (by decide) (ascii ['a']) []
  have hslice : querySlice twoListing oneDouble (ascii ['a']) (Int.bmod 0 (2 ^ 32)) 2 =
      [(ascii ['a'], oneDouble)] := by decide +kernel
  rw [hslice] at hrun
  exact ⟨s, s', hs, h, by decide +kernel, hrun, by decide⟩

theorem length_writeAll_memberValues {ms : List (Bytes × Double)} (out : Bytes) (hms : ms ≠ []) :
    out.length < (writeAll out (memberValues ms)).length := by
  cases ms with
  | nil => exact absurd rfl hms
  | cons m ms =>
    rw [writeAll_eq]
    simp only [memberValues, List.flatMap_cons, List.cons_append, writeAll, List.length_append]
    rw [writeAll_eq]
    simp [Value.write, outDbl, outStr, appendBufferU8, appendBufferF64]

/-- The offset that `avl_offset` gets leads out of a set of `n` members. -/
def OffsetLeavesSet (n rank : Nat) (offset : Int) : Prop :=
  (-2 ^ 31 ≤ offset ∧ offset < 2 ^ 31) ∨ rank + offset.bmod (2 ^ 32) < 0 ∨
    (n : Int) ≤ rank + offset.bmod (2 ^ 32)

/-- **Out-of-range offsets.** An offset is reduced to 32 bits on its way to `avl_offset`. A query
whose offset is at least the number of members is answered with nothing exactly if nothing is asked
for, there is no member to start from, or the reduced offset leads out of the set as well; and
`znode_offset` gives `NULL` for a rank out of the set exactly if the reduced offset leads out. -/
theorem offset_out_of_range_iff
    (h : QueryOn s key scoreText offsetText limitText S score offset limit)
    (hsmall : S.length < 2 ^ 31) (hout : S.length ≤ offset.natAbs) (name resp : Bytes) :
    ((∃ s', zcmdQuery s key scoreText name offsetText limitText resp = .ok (s', outArr resp 0)) ↔
      limit ≤ 0 ∨ S.length ≤ seekIndex S score name ∨
        OffsetLeavesSet S.length (seekIndex S score name) offset) ∧
    ∀ (z : ZSet Double) (t : BinaryTree ZPtr) (rank : Nat) (p : ZPtr), z.WF t →
      t.numNodes < 2 ^ 31 → t.inorder[rank]? = some p →
      rank + offset < 0 ∨ (t.numNodes : Int) ≤ rank + offset →
      (znodeOffset z p offset = .ok none ↔ OffsetLeavesSet t.numNodes rank offset) := by
  constructor
  · obtain ⟨s', hrun⟩ := h.answer (by omega) name resp
    have hnil : querySlice S score name (offset.bmod (2 ^ 32)) limit = [] ↔
        limit ≤ 0 ∨ S.length ≤ seekIndex S score name ∨
          OffsetLeavesSet S.length (seekIndex S score name) offset := by
      rw [querySlice_eq_nil, OffsetLeavesSet]
      -- An offset of 32 bits is not changed, and leads out by itself.
      have hfits := bmod_of_fits offset
      omega
    rw [hrun, ← hnil]
    constructor
    · rintro ⟨s'', heq⟩
      by_contra hne
      have hlt := length_writeAll_memberValues (outArr resp (.ofNat
        (memberValues (querySlice S score name (offset.bmod (2 ^ 32)) limit)).length)) hne
      have hbytes := congrArg List.length (Prod.mk.inj (Except.ok.inj heq)).2
      simp only [Value.write] at hbytes
      rw [hbytes] at hlt
      simp [outArr, appendBufferU8, appendBufferU32] at hlt
    · intro hempty
      rw [hempty]
      exact ⟨s', rfl⟩
  · intro z t rank p hz hn hp hout'
    have hfits := bmod_of_fits offset
    have hsize : offset.bmod Int32.size = offset.bmod (2 ^ 32) := rfl
    rw [hz.offset (by omega) hp, Except.ok.injEq, atRank_eq_none, BinaryTree.length_inorder,
      Int32.toInt_ofInt, hsize, OffsetLeavesSet]
    omega

theorem offset_out_of_range_iff_twoMembers :
    ∃ s s', runSteps ServerOp.apply {} twoMembers = .ok s ∧
      zcmdQuery s (ascii ['k']) (ascii ['1']) (ascii ['a']) (ascii ['-', '2']) (ascii ['9']) [] =
        .ok (s', outArr [] 0) := by
  obtain ⟨s, hs, h⟩ := of_twoMembers (ascii ['-', '2']) (ascii ['9']) (-2) 9 (by decide +kernel)
    (by decide +kernel)
  obtain ⟨s', hrun⟩ := (h.offset_out_of_range_iff (by decide) (by decide) (ascii ['a']) []).1.mpr
    (.inr (.inr (.inl (by decide))))
  exact ⟨s, s', hs, hrun⟩

/-- The offset `2 ^ 32` becomes `0`. -/
theorem offset_wraps_twoMembers :
    ∃ s s', runSteps ServerOp.apply {} twoMembers = .ok s ∧
      QueryOn s (ascii ['k']) (ascii ['1']) (ascii ['4', '2', '9', '4', '9', '6', '7', '2', '9', '6'])
        (ascii ['9']) twoListing oneDouble (2 ^ 32) 9 ∧
      twoListing.length ≤ (2 ^ 32 : Int).natAbs ∧
      zcmdQuery s (ascii ['k']) (ascii ['1']) (ascii ['a'])
          (ascii ['4', '2', '9', '4', '9', '6', '7', '2', '9', '6']) (ascii ['9']) [] =
        .ok (s', (Value.arr (memberValues twoListing)).write []) ∧
      (Value.arr (memberValues twoListing)).write [] ≠ outArr [] 0 := by
  obtain ⟨s, hs, h⟩ := of_twoMembers
    (ascii ['4', '2', '9', '4', '9', '6', '7', '2', '9', '6']) (ascii ['9']) (2 ^ 32) 9
    (by decide +kernel) (by decide +kernel)
  obtain ⟨s', hrun⟩ := h.answer (by decide) (ascii ['a']) []
  have hslice : querySlice twoListing oneDouble (ascii ['a']) (Int.bmod (2 ^ 32) (2 ^ 32)) 9 =
      twoListing := by decide +kernel
  rw [hslice] at hrun
  exact ⟨s, s', hs, h, by decide, hrun, by decide +kernel⟩

end QueryOn

end MiniRedis
