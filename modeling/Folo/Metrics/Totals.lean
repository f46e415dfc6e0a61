import Folo.Metrics.Bags

/-!
# Totals

The totals of a bag are a count, a sum and a count for each bucket. Recording
adds what the observation counts for, merging adds the totals of the other
bag, and copying a bag of the push model whose clean buckets have not changed
gives the bag copied to the same totals.
-/

namespace Folo.Metrics

open Folo.Lib

instance addCommMonoidInt64 : AddCommMonoid Int64 where
  add_assoc := Int64.add_assoc
  zero_add := Int64.zero_add
  add_zero := Int64.add_zero
  add_comm := Int64.add_comm
  nsmul := nsmulRec

abbrev Totals := UInt64 × Int64 × (Nat → UInt64)

/-- What an observation counts for in a bag with these buckets. -/
def Observation.totals (bucketMagnitudes : List Magnitude) (o : Observation) : Totals :=
  (o.count, o.magnitude * o.count.toInt64,
    fun i => if selectBucket bucketMagnitudes o.magnitude = some i then o.count else 0)

theorem Observation.totals_of_count_eq_zero {mags : List Magnitude} {o : Observation}
    (hzero : o.count = 0) : o.totals mags = 0 := by
  rw [Observation.totals, hzero]
  refine Prod.ext rfl (Prod.ext (Int64.mul_zero ..) (funext fun i => ?_))
  exact ite_self _

def totalsOf (bucketMagnitudes : List Magnitude) (os : List Observation) : Totals :=
  (os.map (Observation.totals bucketMagnitudes)).sum

theorem totalsOf_append (mags : List Magnitude) (os os' : List Observation) :
    totalsOf mags (os ++ os') = totalsOf mags os + totalsOf mags os' := by
  rw [totalsOf, List.map_append, List.sum_append]
  rfl

theorem totalsOf_concat (mags : List Magnitude) (os : List Observation) (o : Observation) :
    totalsOf mags (os ++ [o]) = totalsOf mags os + o.totals mags := by
  rw [totalsOf_append]
  exact congrArg (totalsOf mags os + ·) (List.sum_singleton ..)

/-- How many observations there are. -/
def countOf (os : List Observation) : Nat :=
  (os.map fun o => o.count.toNat).sum

theorem countOf_append (os os' : List Observation) :
    countOf (os ++ os') = countOf os + countOf os' := by
  rw [countOf, List.map_append, List.sum_append]
  rfl

theorem fst_totalsOf (mags : List Magnitude) (os : List Observation) :
    (totalsOf mags os).1 = UInt64.ofNat (countOf os) := by
  induction os with
  | nil => rfl
  | cons o os ih =>
    rw [countOf, List.map_cons, List.sum_cons, UInt64.ofNat_add, UInt64.ofNat_toNat]
    exact congrArg (o.count + ·) ih

/-- If nothing is counted, nothing was observed. -/
theorem totalsOf_eq_zero {mags : List Magnitude} {os : List Observation}
    (hzero : (totalsOf mags os).1 = 0) (hlt : countOf os < 2 ^ 64) : totalsOf mags os = 0 := by
  rw [fst_totalsOf] at hzero
  have hcount : countOf os = 0 := by
    have heq := congrArg UInt64.toNat hzero
    rw [UInt64.toNat_ofNat', Nat.mod_eq_of_lt hlt] at heq
    exact heq
  refine List.sum_eq_zero fun t ht => ?_
  obtain ⟨o, ho, rfl⟩ := List.mem_map.mp ht
  refine Observation.totals_of_count_eq_zero (UInt64.toNat_inj.mp ?_)
  exact List.sum_eq_zero_iff_forall_eq_nat.mp hcount _ (List.mem_map_of_mem ho)

/-- What was observed since a prefix counts for nothing, if the counts are the
same. -/
theorem totalsOf_eq_of_prefix {mags : List Magnitude} {os os' : List Observation}
    (hbegins : os <+: os') (hcount : (totalsOf mags os).1 = (totalsOf mags os').1)
    (hlt : countOf os' < 2 ^ 64) : totalsOf mags os' = totalsOf mags os := by
  obtain ⟨rest, rfl⟩ := hbegins
  rw [totalsOf_append] at hcount ⊢
  rw [countOf_append] at hlt
  have hrest : (totalsOf mags rest).1 = 0 := left_eq_add.mp hcount
  rw [totalsOf_eq_zero hrest (by omega), add_zero]

namespace ObservationBagSync

variable {bag other merged : ObservationBagSync}

def totals (bag : ObservationBagSync) : Totals :=
  (bag.count, bag.sum, fun i => bag.bucketCounts.getD i 0)

/-- There is a count for each bucket. -/
def Shaped (bag : ObservationBagSync) : Prop :=
  bag.bucketCounts.length = bag.bucketMagnitudes.length

theorem shaped_new (mags : List Magnitude) : (new mags).Shaped :=
  List.length_replicate

theorem totals_new (mags : List Magnitude) : (new mags).totals = 0 := by
  refine Prod.ext rfl (Prod.ext rfl (funext fun i => ?_))
  show (List.replicate mags.length (0 : UInt64)).getD i 0 = 0
  rw [List.getD_eq_getElem?_getD, List.getElem?_replicate]
  split <;> rfl

theorem bucketMagnitudes_insert (o : Observation) :
    (bag.insert o).bucketMagnitudes = bag.bucketMagnitudes := by
  rw [insert]
  split <;> rfl

theorem selectBucket_lt {mags : List Magnitude} {m : Magnitude} {i : Nat}
    (h : selectBucket mags m = some i) : i < mags.length :=
  (List.findIdx?_eq_some_iff_getElem.mp h).1

theorem shaped_insert (h : bag.Shaped) (o : Observation) : (bag.insert o).Shaped := by
  rw [Shaped, bucketMagnitudes_insert, insert]
  split
  · exact h
  · dsimp only
    split
    · rw [List.length_modify]
      exact h
    · exact h

theorem getD_modify {xs : List UInt64} {k : Nat} (hk : k < xs.length) (c : UInt64) (i : Nat) :
    (xs.modify k (· + c)).getD i 0 = xs.getD i 0 + if k = i then c else 0 := by
  rw [List.getD_eq_getElem?_getD, List.getD_eq_getElem?_getD]
  by_cases hi : k = i
  · subst hi
    rw [List.getElem?_modify_eq, List.getElem?_eq_getElem hk, if_pos rfl]
    rfl
  · rw [List.getElem?_modify_ne _ _ hi, if_neg hi, UInt64.add_zero]

theorem totals_insert (h : bag.Shaped) (o : Observation) :
    (bag.insert o).totals = bag.totals + o.totals bag.bucketMagnitudes := by
  rw [insert]
  by_cases hzero : o.count = 0
  · rw [if_pos hzero, Observation.totals_of_count_eq_zero hzero, add_zero]
  · rw [if_neg hzero]
    unfold Observation.totals
    cases hbucket : selectBucket bag.bucketMagnitudes o.magnitude with
    | none =>
      refine Prod.ext rfl (Prod.ext rfl (funext fun i => ?_))
      show bag.bucketCounts.getD i 0 = bag.bucketCounts.getD i 0 + if none = some i then o.count else 0
      rw [if_neg (by rintro ⟨⟩)]
      exact (UInt64.add_zero _).symm
    | some k =>
      refine Prod.ext rfl (Prod.ext rfl (funext fun i => ?_))
      show (bag.bucketCounts.modify k (· + o.count)).getD i 0 =
        bag.bucketCounts.getD i 0 + if some k = some i then o.count else 0
      have hlt : k < bag.bucketCounts.length := by
        rw [h]
        exact selectBucket_lt hbucket
      rw [getD_modify hlt]
      by_cases hk : k = i
      · rw [if_pos hk, if_pos (congrArg some hk)]
      · rw [if_neg hk, if_neg fun heq => hk (Option.some.inj heq)]

theorem length_addCounts (xs ys : List UInt64) : (addCounts xs ys).length = xs.length := by
  induction xs generalizing ys with
  | nil => cases ys <;> rfl
  | cons x xs ih =>
    cases ys with
    | nil => rfl
    | cons y ys => exact congrArg Nat.succ (ih ys)

theorem getD_addCounts {xs ys : List UInt64} (h : xs.length = ys.length) (i : Nat) :
    (addCounts xs ys).getD i 0 = xs.getD i 0 + ys.getD i 0 := by
  induction xs generalizing ys i with
  | nil =>
    obtain rfl := List.length_eq_zero_iff.mp h.symm
    rfl
  | cons x xs ih =>
    cases ys with
    | nil => exact nomatch h
    | cons y ys =>
      cases i with
      | zero => rfl
      | succ i => exact ih (Nat.succ.inj h) i

theorem mergeFrom_eq_none : bag.mergeFrom other = none ↔
    bag.bucketMagnitudes ≠ other.bucketMagnitudes := by
  rw [mergeFrom, isCompatibleWith]
  by_cases h : bag.bucketMagnitudes = other.bucketMagnitudes
  · rw [if_pos (decide_eq_true h)]
    exact iff_of_false nofun fun hne => hne h
  · rw [if_neg fun hd => h (of_decide_eq_true hd)]
    exact iff_of_true rfl h

/-- Merging keeps the shape and adds the totals. -/
theorem mergeFrom_spec (h : bag.mergeFrom other = some merged) :
    bag.bucketMagnitudes = other.bucketMagnitudes ∧
      merged.bucketMagnitudes = bag.bucketMagnitudes ∧
      (bag.Shaped → merged.Shaped) ∧
      (bag.Shaped → other.Shaped → merged.totals = bag.totals + other.totals) := by
  rw [mergeFrom] at h
  split at h
  · next hcompatible =>
    have hsame : bag.bucketMagnitudes = other.bucketMagnitudes := of_decide_eq_true hcompatible
    obtain rfl := Option.some.inj h
    refine ⟨hsame, rfl, fun hb => (length_addCounts ..).trans hb, fun hb ho => ?_⟩
    refine Prod.ext rfl (Prod.ext rfl (funext fun i => getD_addCounts ?_ i))
    rw [hb, hsame, ho]
  · exact nomatch h

end ObservationBagSync

/-! ## Copying -/

section Copying

variable {value : BitVec 64}

theorem trailingZeros_spec (h : value ≠ 0) :
    value.getLsbD (trailingZeros value) = true ∧
      ∀ j, j < trailingZeros value → value.getLsbD j = false := by
  rw [trailingZeros]
  cases hfind : (List.range 64).find? fun i => value.getLsbD i with
  | none =>
    -- a word without a set bit is 0
    refine absurd (BitVec.eq_of_getLsbD_eq fun i hi => ?_) h
    have hnot := List.find?_eq_none.mp hfind i (List.mem_range.mpr hi)
    rw [Bool.not_eq_true] at hnot
    rw [hnot]
    exact (BitVec.getLsbD_zero).symm
  | some k =>
    obtain ⟨hk, i, hi, hat, hbefore⟩ := List.find?_eq_some_iff_getElem.mp hfind
    rw [List.getElem_range] at hat
    subst hat
    refine ⟨hk, fun j hj => ?_⟩
    have hnot := hbefore j hj
    rw [List.getElem_range] at hnot
    exact (Bool.not_eq_true' _).mp hnot

theorem getLsbD_clearLowestSetBit (h : value ≠ 0) (j : Nat) :
    (clearLowestSetBit value).getLsbD j = (value.getLsbD j && decide (j ≠ trailingZeros value)) := by
  obtain ⟨hset, hclear⟩ := trailingZeros_spec h
  have hpred : (value - 1).toNat = value.toNat - 1 := by
    have hpos : value.toNat ≠ 0 := fun h0 => h (BitVec.eq_of_toNat_eq h0)
    bv_omega
  show (value &&& (value - 1)).toNat.testBit j = _
  rw [BitVec.toNat_and, hpred]
  exact testBit_and_pred hset hclear j

variable {source target : List UInt64}

theorem getD_set {xs : List UInt64} {k : Nat} {v : UInt64} (i : Nat) :
    (xs.set k v).getD i 0 = if k = i ∧ i < xs.length then v else xs.getD i 0 := by
  rw [List.getD_eq_getElem?_getD, List.getD_eq_getElem?_getD, List.getElem?_set]
  by_cases hk : k = i
  · subst hk
    by_cases hlt : k < xs.length
    · rw [if_pos rfl, if_pos hlt, if_pos ⟨rfl, hlt⟩]
      rfl
    · rw [if_pos rfl, if_neg hlt, if_neg fun h => hlt h.2,
        List.getElem?_eq_none (Nat.le_of_not_lt hlt)]
  · rw [if_neg hk, if_neg fun h => hk h.1]

theorem getD_of_le {xs : List UInt64} {i : Nat} (h : xs.length ≤ i) : xs.getD i 0 = 0 := by
  rw [List.getD_eq_getElem?_getD, List.getElem?_eq_none h]
  rfl

/-- The loop over the dirty bits copies the bucket of each of them. -/
theorem copyDirtyBuckets_spec (hlen : source.length = target.length) (dirty : BitVec 64) :
    (copyDirtyBuckets source target dirty).length = target.length ∧
      ∀ i, (copyDirtyBuckets source target dirty).getD i 0 =
        if dirty.getLsbD i then source.getD i 0 else target.getD i 0 := by
  induction target, dirty using copyDirtyBuckets.induct source with
  | case1 target =>
    rw [copyDirtyBuckets, dif_pos rfl]
    have hclear : ∀ i, (0 : BitVec 64).getLsbD i = false := fun _ => BitVec.getLsbD_zero
    exact ⟨rfl, fun i => by rw [hclear, if_neg Bool.false_ne_true]⟩
  | case2 target dirty hne k ih =>
    rw [copyDirtyBuckets, dif_neg hne]
    obtain ⟨hlength, hget⟩ := ih (by rw [List.length_set]; exact hlen)
    refine ⟨hlength.trans (List.length_set ..), fun i => ?_⟩
    rw [hget, getLsbD_clearLowestSetBit hne, getD_set]
    by_cases hk : k = i
    · -- the lowest bit is copied now
      subst hk
      have hset := (trailingZeros_spec hne).1
      rw [decide_eq_false (not_not_intro rfl), Bool.and_false, if_neg Bool.false_ne_true,
        if_pos hset]
      by_cases hlt : k < target.length
      · rw [if_pos ⟨rfl, hlt⟩]
      · rw [if_neg fun h => hlt h.2, getD_of_le (Nat.le_of_not_lt hlt),
          getD_of_le (hlen ▸ Nat.le_of_not_lt hlt)]
    · rw [decide_eq_true (Ne.symm hk), Bool.and_true, if_neg fun h : k = i ∧ _ => hk h.1]

theorem foldl_set_spec (is : List Nat) (hlen : source.length = target.length) :
    (is.foldl (fun target i => target.set i (source.getD i 0)) target).length = target.length ∧
      ∀ i, (is.foldl (fun target i => target.set i (source.getD i 0)) target).getD i 0 =
        if i ∈ is then source.getD i 0 else target.getD i 0 := by
  induction is generalizing target with
  | nil => exact ⟨rfl, fun i => (if_neg List.not_mem_nil).symm⟩
  | cons k is ih =>
    have hset : source.length = (target.set k (source.getD k 0)).length := by
      rw [List.length_set]
      exact hlen
    obtain ⟨hlength, hget⟩ := ih hset
    refine ⟨hlength.trans (List.length_set ..), fun i => ?_⟩
    rw [List.foldl_cons, hget, getD_set]
    by_cases hin : i ∈ is
    · rw [if_pos hin, if_pos (List.mem_cons_of_mem _ hin)]
    · by_cases hk : k = i
      · subst hk
        rw [if_neg hin, if_pos (List.mem_cons_self ..)]
        by_cases hlt : k < target.length
        · rw [if_pos ⟨rfl, hlt⟩]
        · rw [if_neg fun h => hlt h.2, getD_of_le (Nat.le_of_not_lt hlt),
            getD_of_le (hlen ▸ Nat.le_of_not_lt hlt)]
      · rw [if_neg hin, if_neg fun h => hk h.1,
          if_neg fun h => (List.mem_cons.mp h).elim (Ne.symm hk) hin]

theorem getLsbD_overflowMask (j : Nat) :
    ((1 : BitVec 64) <<< dirtyBucketsOverflowIndex).getLsbD j = decide (63 = j) := by
  rw [show (1 : BitVec 64) <<< dirtyBucketsOverflowIndex = BitVec.twoPow 64 63 from rfl,
    BitVec.getLsbD_twoPow]
  rfl

/-- The buckets of the highest bit are copied when it is set. -/
theorem drainOverflowBuckets_spec (hlen : source.length = target.length) (dirty : BitVec 64) :
    (drainOverflowBuckets source target dirty).1.length = target.length ∧
      (∀ i, (drainOverflowBuckets source target dirty).1.getD i 0 =
        if dirty.getLsbD 63 = true ∧ 63 ≤ i then source.getD i 0 else target.getD i 0) ∧
      ∀ j, (drainOverflowBuckets source target dirty).2.getLsbD j =
        (dirty.getLsbD j && decide (j ≠ 63)) := by
  have hand : ∀ j, (dirty &&& (1 : BitVec 64) <<< dirtyBucketsOverflowIndex).getLsbD j =
      (dirty.getLsbD j && decide (63 = j)) := by
    intro j
    rw [BitVec.getLsbD_and, getLsbD_overflowMask]
  rw [drainOverflowBuckets]
  split
  · next hzero =>
    have hclear : dirty.getLsbD 63 = false := by
      have hat := hand 63
      rw [hzero, decide_eq_true rfl, Bool.and_true] at hat
      exact hat.symm.trans BitVec.getLsbD_zero
    refine ⟨rfl, fun i => ?_, fun j => ?_⟩
    · rw [if_neg fun h => Bool.false_ne_true (hclear.symm.trans h.1)]
    · by_cases hj : j = 63
      · rw [hj, hclear, Bool.false_and]
      · rw [decide_eq_true hj, Bool.and_true]
  · next hne =>
    have hset : dirty.getLsbD 63 = true := by
      by_contra hnot
      refine hne (BitVec.eq_of_getLsbD_eq fun j _ => ?_)
      rw [hand]
      by_cases hj : 63 = j
      · rw [← hj, Bool.eq_false_iff.mpr hnot, Bool.false_and]
        exact BitVec.getLsbD_zero.symm
      · rw [decide_eq_false hj, Bool.and_false]
        exact BitVec.getLsbD_zero.symm
    obtain ⟨hlength, hget⟩ := foldl_set_spec (List.range' dirtyBucketsOverflowIndex
      (source.length - dirtyBucketsOverflowIndex)) hlen
    refine ⟨hlength, fun i => ?_, fun j => ?_⟩
    · refine (hget i).trans ?_
      have hrange : i ∈ List.range' dirtyBucketsOverflowIndex
          (source.length - dirtyBucketsOverflowIndex) ↔ 63 ≤ i ∧ i < source.length := by
        rw [List.mem_range'_1, dirtyBucketsOverflowIndex]
        omega
      by_cases hi : 63 ≤ i
      · rw [if_pos (⟨hset, hi⟩ : _ ∧ 63 ≤ i)]
        by_cases hlt : i < source.length
        · exact if_pos (hrange.mpr ⟨hi, hlt⟩)
        · rw [getD_of_le (Nat.le_of_not_lt hlt), getD_of_le (hlen ▸ Nat.le_of_not_lt hlt)]
          exact ite_self _
      · rw [if_neg fun h => hi (hrange.mp h).1, if_neg fun h : _ ∧ _ => hi h.2]
    · rw [BitVec.getLsbD_and, BitVec.getLsbD_not, getLsbD_overflowMask]
      by_cases hj : j = 63
      · rw [hj]
        rfl
      · rw [decide_eq_true hj, decide_eq_false (Ne.symm hj), Bool.not_false, Bool.and_true,
          Bool.and_true]
        by_cases hlt : j < 64
        · rw [decide_eq_true hlt, Bool.and_true]
        · rw [BitVec.getLsbD_of_ge dirty j (Nat.le_of_not_lt hlt), Bool.false_and]

/-- The bucket has its bit set, or shares the highest one. -/
def DirtyBit (dirty : BitVec 64) (i : Nat) : Prop :=
  dirty.getLsbD (min i dirtyBucketsOverflowIndex) = true

variable {bag bag' : ObservationBagSync} {data data' : ObservationBag}

/-- A copy has the totals of the bag copied, if the clean buckets had not
changed. -/
theorem copyFrom_spec (h : bag.copyFrom data = some (bag', data')) (hbag : bag.Shaped)
    (hdata : data.Shaped)
    (hclean : ∀ i, ¬ DirtyBit data.dirtyBuckets i →
      bag.bucketCounts.getD i 0 = data.bucketCounts.getD i 0) :
    bag'.totals = data.totals ∧ bag'.bucketMagnitudes = bag.bucketMagnitudes ∧ bag'.Shaped ∧
      data' = { data with dirtyBuckets := 0 } := by
  rw [ObservationBagSync.copyFrom] at h
  split at h
  · next hsame =>
    obtain ⟨rfl, rfl⟩ := Prod.mk.inj (Option.some.inj h)
    have hlen : data.bucketCounts.length = bag.bucketCounts.length := by
      rw [hbag, hsame, hdata]
    obtain ⟨hdrained, hget, hbits⟩ := drainOverflowBuckets_spec hlen data.dirtyBuckets
    obtain ⟨hlength, hcopied⟩ := copyDirtyBuckets_spec (hlen.trans hdrained.symm)
      (drainOverflowBuckets data.bucketCounts bag.bucketCounts data.dirtyBuckets).2
    refine ⟨Prod.ext rfl (Prod.ext rfl (funext fun i => ?_)), rfl,
      (hlength.trans hdrained).trans hbag, rfl⟩
    refine (hcopied i).trans ?_
    rw [hbits, hget]
    have hclean := hclean i
    rw [DirtyBit, dirtyBucketsOverflowIndex] at hclean
    by_cases hi : 63 ≤ i
    · -- the highest bit stands for all of these
      rw [Nat.min_eq_right hi] at hclean
      rw [show (data.dirtyBuckets.getLsbD i && decide (i ≠ 63)) = false by
        by_cases heq : i = 63
        · rw [heq, decide_eq_false (not_not_intro rfl), Bool.and_false]
        · rw [BitVec.getLsbD_of_ge _ _ (by omega), Bool.false_and]]
      rw [if_neg Bool.false_ne_true]
      by_cases hset : data.dirtyBuckets.getLsbD 63 = true
      · exact if_pos ⟨hset, hi⟩
      · rw [if_neg fun h => hset h.1]
        exact hclean hset
    · rw [Nat.min_eq_left (by omega)] at hclean
      rw [decide_eq_true (by omega : i ≠ 63), Bool.and_true, if_neg fun h : _ ∧ 63 ≤ i => hi h.2]
      by_cases hset : data.dirtyBuckets.getLsbD i = true
      · exact if_pos hset
      · rw [if_neg hset]
        exact hclean hset
  · exact nomatch h

theorem toSync_insert (o : Observation) :
    (data.insert o).toObservationBagSync = data.toObservationBagSync.insert o := by
  rw [ObservationBag.insert]
  split
  · next hzero => rw [ObservationBagSync.insert, if_pos hzero]
  · rfl

/-- A bucket that is clean after an observation was clean before and has not
changed. -/
theorem clean_insert {o : Observation} {i : Nat}
    (hclean : ¬ DirtyBit (data.insert o).dirtyBuckets i) :
    ¬ DirtyBit data.dirtyBuckets i ∧
      (data.insert o).bucketCounts.getD i 0 = data.bucketCounts.getD i 0 := by
  rw [toSync_insert, ObservationBagSync.insert]
  rw [ObservationBag.insert] at hclean
  by_cases hzero : o.count = 0
  · rw [if_pos hzero] at hclean ⊢
    exact ⟨hclean, rfl⟩
  · rw [if_neg hzero] at hclean ⊢
    simp only [observationIncrements]
    cases hbucket : selectBucket data.bucketMagnitudes o.magnitude with
    | none =>
      rw [hbucket] at hclean
      exact ⟨hclean, rfl⟩
    | some k =>
      rw [hbucket] at hclean
      replace hclean : ¬ (data.dirtyBuckets |||
          BitVec.twoPow 64 (min k dirtyBucketsOverflowIndex)).getLsbD
            (min i dirtyBucketsOverflowIndex) = true := hclean
      rw [BitVec.getLsbD_or, BitVec.getLsbD_twoPow, Bool.or_eq_true, not_or] at hclean
      refine ⟨hclean.1, ?_⟩
      have hne : k ≠ i := by
        intro heq
        refine hclean.2 ?_
        rw [heq, decide_eq_true rfl, decide_eq_true, Bool.and_self]
        rw [dirtyBucketsOverflowIndex]
        omega
      rw [List.getD_eq_getElem?_getD, List.getD_eq_getElem?_getD,
        List.getElem?_modify_ne _ _ hne]

end Copying

end Folo.Metrics
