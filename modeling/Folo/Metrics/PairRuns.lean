import Mathlib.Data.List.Induction
import Folo.Lib.Machine
import Folo.Metrics.Totals

/-!
# One pair through observations and pushes

The buckets are read and written without a bounds check: here an index outside
of them is undefined behaviour, `none`, like a panic. Along every sequence of
observations and pushes neither occurs, and a push that copies the dirty
buckets alone leaves the global bag equal to the local one: `PairInv` says that
each clean bucket already agrees, and that each dirty bit stands for a bucket
that there is.

One case is given up by design: a local count that wraps back to the value of
the last push looks as if nothing had been observed.
-/

namespace Folo.Metrics

open Folo.Lib

/-! ## Unchecked accesses -/

/-- `target[i].store(source[i].get())`, both by `get_unchecked`. -/
def storeUnchecked (source target : List UInt64) (i : Nat) : Option (List UInt64) :=
  match source[i]? with
  | none => none
  | some count => if i < target.length then some (target.set i count) else none

/-- The loop of `copy_from` over the dirty bits. -/
def copyDirtyUnchecked (source target : List UInt64) (dirty : BitVec 64) : Option (List UInt64) :=
  if _h : dirty = 0 then some target
  else
    match storeUnchecked source target (trailingZeros dirty) with
    | none => none
    | some target => copyDirtyUnchecked source target (clearLowestSetBit dirty)
  termination_by dirty.toNat
  decreasing_by exact clearLowestSetBit_lt ‹_›

def drainOverflowUnchecked (source target : List UInt64) (dirty : BitVec 64) :
    Option (List UInt64 × BitVec 64) :=
  let overflowMask := (1 : BitVec 64) <<< dirtyBucketsOverflowIndex
  if dirty &&& overflowMask = 0 then some (target, dirty)
  else
    ((List.range' dirtyBucketsOverflowIndex (source.length - dirtyBucketsOverflowIndex)).foldlM
      (storeUnchecked source) target).map fun target => (target, dirty &&& ~~~overflowMask)

/-- `copy_from`: the bag copied to, and the bag copied from. -/
def ObservationBagSync.copyFromUnchecked (bag : ObservationBagSync) (data : ObservationBag) :
    Option (ObservationBagSync × ObservationBag) :=
  if bag.bucketMagnitudes = data.bucketMagnitudes then
    match drainOverflowUnchecked data.bucketCounts bag.bucketCounts data.dirtyBuckets with
    | none => none
    | some (drained, dirty) =>
      (copyDirtyUnchecked data.bucketCounts drained dirty).map fun bucketCounts =>
        ({ bag with count := data.count, sum := data.sum, bucketCounts := bucketCounts },
          { data with dirtyBuckets := 0 })
  else none

/-- `ObservationBag::insert`. -/
def ObservationBag.insertUnchecked (bag : ObservationBag) (o : Observation) :
    Option ObservationBag :=
  match selectBucket bag.bucketMagnitudes o.magnitude with
  | none => some (bag.insert o)
  | some bucketIndex =>
    if o.count = 0 ∨ bucketIndex < bag.bucketCounts.length then some (bag.insert o) else none

/-! ## Runs of a pair -/

/-- `LocalGlobalPair`, with its bags. -/
structure PushedPair where
  localBag : ObservationBag
  globalBag : ObservationBagSync
  lastPushedCount : UInt64
  deriving DecidableEq

inductive PairOp where
  | observe (o : Observation)
  | push
  deriving DecidableEq

namespace PushedPair

/-- What `MetricsPusher::push` does with the pair. -/
def push (s : PushedPair) : Option PushedPair :=
  let currentCount := s.localBag.count
  if currentCount = s.lastPushedCount then some s
  else
    (s.globalBag.copyFromUnchecked s.localBag).map fun (globalBag, localBag) =>
      ⟨localBag, globalBag, currentCount⟩

def next (s : PushedPair) : PairOp → Option PushedPair
  | .observe o => (s.localBag.insertUnchecked o).map fun localBag => { s with localBag := localBag }
  | .push => s.push

end PushedPair

/-- A pair from its registration on. -/
def pushedPairs (bucketMagnitudes : List Magnitude) : Machine PushedPair PairOp where
  init := ⟨.new bucketMagnitudes, .new bucketMagnitudes, 0⟩
  next := PushedPair.next

def sinceLastPush : List PairOp → List Observation :=
  List.foldl (fun os op => match op with
    | .observe o => os ++ [o]
    | .push => []) []

/-- At each push, a local count that is back at the value of the last push has
not moved at all. -/
def NeverWrapsBack (ops : List PairOp) : Prop :=
  ∀ before, before ++ [.push] <+: ops →
    2 ^ 64 ∣ countOf (sinceLastPush before) → countOf (sinceLastPush before) = 0

/-- The first bucket whose bound is not below the magnitude. -/
def FirstBucket (bucketMagnitudes : List Magnitude) (magnitude : Magnitude) (i : Nat) : Prop :=
  (∃ bound, bucketMagnitudes[i]? = some bound ∧ magnitude ≤ bound) ∧
    ∀ j bound, j < i → bucketMagnitudes[j]? = some bound → bound < magnitude

theorem selectBucket_eq_some_iff {mags : List Magnitude} {m : Magnitude} {i : Nat} :
    selectBucket mags m = some i ↔ FirstBucket mags m i := by
  rw [selectBucket, List.findIdx?_eq_some_iff_getElem, FirstBucket]
  constructor
  · intro ⟨hi, hle, hbefore⟩
    refine ⟨⟨mags[i], List.getElem?_eq_getElem hi, of_decide_eq_true hle⟩, ?_⟩
    intro j bound hj hbound
    obtain ⟨hjlt, rfl⟩ := List.getElem?_eq_some_iff.mp hbound
    have hnot := hbefore j hj
    rw [Bool.not_eq_true, decide_eq_false_iff_not] at hnot
    exact Int64.not_le.mp hnot
  · intro ⟨⟨bound, hbound, hle⟩, hbefore⟩
    obtain ⟨hi, rfl⟩ := List.getElem?_eq_some_iff.mp hbound
    refine ⟨hi, decide_eq_true hle, ?_⟩
    intro j hj
    have hlt := hbefore j mags[j] hj (List.getElem?_eq_getElem (Nat.lt_trans hj hi))
    rw [Bool.not_eq_true, decide_eq_false_iff_not]
    exact Int64.not_le.mpr hlt

/-! ## The accesses are within the buckets -/

section Accesses

variable {source target : List UInt64}

theorem storeUnchecked_eq {i : Nat} (hsource : i < source.length) (htarget : i < target.length) :
    storeUnchecked source target i = some (target.set i (source.getD i 0)) := by
  rw [storeUnchecked, List.getElem?_eq_getElem hsource, List.getD_eq_getElem?_getD,
    List.getElem?_eq_getElem hsource]
  exact if_pos htarget

theorem foldlM_storeUnchecked (is : List Nat) (hlen : source.length = target.length)
    (his : ∀ i ∈ is, i < source.length) :
    is.foldlM (storeUnchecked source) target =
      some (is.foldl (fun target i => target.set i (source.getD i 0)) target) := by
  induction is generalizing target with
  | nil => rfl
  | cons i is ih =>
    have hi := his i (List.mem_cons_self ..)
    rw [List.foldlM_cons, storeUnchecked_eq hi (hlen ▸ hi)]
    show is.foldlM (storeUnchecked source) _ = _
    rw [ih (by rw [List.length_set]; exact hlen) fun j hj => his j (List.mem_cons_of_mem _ hj)]
    rfl

/-- The bits stand for buckets, so the loop stays within them. -/
theorem copyDirtyUnchecked_eq (hlen : source.length = target.length) (dirty : BitVec 64)
    (hbits : ∀ j, dirty.getLsbD j = true → j < source.length) :
    copyDirtyUnchecked source target dirty = some (copyDirtyBuckets source target dirty) := by
  induction target, dirty using copyDirtyBuckets.induct source with
  | case1 target =>
    rw [copyDirtyUnchecked, copyDirtyBuckets, dif_pos rfl, dif_pos rfl]
  | case2 target dirty hne i ih =>
    have hi : i < source.length := hbits i (trailingZeros_spec hne).1
    rw [copyDirtyUnchecked, copyDirtyBuckets, dif_neg hne, dif_neg hne]
    have hstore : storeUnchecked source target (trailingZeros dirty) =
        some (target.set i (source.getD i 0)) := storeUnchecked_eq hi (hlen ▸ hi)
    rw [hstore]
    refine ih (by rw [List.length_set]; exact hlen) fun j hj => hbits j ?_
    rw [getLsbD_clearLowestSetBit hne, Bool.and_eq_true] at hj
    exact hj.1

theorem drainOverflowUnchecked_eq (hlen : source.length = target.length) (dirty : BitVec 64) :
    drainOverflowUnchecked source target dirty = some (drainOverflowBuckets source target dirty) := by
  rw [drainOverflowUnchecked, drainOverflowBuckets]
  split
  · rfl
  · rw [foldlM_storeUnchecked _ hlen]
    · rfl
    · intro i hi
      rw [List.mem_range'_1] at hi
      omega

theorem copyFromUnchecked_eq {bag : ObservationBagSync} {data : ObservationBag}
    (hbag : bag.Shaped) (hdata : data.Shaped)
    (hbits : ∀ j, data.dirtyBuckets.getLsbD j = true → j < data.bucketMagnitudes.length) :
    bag.copyFromUnchecked data = bag.copyFrom data := by
  rw [ObservationBagSync.copyFromUnchecked, ObservationBagSync.copyFrom]
  split
  · next hsame =>
    have hlen : data.bucketCounts.length = bag.bucketCounts.length := by
      rw [hbag, hsame, hdata]
    obtain ⟨hdrained, -, hdrainedBits⟩ := drainOverflowBuckets_spec hlen data.dirtyBuckets
    rw [drainOverflowUnchecked_eq hlen]
    generalize drainOverflowBuckets data.bucketCounts bag.bucketCounts data.dirtyBuckets = rest
      at hdrained hdrainedBits
    obtain ⟨drained, dirty⟩ := rest
    show (copyDirtyUnchecked data.bucketCounts drained dirty).map _ = _
    rw [copyDirtyUnchecked_eq (hlen.trans hdrained.symm)]
    · rfl
    · intro j hj
      rw [hdrainedBits, Bool.and_eq_true] at hj
      rw [hdata]
      exact hbits j hj.1
  · rfl

theorem insertUnchecked_eq {bag : ObservationBag} (h : bag.Shaped) (o : Observation) :
    bag.insertUnchecked o = some (bag.insert o) := by
  rw [ObservationBag.insertUnchecked]
  split
  · rfl
  · next i hi =>
    have hlt : i < bag.bucketCounts.length := by
      rw [h]
      exact ObservationBagSync.selectBucket_lt hi
    exact if_pos (Or.inr hlt)

end Accesses

/-! ## The invariant -/

theorem sinceLastPush_observe (ops : List PairOp) (o : Observation) :
    sinceLastPush (ops ++ [.observe o]) = sinceLastPush ops ++ [o] := by
  rw [sinceLastPush, List.foldl_append]
  rfl

theorem sinceLastPush_push (ops : List PairOp) : sinceLastPush (ops ++ [.push]) = [] := by
  rw [sinceLastPush, List.foldl_append]
  rfl

/-- The state of a pair, `os` being what was observed since the last push. -/
structure PairInv (bucketMagnitudes : List Magnitude) (s : PushedPair) (os : List Observation) :
    Prop where
  localMagnitudes : s.localBag.bucketMagnitudes = bucketMagnitudes
  globalMagnitudes : s.globalBag.bucketMagnitudes = bucketMagnitudes
  localShaped : s.localBag.Shaped
  globalShaped : s.globalBag.Shaped
  pushed : s.lastPushedCount = s.globalBag.count
  ahead : s.localBag.totals = s.globalBag.totals + totalsOf bucketMagnitudes os
  clean : ∀ i, ¬ DirtyBit s.localBag.dirtyBuckets i →
    s.globalBag.bucketCounts.getD i 0 = s.localBag.bucketCounts.getD i 0
  bits : ∀ j, s.localBag.dirtyBuckets.getLsbD j = true → j < bucketMagnitudes.length

variable {mags : List Magnitude} {s s' : PushedPair} {os : List Observation}

theorem pairInv_init (mags : List Magnitude) : PairInv mags (pushedPairs mags).init [] where
  localMagnitudes := rfl
  globalMagnitudes := rfl
  localShaped := ObservationBagSync.shaped_new mags
  globalShaped := ObservationBagSync.shaped_new mags
  pushed := rfl
  ahead := (add_zero _).symm
  clean := fun _ _ => rfl
  bits := fun _ hj => absurd (BitVec.getLsbD_zero.symm.trans hj) Bool.false_ne_true

/-- An observation sets no bit but that of its bucket. -/
theorem bits_insert {bag : ObservationBag} {o : Observation} {j : Nat}
    (hbits : ∀ j, bag.dirtyBuckets.getLsbD j = true → j < bag.bucketMagnitudes.length)
    (hj : (bag.insert o).dirtyBuckets.getLsbD j = true) : j < bag.bucketMagnitudes.length := by
  rw [ObservationBag.insert] at hj
  by_cases hzero : o.count = 0
  · rw [if_pos hzero] at hj
    exact hbits j hj
  · rw [if_neg hzero] at hj
    cases hbucket : selectBucket bag.bucketMagnitudes o.magnitude with
    | none =>
      rw [hbucket] at hj
      exact hbits j hj
    | some k =>
      rw [hbucket] at hj
      replace hj : (bag.dirtyBuckets |||
          BitVec.twoPow 64 (min k dirtyBucketsOverflowIndex)).getLsbD j = true := hj
      rw [BitVec.getLsbD_or, BitVec.getLsbD_twoPow, Bool.or_eq_true, Bool.and_eq_true,
        decide_eq_true_eq, decide_eq_true_eq] at hj
      have hk := ObservationBagSync.selectBucket_lt hbucket
      rcases hj with hj | ⟨-, hj⟩
      · exact hbits j hj
      · omega

theorem PairInv.observe (hinv : PairInv mags s os) (o : Observation) :
    s.next (.observe o) = some { s with localBag := s.localBag.insert o } ∧
      PairInv mags { s with localBag := s.localBag.insert o } (os ++ [o]) := by
  have hsync : (s.localBag.insert o).toObservationBagSync =
      s.localBag.toObservationBagSync.insert o := toSync_insert o
  have hmags : (s.localBag.insert o).bucketMagnitudes = s.localBag.bucketMagnitudes := by
    rw [hsync, ObservationBagSync.bucketMagnitudes_insert]
  refine ⟨?_, ?_⟩
  · show (s.localBag.insertUnchecked o).map _ = _
    rw [insertUnchecked_eq hinv.localShaped]
    rfl
  · exact {
      localMagnitudes := hmags.trans hinv.localMagnitudes
      globalMagnitudes := hinv.globalMagnitudes
      localShaped := by
        show (s.localBag.insert o).Shaped
        rw [hsync]
        exact ObservationBagSync.shaped_insert hinv.localShaped o
      globalShaped := hinv.globalShaped
      pushed := hinv.pushed
      ahead := by
        show (s.localBag.insert o).totals = _
        rw [hsync, ObservationBagSync.totals_insert hinv.localShaped, hinv.ahead,
          hinv.localMagnitudes, totalsOf_concat, add_assoc]
      clean := fun i hclean => by
        obtain ⟨hbefore, hsame⟩ := clean_insert hclean
        exact (hinv.clean i hbefore).trans hsame.symm
      bits := fun j hj => by
        rw [← hinv.localMagnitudes]
        exact bits_insert (hinv.localMagnitudes.symm ▸ hinv.bits) hj }

/-- Bags with the same totals are the same. -/
theorem eq_of_totals {a b : ObservationBagSync} (ha : a.Shaped) (hb : b.Shaped)
    (hmags : a.bucketMagnitudes = b.bucketMagnitudes) (h : a.totals = b.totals) : a = b := by
  obtain ⟨hcount, hrest⟩ := Prod.mk.inj h
  obtain ⟨hsum, hbuckets⟩ := Prod.mk.inj hrest
  have hlen : a.bucketCounts.length = b.bucketCounts.length := by rw [ha, hb, hmags]
  have hcounts : a.bucketCounts = b.bucketCounts := by
    refine List.ext_getElem hlen fun i hi hi' => ?_
    have hat := congrFun hbuckets i
    simp only [List.getD_eq_getElem?_getD, List.getElem?_eq_getElem hi,
      List.getElem?_eq_getElem hi', Option.getD_some] at hat
    exact hat
  obtain ⟨aCount, aSum, aCounts, aMags⟩ := a
  obtain ⟨bCount, bSum, bCounts, bMags⟩ := b
  congr

/-- A push leaves the global bag equal to the local one. -/
theorem PairInv.push (hinv : PairInv mags s os)
    (hwraps : 2 ^ 64 ∣ countOf os → countOf os = 0) :
    ∃ s', s.next .push = some s' ∧ PairInv mags s' [] ∧
      s'.localBag.toObservationBagSync = s.localBag.toObservationBagSync ∧
      s'.globalBag = s'.localBag.toObservationBagSync := by
  have hsame : s.globalBag.bucketMagnitudes = s.localBag.bucketMagnitudes :=
    hinv.globalMagnitudes.trans hinv.localMagnitudes.symm
  by_cases hcount : s.localBag.count = s.lastPushedCount
  · -- the count has not moved, so nothing was observed
    have hnext : s.next .push = some s := if_pos hcount
    have hzero : (totalsOf mags os).1 = 0 := by
      have hfst := congrArg Prod.fst hinv.ahead
      have hcounts : s.localBag.count = s.globalBag.count := hcount.trans hinv.pushed
      exact add_eq_left.mp (hfst.symm.trans hcounts)
    have hnothing : countOf os = 0 := by
      refine hwraps ?_
      rw [fst_totalsOf] at hzero
      have hmod := congrArg UInt64.toNat hzero
      rw [UInt64.toNat_ofNat'] at hmod
      exact Nat.dvd_of_mod_eq_zero hmod
    have htotals : s.localBag.totals = s.globalBag.totals := by
      rw [hinv.ahead, totalsOf_eq_zero hzero (by omega), add_zero]
    refine ⟨s, hnext, ?_, rfl, ?_⟩
    · exact { hinv with ahead := htotals.trans (add_zero _).symm }
    · exact eq_of_totals hinv.globalShaped hinv.localShaped hsame htotals.symm
  · cases hcopy : s.globalBag.copyFrom s.localBag with
    | none =>
      rw [ObservationBagSync.copyFrom, if_pos hsame] at hcopy
      cases hcopy
    | some copied =>
      obtain ⟨globalBag, localBag⟩ := copied
      obtain ⟨htotals, hmags, hshaped, rfl⟩ :=
        copyFrom_spec hcopy hinv.globalShaped hinv.localShaped hinv.clean
      have hequal : globalBag = s.localBag.toObservationBagSync :=
        eq_of_totals hshaped hinv.localShaped (hmags.trans hsame) htotals
      have hnext : s.next .push =
          some ⟨{ s.localBag with dirtyBuckets := 0 }, globalBag, s.localBag.count⟩ := by
        show (if _ then _ else (s.globalBag.copyFromUnchecked s.localBag).map _) = _
        rw [if_neg hcount, copyFromUnchecked_eq hinv.globalShaped hinv.localShaped
          (hinv.localMagnitudes.symm ▸ hinv.bits), hcopy]
        rfl
      refine ⟨_, hnext, ?_, rfl, hequal⟩
      subst hequal
      exact {
        localMagnitudes := hinv.localMagnitudes
        globalMagnitudes := hinv.localMagnitudes
        localShaped := hinv.localShaped
        globalShaped := hinv.localShaped
        pushed := rfl
        ahead := (add_zero _).symm
        clean := fun _ _ => rfl
        bits := (pairInv_init mags).bits }

/-! ## Whole runs -/

theorem NeverWrapsBack.of_append {ops ops' : List PairOp} (h : NeverWrapsBack (ops ++ ops')) :
    NeverWrapsBack ops :=
  fun before hbefore => h before (hbefore.trans (List.prefix_append ..))

theorem exists_pairInv (mags : List Magnitude) {ops : List PairOp} (hwraps : NeverWrapsBack ops) :
    ∃ s, (pushedPairs mags).run ops = some s ∧ PairInv mags s (sinceLastPush ops) := by
  induction ops using List.reverseRecOn with
  | nil => exact ⟨_, rfl, pairInv_init mags⟩
  | append_singleton ops op ih =>
    obtain ⟨s, hrun, hinv⟩ := ih hwraps.of_append
    have hlast : ∀ {s'}, s.next op = some s' → (pushedPairs mags).run (ops ++ [op]) = some s' := by
      intro s' hnext
      rw [Machine.run, Machine.runFrom_append]
      rw [Machine.run] at hrun
      rw [hrun, Option.bind_some, Machine.runFrom_cons]
      show (s.next op).bind _ = _
      rw [hnext]
      rfl
    cases op with
    | observe o =>
      obtain ⟨hnext, hinv'⟩ := hinv.observe o
      rw [← sinceLastPush_observe] at hinv'
      exact ⟨_, hlast hnext, hinv'⟩
    | push =>
      obtain ⟨s', hnext, hinv', -⟩ := hinv.push (hwraps ops List.prefix_rfl)
      rw [← sinceLastPush_push ops] at hinv'
      exact ⟨s', hlast hnext, hinv'⟩

/-- **A push is a full copy.** Nothing that a pair does reaches outside of the
buckets, an observation is counted in its first bucket and changes the local
bag only, and after a push the bags are equal. -/
theorem push_is_full_copy (mags : List Magnitude) (ops : List PairOp) (op : PairOp)
    (hwraps : NeverWrapsBack (ops ++ [op])) :
    ∃ s s', (pushedPairs mags).run ops = some s ∧ s.next op = some s' ∧
      match op with
      | .observe o =>
        s'.globalBag = s.globalBag ∧
        s'.localBag.count = s.localBag.count + o.count ∧
        s'.localBag.sum = s.localBag.sum + o.magnitude * o.count.toInt64 ∧
        s'.localBag.bucketCounts.length = mags.length ∧
        s.localBag.bucketCounts.length = mags.length ∧
        ∀ i, (FirstBucket mags o.magnitude i →
            s'.localBag.bucketCounts.getD i 0 = s.localBag.bucketCounts.getD i 0 + o.count) ∧
          (¬ FirstBucket mags o.magnitude i →
            s'.localBag.bucketCounts.getD i 0 = s.localBag.bucketCounts.getD i 0)
      | .push =>
        s'.localBag.toObservationBagSync = s.localBag.toObservationBagSync ∧
        s'.globalBag = s'.localBag.toObservationBagSync := by
  obtain ⟨s, hrun, hinv⟩ := exists_pairInv mags hwraps.of_append
  cases op with
  | observe o =>
    obtain ⟨hnext, hinv'⟩ := hinv.observe o
    have htotals : (s.localBag.insert o).totals = s.localBag.totals + o.totals mags := by
      rw [toSync_insert, ObservationBagSync.totals_insert hinv.localShaped, hinv.localMagnitudes]
    obtain ⟨hcount, hrest⟩ := Prod.mk.inj htotals
    obtain ⟨hsum, hbuckets⟩ := Prod.mk.inj hrest
    refine ⟨s, _, hrun, hnext, rfl, hcount, hsum, ?_, ?_, ?_⟩
    · exact hinv'.localShaped.trans (congrArg List.length hinv'.localMagnitudes)
    · exact hinv.localShaped.trans (congrArg List.length hinv.localMagnitudes)
    · intro i
      have hbucket : (s.localBag.insert o).bucketCounts.getD i 0 =
          s.localBag.bucketCounts.getD i 0 +
            if selectBucket mags o.magnitude = some i then o.count else 0 := congrFun hbuckets i
      rw [hbucket]
      refine ⟨fun hfirst => ?_, fun hfirst => ?_⟩
      · rw [if_pos (selectBucket_eq_some_iff.mpr hfirst)]
      · rw [if_neg fun h => hfirst (selectBucket_eq_some_iff.mp h), UInt64.add_zero]
  | push =>
    obtain ⟨s', hnext, -, hlocal, hglobal⟩ := hinv.push (hwraps ops List.prefix_rfl)
    exact ⟨s, s', hrun, hnext, hlocal, hglobal⟩

/-- Three observations of 15 are pushed into the second of the buckets. -/
theorem three_pushed : ∃ s s', (pushedPairs [10, 20]).run [.observe ⟨15, 3⟩] = some s ∧
    s.next .push = some s' ∧ s'.globalBag = ⟨3, 45, [0, 3], [10, 20]⟩ := by
  have hwraps : NeverWrapsBack ([.observe ⟨15, 3⟩] ++ [.push]) := by
    intro before hbefore hdvd
    -- the only push is the last operation
    have hlen := hbefore.length_le
    match before, hbefore with
    | [], hbefore => exact nomatch (List.cons_prefix_cons.mp hbefore).1
    | [op], hbefore =>
      obtain rfl := (List.cons_prefix_cons.mp hbefore).1
      exact absurd hdvd (by decide)
    | _ :: _ :: _, _ =>
      simp only [List.length_append, List.length_cons, List.length_nil] at hlen
      omega
  obtain ⟨s, s', hrun, hnext, hsame, hequal⟩ :=
    push_is_full_copy [10, 20] [.observe ⟨15, 3⟩] .push hwraps
  have hlocal : s.localBag.toObservationBagSync = ⟨3, 45, [0, 3], [10, 20]⟩ := by
    obtain rfl := Option.some.inj hrun
    rfl
  exact ⟨s, s', hrun, hnext, (hequal.trans hsame).trans hlocal⟩

end Folo.Metrics
