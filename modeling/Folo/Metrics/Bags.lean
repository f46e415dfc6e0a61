import Mathlib.Data.UInt
import Mathlib.Algebra.Group.Pi.Basic
import Mathlib.Algebra.Group.Prod
import Mathlib.Algebra.BigOperators.Group.List.Basic
import Folo.Lib.WordSets

/-!
# Observation bags

What is recorded of one event: how many observations, their sum, and how many
fell into each bucket. A bag that many threads may read is written by one
thread; a bag of the push model is copied there from time to time, bucket by
bucket where something has changed.

A bag is only interesting for its totals, which are elements of a commutative
monoid: recording an observation and merging a bag are additions.
-/

namespace Folo.Metrics

open Folo.Lib

abbrev EventName := String

/-- `i64` -/
abbrev Magnitude := Int64

/-- `count` observations of one magnitude. -/
structure Observation where
  magnitude : Magnitude
  count : UInt64
  deriving DecidableEq

structure ObservationBagSync where
  count : UInt64
  sum : Magnitude
  bucketCounts : List UInt64
  bucketMagnitudes : List Magnitude
  deriving DecidableEq

/-- The bag of the push model, with the buckets changed since it was last
copied. -/
structure ObservationBag extends ObservationBagSync where
  dirtyBuckets : BitVec 64
  deriving DecidableEq

/-- What is added to the count and to the sum. Products that overflow wrap. -/
def observationIncrements (magnitude : Magnitude) (count : UInt64) : UInt64 × Int64 :=
  (count, magnitude * count.toInt64)

def selectBucket (bucketMagnitudes : List Magnitude) (magnitude : Magnitude) : Option Nat :=
  bucketMagnitudes.findIdx? fun bucketMagnitude => magnitude ≤ bucketMagnitude

namespace ObservationBagSync

def new (bucketMagnitudes : List Magnitude) : ObservationBagSync where
  count := 0
  sum := 0
  bucketCounts := List.replicate bucketMagnitudes.length 0
  bucketMagnitudes := bucketMagnitudes

def insert (bag : ObservationBagSync) (o : Observation) : ObservationBagSync :=
  if o.count = 0 then bag
  else
    let (count, sumIncrement) := observationIncrements o.magnitude o.count
    { bag with
      count := bag.count + count
      sum := bag.sum + sumIncrement
      bucketCounts :=
        match selectBucket bag.bucketMagnitudes o.magnitude with
        | some bucketIndex => bag.bucketCounts.modify bucketIndex (· + count)
        | none => bag.bucketCounts }

def isCompatibleWith (bag other : ObservationBagSync) : Bool :=
  bag.bucketMagnitudes = other.bucketMagnitudes

/-- Adds what the second list has to the elements of the first. -/
def addCounts : List UInt64 → List UInt64 → List UInt64
  | target :: targets, source :: sources => (target + source) :: addCounts targets sources
  | targets, _ => targets

/-- `merge_from`, and `merge_from_observations` of a snapshot, which has the
same fields. `none` where it panics. -/
def mergeFrom (bag other : ObservationBagSync) : Option ObservationBagSync :=
  if bag.isCompatibleWith other then
    some { bag with
      count := bag.count + other.count
      sum := bag.sum + other.sum
      bucketCounts := addCounts bag.bucketCounts other.bucketCounts }
  else none

end ObservationBagSync

/-! ## Copying a bag of the push model -/

/-- The buckets from this one on share the highest bit. -/
def dirtyBucketsOverflowIndex : Nat := 63

def clearLowestSetBit (value : BitVec 64) : BitVec 64 :=
  value &&& (value - 1)

def trailingZeros (value : BitVec 64) : Nat :=
  ((List.range 64).find? fun i => value.getLsbD i).getD 64

theorem clearLowestSetBit_lt {value : BitVec 64} (h : value ≠ 0) :
    (clearLowestSetBit value).toNat < value.toNat := by
  have hpos : value.toNat ≠ 0 := fun h0 => h (BitVec.eq_of_toNat_eq h0)
  have hle : (clearLowestSetBit value).toNat ≤ (value - 1).toNat := by
    rw [clearLowestSetBit, BitVec.toNat_and]
    exact Nat.and_le_right
  have hpred : (value - 1).toNat = value.toNat - 1 := by
    bv_omega
  omega

/-- One bucket for each set bit. -/
def copyDirtyBuckets (source target : List UInt64) (dirty : BitVec 64) : List UInt64 :=
  if _h : dirty = 0 then target
  else
    let i := trailingZeros dirty
    copyDirtyBuckets source (target.set i (source.getD i 0)) (clearLowestSetBit dirty)
  termination_by dirty.toNat
  decreasing_by exact clearLowestSetBit_lt ‹_›

/-- `drain_overflow_buckets`: the buckets of the highest bit, and the other
bits. -/
def drainOverflowBuckets (source target : List UInt64) (dirty : BitVec 64) :
    List UInt64 × BitVec 64 :=
  let overflowMask := (1 : BitVec 64) <<< dirtyBucketsOverflowIndex
  if dirty &&& overflowMask = 0 then (target, dirty)
  else
    ((List.range' dirtyBucketsOverflowIndex (source.length - dirtyBucketsOverflowIndex)).foldl
      (fun target i => target.set i (source.getD i 0)) target, dirty &&& ~~~overflowMask)

/-- The bag copied to, and the bag copied from, whose dirty bits are taken.
`none` where it panics. -/
def ObservationBagSync.copyFrom (bag : ObservationBagSync) (data : ObservationBag) :
    Option (ObservationBagSync × ObservationBag) :=
  if bag.bucketMagnitudes = data.bucketMagnitudes then
    let (drained, dirty) := drainOverflowBuckets data.bucketCounts bag.bucketCounts
      data.dirtyBuckets
    some ({ bag with
      count := data.count
      sum := data.sum
      bucketCounts := copyDirtyBuckets data.bucketCounts drained dirty },
      { data with dirtyBuckets := 0 })
  else none

namespace ObservationBag

def new (bucketMagnitudes : List Magnitude) : ObservationBag :=
  { ObservationBagSync.new bucketMagnitudes with dirtyBuckets := 0 }

def insert (bag : ObservationBag) (o : Observation) : ObservationBag :=
  if o.count = 0 then bag
  else
    { bag.toObservationBagSync.insert o with
      dirtyBuckets :=
        match selectBucket bag.bucketMagnitudes o.magnitude with
        | some bucketIndex =>
          bag.dirtyBuckets ||| (1 : BitVec 64) <<< min bucketIndex dirtyBucketsOverflowIndex
        | none => bag.dirtyBuckets }

end ObservationBag

end Folo.Metrics
