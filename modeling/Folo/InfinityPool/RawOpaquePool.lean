import Folo.InfinityPool.VacancyTracker
import Folo.InfinityPool.Slab

/-!
# `RawOpaquePool`: a growing pool of slabs

The embedding of `pool_raw.rs`. As for the slab, an operation answers with a
result or a panic, together with the pool it leaves behind. `insert_with` may
leave a new empty slab when the initializer panics, and `remove` has not
updated the length when the destructor panics.

A slab needs memory. All slabs of a pool lie in one address space, so a slab
that would take them beyond it cannot be allocated; this is the panic
`allocation`, which the source calls not recoverable. It is also why the
`wrapping_mul` of `capacity` never wraps.

The destructors of the empty slabs that `shrink_to_fit` drops run no user
code, and they are left out.
-/

namespace Folo.InfinityPool

variable {α : Type}

/-- `usize::wrapping_add`. -/
def wrappingAdd (a b : Nat) : Nat := (a + b) % usizeSize

/-- `usize::wrapping_sub`. -/
def wrappingSub (a b : Nat) : Nat := (a + (usizeSize - b)) % usizeSize

/-- `usize::wrapping_mul`. -/
def wrappingMul (a b : Nat) : Nat := a * b % usizeSize

/-- `usize::div_ceil`. -/
def divCeil (a b : Nat) : Nat := (a + b - 1) / b

/-- `RawPooled` and `RawPooledMut`: the indexes of the slab and of the slot. -/
structure RawPooled where
  slabIndex : Nat
  slabHandle : Nat
deriving DecidableEq

structure RawOpaquePool (α : Type) where
  slabLayout : SlabLayout
  slabs : List (Slab α)
  length : Nat
  vacancyTracker : VacancyTracker

namespace RawOpaquePool

/-- `new_inner`. -/
def newInner (slabLayout : SlabLayout) : RawOpaquePool α where
  slabLayout := slabLayout
  slabs := []
  length := 0
  vacancyTracker := VacancyTracker.new

def objectLayout (p : RawOpaquePool α) : Layout := p.slabLayout.objectLayout

def len (p : RawOpaquePool α) : Nat := p.length

def capacity (p : RawOpaquePool α) : Nat := wrappingMul p.slabs.length p.slabLayout.capacity

/-- Allocates and appends one slab. -/
def pushSlab (p : RawOpaquePool α) : Except Panic Unit × RawOpaquePool α :=
  if (p.slabs.length + 1) * p.slabLayout.slotArraySize < usizeSize then
    (.ok (), { p with slabs := p.slabs ++ [Slab.new p.slabLayout] })
  else (.error .allocation, p)

/-- Allocates and appends slabs, one after the other. -/
def extendSlabs : Nat → RawOpaquePool α → Except Panic Unit × RawOpaquePool α
  | 0, p => (.ok (), p)
  | additionalSlabs + 1, p =>
    match p.pushSlab with
    | (.error why, p) => (.error why, p)
    | (.ok (), p) => extendSlabs additionalSlabs p

/-- Tells the tracker the number of slabs. -/
def updateSlabCount (p : RawOpaquePool α) : Except Panic Unit × RawOpaquePool α :=
  match p.vacancyTracker.updateSlabCount p.slabs.length with
  | none => (.error .trackerAssertion, p)
  | some tracker => (.ok (), { p with vacancyTracker := tracker })

/-- Tells the tracker the new status of one slab. -/
def updateSlabStatus (p : RawOpaquePool α) (slabIndex : Nat) (hasVacancy : Bool) :
    Except Panic Unit × RawOpaquePool α :=
  match p.vacancyTracker.updateSlabStatus slabIndex hasVacancy with
  | none => (.error .trackerAssertion, p)
  | some tracker => (.ok (), { p with vacancyTracker := tracker })

/-- `reserve`. -/
def reserve (p : RawOpaquePool α) (additional : Nat) : Except Panic Unit × RawOpaquePool α :=
  match checkedAdd p.len additional with
  | none => (.error .capacityOverflow, p)
  | some requiredCapacity =>
    if requiredCapacity ≤ p.capacity then (.ok (), p)
    else
      let requiredSlabs := divCeil requiredCapacity p.slabLayout.capacity
      match p.extendSlabs (requiredSlabs - p.slabs.length) with
      | (.error why, p) => (.error why, p)
      | (.ok (), p) => p.updateSlabCount

/-- The number of slabs up to the last one that is not empty. -/
def shrunkLen (slabs : List (Slab α)) : Nat :=
  (slabs.zipIdx.reverse.findSome? fun (slab, idx) =>
    if slab.isEmpty then none else some (idx + 1)).getD 0

/-- `shrink_to_fit`. -/
def shrinkToFit (p : RawOpaquePool α) : Except Panic Unit × RawOpaquePool α :=
  let newLen := shrunkLen p.slabs
  if newLen = p.slabs.length then (.ok (), p)
  else updateSlabCount { p with slabs := p.slabs.take newLen }

/-- `allocate_slab_for_insert`. -/
def allocateSlabForInsert (p : RawOpaquePool α) : Except Panic Nat × RawOpaquePool α :=
  if p.len ≠ p.capacity then (.error .belowCapacity, p)
  else
    match p.pushSlab with
    | (.error why, p) => (.error why, p)
    | (.ok (), p) =>
      match p.updateSlabCount with
      | (.error why, p) => (.error why, p)
      | (.ok (), p) => (.ok (p.slabs.length - 1), p)

/-- `index_of_slab_to_insert_into`. -/
def indexOfSlabToInsertInto (p : RawOpaquePool α) : Except Panic Nat × RawOpaquePool α :=
  match p.vacancyTracker.nextVacancy with
  | some index => (.ok index, p)
  | none => p.allocateSlabForInsert

/-- What `insert_with_unchecked` does once the slab has stored the object. -/
def afterInsert (p : RawOpaquePool α) (slabIndex : Nat) (slab : Slab α) :
    Except Panic Unit × RawOpaquePool α :=
  let p := { p with
    slabs := p.slabs.set slabIndex slab
    length := wrappingAdd p.length 1 }
  if slab.isFull then p.updateSlabStatus slabIndex false else (.ok (), p)

/-- `insert_with_unchecked`: `f` is what the initializer writes, or nothing if
it panics. -/
def insertWithUnchecked (p : RawOpaquePool α) (layoutT : Layout) (f : Option α) :
    Except Panic RawPooled × RawOpaquePool α :=
  match p.indexOfSlabToInsertInto with
  | (.error why, p) => (.error why, p)
  | (.ok slabIndex, p) =>
    match p.slabs[slabIndex]? with
    | none => (.error .outOfBounds, p)
    | some slab =>
      match slab.insertWithUnchecked layoutT f with
      | (.error why, slab) => (.error why, { p with slabs := p.slabs.set slabIndex slab })
      | (.ok slabHandle, slab) =>
        match p.afterInsert slabIndex slab with
        | (.error why, p) => (.error why, p)
        | (.ok (), p) => (.ok ⟨slabIndex, slabHandle⟩, p)

/-- `insert_with`. -/
def insertWith (p : RawOpaquePool α) (layoutT : Layout) (f : Option α) :
    Except Panic RawPooled × RawOpaquePool α :=
  if layoutT ≠ p.objectLayout then (.error .layoutMismatch, p)
  else p.insertWithUnchecked layoutT f

/-- `insert`. -/
def insert (p : RawOpaquePool α) (layoutT : Layout) (value : α) :
    Except Panic RawPooled × RawOpaquePool α :=
  if layoutT ≠ p.objectLayout then (.error .layoutMismatch, p)
  else p.insertWithUnchecked layoutT (some value)

/-- What `remove` and `remove_unpin` do once the slab has let go of the slot. -/
def afterRemove (p : RawOpaquePool α) (slabIndex : Nat) (slab : Slab α) :
    Except Panic Unit × RawOpaquePool α :=
  let p := { p with
    slabs := p.slabs.set slabIndex slab
    length := wrappingSub p.length 1 }
  -- With one slot free the slab was full before.
  if slab.len = p.slabLayout.capacity - 1 then p.updateSlabStatus slabIndex true
  else (.ok (), p)

/-- `remove`. -/
def remove (p : RawOpaquePool α) (dropPanics : α → Bool) (handle : RawPooled) :
    Except Panic Unit × RawOpaquePool α :=
  match p.slabs[handle.slabIndex]? with
  | none => (.error .outOfBounds, p)
  | some slab =>
    match slab.remove dropPanics handle.slabHandle with
    | (.error why, slab) => (.error why, { p with slabs := p.slabs.set handle.slabIndex slab })
    | (.ok (), slab) => p.afterRemove handle.slabIndex slab

/-- `remove_unpin`. -/
def removeUnpin (p : RawOpaquePool α) (handle : RawPooled) :
    Except Panic α × RawOpaquePool α :=
  match p.slabs[handle.slabIndex]? with
  | none => (.error .outOfBounds, p)
  | some slab =>
    match slab.removeUnpin handle.slabHandle with
    | (.error why, slab) => (.error why, { p with slabs := p.slabs.set handle.slabIndex slab })
    | (.ok value, slab) =>
      match p.afterRemove handle.slabIndex slab with
      | (.error why, p) => (.error why, p)
      | (.ok (), p) => (.ok value, p)

/-- The object a handle points to. -/
def object? (p : RawOpaquePool α) (handle : RawPooled) : Option α :=
  p.slabs[handle.slabIndex]?.bind fun slab => slab.object? handle.slabHandle

end RawOpaquePool

end Folo.InfinityPool
