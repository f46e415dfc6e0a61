import Mathlib.Data.Rat.Floor
import Mathlib.Data.List.Nodup

/-!
# Processors and hardware

The processors of a system as the platform reports them, each in a memory
region, and the hardware instance through which they are seen. A platform
never gives two processors one id (`Platform.nodup`), and knows the largest id
there is.
-/

namespace Folo.ManyCpus

abbrev ProcessorId := Nat

abbrev MemoryRegionId := Nat

/-- Which instance of the hardware, as several may exist side by side. -/
abbrev HardwareId := Nat

inductive EfficiencyClass where
  | efficiency
  | performance
  deriving DecidableEq

/-- A processor as the platform describes it. -/
structure AbstractProcessor where
  id : ProcessorId
  memoryRegionId : MemoryRegionId
  efficiencyClass : EfficiencyClass
  deriving DecidableEq

/-- A list that has a first element. -/
structure NonEmpty (α : Type) where
  head : α
  tail : List α
  deriving DecidableEq

namespace NonEmpty

variable {α β : Type}

def toList (xs : NonEmpty α) : List α :=
  xs.head :: xs.tail

def fromVec : List α → Option (NonEmpty α)
  | [] => none
  | x :: xs => some ⟨x, xs⟩

def map (f : α → β) (xs : NonEmpty α) : NonEmpty β :=
  ⟨f xs.head, xs.tail.map f⟩

@[simp] theorem toList_map (f : α → β) (xs : NonEmpty α) : (xs.map f).toList = xs.toList.map f :=
  rfl

theorem toList_of_fromVec {xs : List α} {ys : NonEmpty α} (h : fromVec xs = some ys) :
    ys.toList = xs := by
  cases xs with
  | nil => exact nomatch h
  | cons x xs =>
    obtain rfl := Option.some.inj h
    rfl

theorem exists_fromVec {xs : List α} (h : xs ≠ []) : ∃ ys, fromVec xs = some ys := by
  cases xs with
  | nil => exact absurd rfl h
  | cons x xs => exact ⟨_, rfl⟩

end NonEmpty

/-- What the platform reports. -/
structure Platform where
  getAllProcessors : NonEmpty AbstractProcessor
  maxProcessorId : ProcessorId
  /-- The processor time a second that the process may use. -/
  maxProcessorTime : Rat
  nodup : (getAllProcessors.toList.map AbstractProcessor.id).Nodup
  le_max : ∀ p ∈ getAllProcessors.toList, p.id ≤ maxProcessorId

structure SystemHardware where
  hardwareId : HardwareId
  platform : Platform

structure Processor where
  hardwareId : HardwareId
  inner : AbstractProcessor
  deriving DecidableEq

namespace Processor

def id (p : Processor) : ProcessorId :=
  p.inner.id

def memoryRegionId (p : Processor) : MemoryRegionId :=
  p.inner.memoryRegionId

def efficiencyClass (p : Processor) : EfficiencyClass :=
  p.inner.efficiencyClass

end Processor

structure ProcessorSet where
  processors : NonEmpty Processor
  hardware : SystemHardware

end Folo.ManyCpus
