import Mathlib.Data.List.Dedup
import Folo.Lib.Machine
import Folo.ManyCpus.Hardware

/-!
# What is remembered of a pin

A thread remembers, for each hardware instance through which it was pinned, at
most a processor and a memory region. All that the instance says of the thread
afterwards is read from there and from the platform.

A platform has its own affinity mask for the thread: there is one instance
over the machine, and every fake one simulates its own.
-/

namespace Folo.ManyCpus

open Folo.Lib

/-! ## The map of a thread -/

structure ThreadState where
  pinnedProcessorId : Option ProcessorId
  pinnedMemoryRegionId : Option MemoryRegionId
  deriving DecidableEq

/-- `PIN_STATES` -/
structure PinStateMap where
  entries : List (HardwareId × ThreadState)

namespace PinStateMap

def get (m : PinStateMap) (hardwareId : HardwareId) : Option ThreadState :=
  m.entries.findSome? fun e => if e.1 = hardwareId then some e.2 else none

/-- The first entry of the instance gets the state. -/
def setFirst (hardwareId : HardwareId) (state : ThreadState) :
    List (HardwareId × ThreadState) → List (HardwareId × ThreadState)
  | [] => [(hardwareId, state)]
  | e :: entries =>
    if e.1 = hardwareId then (e.1, state) :: entries
    else e :: setFirst hardwareId state entries

def set (m : PinStateMap) (hardwareId : HardwareId) (state : ThreadState) : PinStateMap :=
  ⟨setFirst hardwareId state m.entries⟩

/-- `swap_remove`: the last entry takes the place of the one removed. -/
def swapRemove {α : Type} (xs : List α) (index : Nat) : List α :=
  match xs.getLast? with
  | some last => if index + 1 = xs.length then xs.dropLast else (xs.set index last).dropLast
  | none => xs

def remove (m : PinStateMap) (hardwareId : HardwareId) : PinStateMap :=
  match m.entries.findIdx? fun e => e.1 = hardwareId with
  | some index => ⟨swapRemove m.entries index⟩
  | none => m

end PinStateMap

/-! ## The instance -/

namespace SystemHardware

variable (hw : SystemHardware) (pins : PinStateMap)

def processors : List Processor :=
  hw.platform.getAllProcessors.toList.map (Processor.mk hw.hardwareId)

/-- The processors by id. -/
def allProcessorsSlice : List (Option Processor) :=
  hw.processors.foldl (fun slice p => slice.set p.id (some p))
    (List.replicate (hw.platform.maxProcessorId + 1) none)

/-- A processor that is not known is replaced by another. There always is
one. -/
def getProcessor (processorId : ProcessorId) : Processor :=
  match hw.allProcessorsSlice[processorId]? with
  | some (some processor) => processor
  | _ => (hw.allProcessorsSlice.findSome? fun p => p).getD
      ⟨hw.hardwareId, hw.platform.getAllProcessors.head⟩

def getPinnedProcessorId : Option ProcessorId :=
  (pins.get hw.hardwareId).bind ThreadState.pinnedProcessorId

def getPinnedMemoryRegionId : Option MemoryRegionId :=
  (pins.get hw.hardwareId).bind ThreadState.pinnedMemoryRegionId

/-- `none` where it panics. -/
def updatePinStatus (processorId : Option ProcessorId)
    (memoryRegionId : Option MemoryRegionId) : Option PinStateMap :=
  if memoryRegionId.isNone && processorId.isSome then none
  else some (pins.set hw.hardwareId ⟨processorId, memoryRegionId⟩)

def threadProcessors : Option ProcessorSet :=
  match hw.getPinnedProcessorId pins with
  | some processorId => some ⟨⟨hw.getProcessor processorId, []⟩, hw⟩
  | none =>
    match hw.getPinnedMemoryRegionId pins with
    | some memoryRegionId =>
      let processors := (hw.allProcessorsSlice.filterMap fun p => p).filter fun p =>
        p.memoryRegionId = memoryRegionId
      (NonEmpty.fromVec processors).map fun processors => ⟨processors, hw⟩
    | none => none

/-- `current` is what the platform says. -/
def currentProcessorId (current : ProcessorId) : ProcessorId :=
  (hw.getPinnedProcessorId pins).getD current

def currentMemoryRegionId (current : ProcessorId) : MemoryRegionId :=
  (hw.getPinnedMemoryRegionId pins).getD (hw.getProcessor current).memoryRegionId

def isThreadProcessorPinned : Bool :=
  (hw.getPinnedProcessorId pins).isSome

def isThreadMemoryRegionPinned : Bool :=
  (hw.getPinnedMemoryRegionId pins).isSome

end SystemHardware

/-- `pin_current_thread_to`, after the platform has the mask. -/
def ProcessorSet.pinCurrentThreadTo (set : ProcessorSet) (pins : PinStateMap) :
    Option PinStateMap :=
  let processor := set.processors.head
  if set.processors.toList.length = 1 then
    set.hardware.updatePinStatus pins (some processor.id) (some processor.memoryRegionId)
  else if (set.processors.toList.map Processor.memoryRegionId).dedup.length = 1 then
    set.hardware.updatePinStatus pins none (some processor.memoryRegionId)
  else set.hardware.updatePinStatus pins none none

/-! ## A thread and its instances -/

/-- An instance as the thread sees it: the mask that the platform has for the
thread, once there is one, and where the platform says that it runs. -/
structure Instance where
  hardware : SystemHardware
  mask : Option (NonEmpty Processor)
  current : ProcessorId

/-- The platform may let the thread run there. -/
def Instance.MayRunOn (inst : Instance) (current : ProcessorId) : Prop :=
  match inst.mask with
  | some mask => current ∈ mask.toList.map Processor.id
  | none => current ∈ inst.hardware.processors.map Processor.id

instance (inst : Instance) (current : ProcessorId) : Decidable (inst.MayRunOn current) := by
  unfold Instance.MayRunOn
  cases inst.mask <;> infer_instance

/-- Instance ids are counted up and never used again. -/
structure PinnedThread where
  nextHardwareId : HardwareId
  instances : HardwareId → Option Instance
  pinStates : PinStateMap

namespace PinnedThread

def start : PinnedThread :=
  ⟨0, fun _ => none, ⟨[]⟩⟩

def setInstance (s : PinnedThread) (id : HardwareId) (inst : Option Instance) : PinnedThread :=
  { s with instances := Function.update s.instances id inst }

inductive Op where
  /-- `from_platform`; the thread runs on `current`. -/
  | create (platform : Platform) (current : ProcessorId)
  /-- A set of the instance is pinned, and the platform moves the thread. -/
  | pin (id : HardwareId) (processors : NonEmpty Processor) (current : ProcessorId)
  /-- The platform moves the thread within the mask. -/
  | reschedule (id : HardwareId) (current : ProcessorId)
  /-- The last handle of the instance is dropped. -/
  | drop (id : HardwareId)

def next (s : PinnedThread) : Op → Option PinnedThread
  | .create platform current =>
    let inst : Instance := ⟨⟨s.nextHardwareId, platform⟩, none, current⟩
    if inst.MayRunOn current then
      some { s.setInstance s.nextHardwareId (some inst) with
        nextHardwareId := s.nextHardwareId + 1 }
    else none
  | .pin id processors current =>
    match s.instances id with
    | some inst =>
      let inst : Instance := { inst with mask := some processors, current := current }
      if inst.MayRunOn current then
        match (ProcessorSet.mk processors inst.hardware).pinCurrentThreadTo s.pinStates with
        | some pinStates => some { s.setInstance id (some inst) with pinStates := pinStates }
        | none => none
      else none
    | none => none
  | .reschedule id current =>
    match s.instances id with
    | some inst =>
      if inst.MayRunOn current then
        some (s.setInstance id (some { inst with current := current }))
      else none
    | none => none
  | .drop id =>
    match s.instances id with
    | some _ => some { s.setInstance id none with pinStates := s.pinStates.remove id }
    | none => none

end PinnedThread

def pinnedThreads : Machine PinnedThread PinnedThread.Op where
  init := .start
  next := PinnedThread.next

end Folo.ManyCpus
