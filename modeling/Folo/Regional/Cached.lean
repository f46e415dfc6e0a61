import Folo.Lib.Threads
import Folo.Regional.States

/-!
# `region_cached`

A value for the whole process, of which each memory region has a copy. A
writer stores the value and then clears the slots of the regions one by one; a
reader that finds its slot empty loads the value and puts a copy there.

The program is one action for each load, store, swap, wait and set. What a
thread is told by its environment (the call it makes, whether the clone of the
value panics) is an `Op`.
-/

namespace Folo.Regional

open Folo.Lib

structure GenerationValue (α : Type) where
  generation : UInt64
  value : α
  deriving DecidableEq

structure GlobalState (regionCount : Nat) (α : Type) where
  latestValue : GenerationValue α
  nextGeneration : UInt64
  regionalStates : RegionalStates regionCount (GenerationValue α)

def GlobalState.new (regionCount : Nat) {α : Type} (initialValue : α) :
    GlobalState regionCount α where
  latestValue := ⟨0, initialValue⟩
  nextGeneration := 1
  regionalStates := .new regionCount _

namespace RegionCached

variable {regionCount : Nat} {α T : Type}

inductive Op (regionCount : Nat) (α : Type) where
  /-- A thread that is pinned to the region gets its instance, which has
  located the slot. -/
  | acquire (region : Fin regionCount)
  /-- `located` is a call on such an instance. -/
  | withCached (region : Fin regionCount) (located : Bool)
  | setGlobal (value : α)
  | cloned (panics : Bool)

/-- Where a thread is. A reader that invalidates the regions comes back to
`loadLatest` for its own. -/
inductive Pc (regionCount : Nat) (α : Type) where
  | idle
  | locate (region : Fin regionCount) (read : Bool)
  | tryWithValue (region : Fin regionCount)
  | returned (value : α)
  | loadLatest (region : Fin regionCount)
  | initializing (region : Fin regionCount) (value : GenerationValue α)
  | wait (region : Fin regionCount) (value : GenerationValue α) (signal : Nat)
  | compareAndSwap (region : Fin regionCount) (value : GenerationValue α)
  | clone (region : Fin regionCount) (value : GenerationValue α) (signal : Nat)
  | storeReady (region : Fin regionCount) (value : GenerationValue α) (signal : Nat)
  | setSignal (region : Fin regionCount) (value : GenerationValue α) (signal : Nat)
  | cleanupStore (region : Fin regionCount) (signal : Nat)
  | cleanupSet (signal : Nat)
  | fetchGeneration (value : α)
  | storeLatest (value : GenerationValue α)
  | invalidate (index : Nat) (reader : Option (Fin regionCount))
  | clear (region : Fin regionCount) (reader : Option (Fin regionCount))
  deriving DecidableEq

/-- What a reader does with the generation that its slot was initialised
with. -/
def checkGeneration (region : Fin regionCount) (value : GenerationValue α)
    (actualGeneration : UInt64) : Pc regionCount α :=
  if value.generation = actualGeneration then .tryWithValue region
  else .invalidate 0 (some region)

/-- `invalidate_regions`, at the slot of an index. -/
def invalidateRegions (s : RegionalStates regionCount (GenerationValue α)) (index : Nat)
    (reader : Option (Fin regionCount)) : Pc regionCount α :=
  if h : index < regionCount then
    if s.located ⟨index, h⟩ then .clear ⟨index, h⟩ reader else .invalidate (index + 1) reader
  else
    match reader with
    | some region => .loadLatest region
    | none => .idle

def act (pc : Pc regionCount α) (a : Act (Op regionCount α)) (s : GlobalState regionCount α) :
    Option (GlobalState regionCount α × Pc regionCount α) :=
  match pc, a with
  | .idle, .call (.acquire region) => some (s, .locate region false)
  | .idle, .call (.withCached region false) => some (s, .locate region true)
  | .idle, .call (.withCached region true) =>
    if s.regionalStates.located region then some (s, .tryWithValue region) else none
  | .idle, .call (.setGlobal value) => some (s, .fetchGeneration value)
  | .locate region read, .step =>
    some ({ s with regionalStates := s.regionalStates.getOrInit region },
      if read then .tryWithValue region else .idle)
  | .tryWithValue region, .step =>
    match s.regionalStates.value region with
    | some (.ready value) => some (s, .returned value.value)
    | _ => some (s, .loadLatest region)
  | .returned _, .step => some (s, .idle)
  | .loadLatest region, .step => some (s, .initializing region s.latestValue)
  | .initializing region value, .step =>
    match s.regionalStates.value region with
    | some (.initializing signal) => some (s, .wait region value signal)
    | some (.ready actual) => some (s, checkGeneration region value actual.generation)
    | none => some (s, .compareAndSwap region value)
  | .wait region value signal, .step =>
    if s.regionalStates.isSet signal then some (s, .initializing region value) else none
  | .compareAndSwap region value, .step =>
    match s.regionalStates.value region with
    | none => some ({ s with regionalStates := s.regionalStates.enter region },
        .clone region value s.regionalStates.nextSignal)
    | some _ => some (s, .initializing region value)
  | .clone region value signal, .call (.cloned false) => some (s, .storeReady region value signal)
  | .clone region _ signal, .call (.cloned true) => some (s, .cleanupStore region signal)
  | .storeReady region value signal, .step =>
    some ({ s with regionalStates := s.regionalStates.store region (some (.ready value)) },
      .setSignal region value signal)
  | .setSignal region value signal, .step =>
    some ({ s with regionalStates := s.regionalStates.setSignal signal },
      checkGeneration region value value.generation)
  | .cleanupStore region signal, .step =>
    some ({ s with regionalStates := s.regionalStates.store region none }, .cleanupSet signal)
  | .cleanupSet signal, .step =>
    some ({ s with regionalStates := s.regionalStates.setSignal signal }, .idle)
  | .fetchGeneration value, .step =>
    some ({ s with nextGeneration := s.nextGeneration + 1 },
      .storeLatest ⟨s.nextGeneration, value⟩)
  | .storeLatest value, .step => some ({ s with latestValue := value }, .invalidate 0 none)
  | .invalidate index reader, .step => some (s, invalidateRegions s.regionalStates index reader)
  | .clear region reader, .step =>
    some ({ s with regionalStates := s.regionalStates.store region none },
      .invalidate (region + 1) reader)
  | _, _ => none

variable [DecidableEq T]

/-- Threads that read and write a value of which the regions have copies. -/
def regionCached (regionCount : Nat) (T : Type) [DecidableEq T] (initialValue : α) :
    Machine (Threads (GlobalState regionCount α) (Pc regionCount α) T)
      (T × Act (Op regionCount α)) :=
  threads (.new regionCount initialValue) .idle fun _ => act

end RegionCached

end Folo.Regional
