import Mathlib.Algebra.GroupWithZero.Nat
import Mathlib.Logic.Function.Basic

/-!
# The regional states

`region_cached` and `region_local` keep a slot for each memory region. A slot
is made when a thread first comes to it from the region. What it holds is
nothing, a value, or the mark of a thread that is initialising it: others wait
for the signal of that attempt.

Each function here is one atomic step.
-/

namespace Folo.Regional

-- the numerals of one region and of two threads
instance neZeroOne : NeZero 1 := ⟨by decide⟩

instance neZeroTwo : NeZero 2 := ⟨by decide⟩

inductive RegionalValue (α : Type) where
  | initializing (signal : Nat)
  | ready (value : α)
  deriving DecidableEq

/-- The slots and the signals of all attempts. A new signal has a new
number. -/
structure RegionalStates (regionCount : Nat) (α : Type) where
  located : Fin regionCount → Bool
  value : Fin regionCount → Option (RegionalValue α)
  nextSignal : Nat
  isSet : Nat → Bool

namespace RegionalStates

variable {regionCount : Nat} {α : Type}

def new (regionCount : Nat) (α : Type) : RegionalStates regionCount α where
  located := fun _ => false
  value := fun _ => none
  nextSignal := 0
  isSet := fun _ => false

variable (s : RegionalStates regionCount α) (region other : Fin regionCount)
  (value : Option (RegionalValue α)) (signal : Nat)

/-- `get_or_init` -/
def getOrInit : RegionalStates regionCount α :=
  { s with located := Function.update s.located region true }

def store : RegionalStates regionCount α :=
  { s with value := Function.update s.value region value }

/-- The swap that enters an attempt, which has a signal of its own. -/
def enter : RegionalStates regionCount α :=
  { s with
    value := Function.update s.value region (some (.initializing s.nextSignal))
    nextSignal := s.nextSignal + 1
    isSet := Function.update s.isSet s.nextSignal false }

def setSignal : RegionalStates regionCount α :=
  { s with isSet := Function.update s.isSet signal true }

@[simp] theorem value_getOrInit : (s.getOrInit region).value = s.value := rfl
@[simp] theorem value_setSignal : (s.setSignal signal).value = s.value := rfl
@[simp] theorem isSet_getOrInit : (s.getOrInit region).isSet = s.isSet := rfl
@[simp] theorem isSet_store : (s.store region value).isSet = s.isSet := rfl
@[simp] theorem nextSignal_getOrInit : (s.getOrInit region).nextSignal = s.nextSignal := rfl
@[simp] theorem nextSignal_store : (s.store region value).nextSignal = s.nextSignal := rfl
@[simp] theorem nextSignal_setSignal : (s.setSignal signal).nextSignal = s.nextSignal := rfl

@[simp] theorem value_store_self : (s.store region value).value region = value :=
  Function.update_self ..

variable {s other region value} in
theorem value_store_of_ne (h : other ≠ region) :
    (s.store region value).value other = s.value other :=
  Function.update_of_ne h ..

@[simp] theorem value_enter_self :
    (s.enter region).value region = some (.initializing s.nextSignal) :=
  Function.update_self ..

variable {s other region} in
theorem value_enter_of_ne (h : other ≠ region) : (s.enter region).value other = s.value other :=
  Function.update_of_ne h ..

end RegionalStates

end Folo.Regional
