import Folo.Lib.Threads
import Folo.Regional.States

/-!
# `region_local`

Each memory region has a value of its own. A writer stores it in the slot of
the region; a reader that finds the slot empty enters an attempt, calls the
initializer and stores what that returns.

The program is one action for each load, store, swap, wait and set. What a
thread is told by its environment (the call it makes, what the initializer
returns, or that it panics) is an `Op`.
-/

namespace Folo.Regional.RegionLocal

open Folo.Lib

variable {regionCount : Nat} {α T : Type}

inductive Op (regionCount : Nat) (α : Type) where
  /-- A thread that is pinned to the region gets its instance, which has
  located the slot. -/
  | acquire (region : Fin regionCount)
  /-- `located` is a call on such an instance. -/
  | withLocal (region : Fin regionCount) (located : Bool)
  | setLocal (region : Fin regionCount) (value : α)
  /-- The initializer has returned a value, or has panicked. -/
  | initialized (value : Option α)

/-- What a slot is located for. -/
inductive Purpose (α : Type) where
  | acquire
  | read
  | set (value : α)
  deriving DecidableEq

/-- Where a thread is. -/
inductive Pc (regionCount : Nat) (α : Type) where
  | idle
  | locate (region : Fin regionCount) (purpose : Purpose α)
  | tryWithValue (region : Fin regionCount)
  | returned (region : Fin regionCount) (value : α)
  | initializing (region : Fin regionCount)
  | wait (region : Fin regionCount) (signal : Nat)
  | compareAndSwap (region : Fin regionCount)
  | initializer (region : Fin regionCount) (signal : Nat)
  | storeReady (region : Fin regionCount) (value : α) (signal : Nat)
  | setSignal (region : Fin regionCount) (signal : Nat)
  | cleanupStore (region : Fin regionCount) (signal : Nat)
  | cleanupSet (signal : Nat)
  | set (region : Fin regionCount) (value : α)
  deriving DecidableEq

def Purpose.next (region : Fin regionCount) : Purpose α → Pc regionCount α
  | .acquire => .idle
  | .read => .tryWithValue region
  | .set value => .set region value

def act (pc : Pc regionCount α) (a : Act (Op regionCount α)) (s : RegionalStates regionCount α) :
    Option (RegionalStates regionCount α × Pc regionCount α) :=
  match pc, a with
  | .idle, .call (.acquire region) => some (s, .locate region .acquire)
  | .idle, .call (.withLocal region false) => some (s, .locate region .read)
  | .idle, .call (.withLocal region true) =>
    if s.located region then some (s, .tryWithValue region) else none
  | .idle, .call (.setLocal region value) => some (s, .locate region (.set value))
  | .locate region purpose, .step => some (s.getOrInit region, purpose.next region)
  | .tryWithValue region, .step =>
    match s.value region with
    | some (.ready value) => some (s, .returned region value)
    | _ => some (s, .initializing region)
  | .returned _ _, .step => some (s, .idle)
  | .initializing region, .step =>
    match s.value region with
    | some (.initializing signal) => some (s, .wait region signal)
    | some (.ready _) => some (s, .tryWithValue region)
    | none => some (s, .compareAndSwap region)
  | .wait region signal, .step =>
    if s.isSet signal then some (s, .tryWithValue region) else none
  | .compareAndSwap region, .step =>
    match s.value region with
    | none => some (s.enter region, .initializer region s.nextSignal)
    | some _ => some (s, .initializing region)
  | .initializer region signal, .call (.initialized (some value)) =>
    some (s, .storeReady region value signal)
  | .initializer region signal, .call (.initialized none) => some (s, .cleanupStore region signal)
  | .storeReady region value signal, .step =>
    some (s.store region (some (.ready value)), .setSignal region signal)
  | .setSignal region signal, .step => some (s.setSignal signal, .tryWithValue region)
  | .cleanupStore region signal, .step => some (s.store region none, .cleanupSet signal)
  | .cleanupSet signal, .step => some (s.setSignal signal, .idle)
  | .set region value, .step => some (s.store region (some (.ready value)), .idle)
  | _, _ => none

/-- Threads that read and write the values of their regions. -/
def regionLocal (regionCount : Nat) (α T : Type) [DecidableEq T] :
    Machine (Threads (RegionalStates regionCount α) (Pc regionCount α) T)
      (T × Act (Op regionCount α)) :=
  threads (.new regionCount α) .idle fun _ => act

/-- The values stored in each region, after a step of a thread. -/
def Pc.record (values : Fin regionCount → List α) : Pc regionCount α → Fin regionCount → List α
  | .set region value => Function.update values region (values region ++ [value])
  | _ => values

/-- The values that `set_local` calls have stored in each region. -/
def written : Machine.Monitor (Threads (RegionalStates regionCount α) (Pc regionCount α) T)
    (T × Act (Op regionCount α)) (Fin regionCount → List α) where
  start := fun _ => []
  update values σ l _ := (σ.pc l.1).record values

end Folo.Regional.RegionLocal
