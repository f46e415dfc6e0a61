import Folo.Lib.Threads
import Folo.Events.EventInner

/-!
# `ManualResetEvent`

The embedding of `manual.rs`. `Pc` has one value for each point of `set`,
`reset`, `try_wait`, `poll_wait` and `drop_wait` at which another thread can
act: before every atomic operation on the state word or on an awaiter's
lifecycle, and before every lock and unlock of the mutex. The calls of the
set that run under the mutex are one step each; so is `Waker::wake`, whose
effect is whatever the woken task then does as another thread.

`act` is what a thread does next. It has no value when the thread is blocked
at the mutex, and when a call of the set ends in a `Fault`.
-/

namespace Folo.Events

open Folo.Lib Folo.Awaiters

namespace Manual

variable {W T : Type}

/-- The calls of the public interface; `poll` and `drop` are those of the
future at an address. -/
inductive Call (W : Type)
  | set
  | reset
  | tryWait
  | wait (f : Ptr)
  | poll (f : Ptr) (waker : W)
  | drop (f : Ptr)

/-- Where a thread is. -/
inductive Pc (W : Type)
  | idle
  /-- `set`: `fetch_or(IS_SET)`. -/
  | setFetchOr
  | setLockAdvance
  | setAdvance
  | setUnlockAdvance
  /-- The head of the drain loop. -/
  | setLock
  | setNotify
  /-- `fetch_and(!HAS_WAITERS)`, holding what `notify_one_prior_generation`
  returned. -/
  | setClear (waker : Option W)
  | setUnlock (waker : Option W)
  | setWake (waker : W)
  | setReturn
  | resetFetchAnd
  | tryWaitLoad
  | tryWaitReturn (result : Bool)
  /-- `poll_wait` on the future at `f`: the first load of the state. -/
  | pollLoad (f : Ptr) (waker : W)
  | pollTake (f : Ptr) (waker : W)
  | pollLock (f : Ptr) (waker : W)
  | pollTakeLocked (f : Ptr) (waker : W)
  | pollLoadLocked (f : Ptr) (waker : W)
  | pollFetchOr (f : Ptr) (waker : W)
  /-- The re-check after `fetch_or(HAS_WAITERS)`. -/
  | pollRecheck (f : Ptr) (waker : W)
  | pollClear (f : Ptr)
  | pollRegister (f : Ptr) (waker : W)
  | pollUnlock (f : Ptr) (ready : Bool)
  | pollReturn (f : Ptr) (ready : Bool)
  /-- `drop_wait`: `is_registered`. -/
  | dropIsRegistered (f : Ptr)
  | dropLock (f : Ptr)
  | dropUnregister (f : Ptr)
  | dropClear (f : Ptr)
  | dropUnlock (f : Ptr)
  | dropReturn (f : Ptr)

open StateWord

/-- A thread calls an operation. -/
def call (t : T) (s : EventInner W T) : Call W → Option (EventInner W T × Pc W)
  | .set => some (s, .setFetchOr)
  | .reset => some (s, .resetFetchAnd)
  | .tryWait => some (s, .tryWaitLoad)
  | .wait f => (s.wait f).map fun s => (s, .idle)
  | .poll f w => (s.enter t f).map fun s => (s, .pollLoad f w)
  | .drop f => (s.enter t f).map fun s => (s, .dropIsRegistered f)

/-- The next step of a thread. -/
def step (debug : Bool) (t : T) (s : EventInner W T) : Pc W → Option (EventInner W T × Pc W)
  | .idle => none
  | .setFetchOr =>
    some ({ s with state := s.state ||| IS_SET },
      if s.state.waiters then .setLockAdvance else .setReturn)
  | .setLockAdvance => (s.lock t).map fun s => (s, .setAdvance)
  | .setAdvance => some ({ s with waiters := s.waiters.advanceGeneration }, .setUnlockAdvance)
  | .setUnlockAdvance => some (s.unlock, .setLock)
  | .setLock => (s.lock t).map fun s => (s, .setNotify)
  | .setNotify =>
    match s.waiters.notifyOnePriorGeneration debug with
    | .error _ => none
    | .ok (waker, st) =>
      some ({ s with waiters := st },
        if st.set.isEmpty then .setClear waker else .setUnlock waker)
  | .setClear waker => some ({ s with state := s.state &&& ~~~HAS_WAITERS }, .setUnlock waker)
  | .setUnlock waker =>
    some (s.unlock, match waker with | none => .setReturn | some w => .setWake w)
  | .setWake _ => some (s, .setLock)
  | .setReturn => some (s, .idle)
  | .resetFetchAnd => some ({ s with state := s.state &&& ~~~IS_SET }, .idle)
  | .tryWaitLoad => some (s, .tryWaitReturn s.state.signal)
  | .tryWaitReturn _ => some (s, .idle)
  | .pollLoad f w => some (s, if s.state.signal then .pollReturn f true else .pollTake f w)
  | .pollTake f w =>
    let (taken, st) := s.waiters.takeNotification f
    some ({ s with waiters := st }, if taken then .pollReturn f true else .pollLock f w)
  | .pollLock f w => (s.lock t).map fun s => (s, .pollTakeLocked f w)
  | .pollTakeLocked f w =>
    let (taken, st) := s.waiters.takeNotification f
    some ({ s with waiters := st }, if taken then .pollUnlock f true else .pollLoadLocked f w)
  | .pollLoadLocked f w =>
    some (s, if s.state.signal then .pollUnlock f true else .pollFetchOr f w)
  | .pollFetchOr f w => some ({ s with state := s.state ||| HAS_WAITERS }, .pollRecheck f w)
  | .pollRecheck f w => some (s, if s.state.signal then .pollClear f else .pollRegister f w)
  | .pollClear f => some ({ s with state := s.state &&& ~~~HAS_WAITERS }, .pollUnlock f true)
  | .pollRegister f w =>
    match s.waiters.register debug f w with
    | .error _ => none
    | .ok st => some ({ s with waiters := st }, .pollUnlock f false)
  | .pollUnlock f ready => some (s.unlock, .pollReturn f ready)
  | .pollReturn f _ => some (s.leave f, .idle)
  | .dropIsRegistered f =>
    some (s, if (s.waiters.mem f).isRegistered then .dropLock f else .dropReturn f)
  | .dropLock f => (s.lock t).map fun s => (s, .dropUnregister f)
  | .dropUnregister f =>
    match s.waiters.unregister debug f with
    | .error _ => none
    | .ok st =>
      some ({ s with waiters := st }, if st.set.isEmpty then .dropClear f else .dropUnlock f)
  | .dropClear f => some ({ s with state := s.state &&& ~~~HAS_WAITERS }, .dropUnlock f)
  | .dropUnlock f => some (s.unlock, .dropReturn f)
  | .dropReturn f => some (s.free f, .idle)

/-- A thread that is in no operation may call one, any other takes its next
step. -/
def act (debug : Bool) (t : T) : Pc W → Act (Call W) → EventInner W T →
    Option (EventInner W T × Pc W)
  | .idle, .call op, s => call t s op
  | pc, .step, s => step debug t s pc
  | _, .call _, _ => none

end Manual

/-- A `ManualResetEvent` used by any number of threads. -/
def manual (W T : Type) [DecidableEq T] (debug : Bool) (setId : Nat) :
    Machine (Threads (EventInner W T) (Manual.Pc W) T) (T × Act (Manual.Call W)) :=
  threads (EventInner.boxed W T setId) .idle (Manual.act debug)

end Folo.Events
