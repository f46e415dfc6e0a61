import Folo.Lib.Threads
import Folo.Events.EventInner

/-!
# `AutoResetEvent`

The embedding of `auto.rs`, in the manner of `Manual`: one `Pc` for each
point at which another thread can act. `try_wait` is a single `fetch_and`
that also occurs three times in `poll_wait`.
-/

namespace Folo.Events

open Folo.Lib Folo.Awaiters

namespace Auto

variable {W T : Type}

/-- The calls of the public interface; `poll` and `drop` are those of the
future at an address. -/
inductive Call (W : Type)
  | set
  | tryWait
  | wait (f : Ptr)
  | poll (f : Ptr) (waker : W)
  | drop (f : Ptr)

/-- Where a thread is. -/
inductive Pc (W : Type)
  | idle
  /-- `set`: `compare_exchange(IDLE, SIGNALED)`. -/
  | setCas
  | setLoad
  | setLock
  | setNotify
  /-- `fetch_and(!HAS_WAITERS)` after the last waiter was notified. -/
  | setClear (waker : W)
  /-- `store(SIGNALED)`: there was nobody to notify. -/
  | setStore
  | setUnlock (waker : Option W)
  | setWake (waker : W)
  | setReturn
  | tryWaitFetchAnd
  | tryWaitReturn (result : Bool)
  /-- `poll_wait` on the future at `f`: the first `try_wait`. -/
  | pollTryWait (f : Ptr) (waker : W)
  | pollTake (f : Ptr) (waker : W)
  | pollLock (f : Ptr) (waker : W)
  | pollTakeLocked (f : Ptr) (waker : W)
  | pollTryWaitLocked (f : Ptr) (waker : W)
  | pollFetchOr (f : Ptr) (waker : W)
  /-- The `try_wait` after `fetch_or(HAS_WAITERS)`. -/
  | pollRecheck (f : Ptr) (waker : W)
  | pollClear (f : Ptr)
  | pollRegister (f : Ptr) (waker : W)
  | pollUnlock (f : Ptr) (ready : Bool)
  | pollReturn (f : Ptr) (ready : Bool)
  /-- `drop_wait`: `is_registered`. -/
  | dropIsRegistered (f : Ptr)
  | dropLock (f : Ptr)
  | dropIsNotified (f : Ptr)
  /-- The notification of a cancelled future is forwarded. -/
  | dropNotify (f : Ptr)
  | dropStore (f : Ptr)
  | dropUnregister (f : Ptr)
  | dropClear (f : Ptr) (waker : Option W)
  | dropUnlock (f : Ptr) (waker : Option W)
  | dropWake (f : Ptr) (waker : W)
  | dropReturn (f : Ptr)

open StateWord

/-- A thread calls an operation. -/
def call (t : T) (s : EventInner W T) : Call W → Option (EventInner W T × Pc W)
  | .set => some (s, .setCas)
  | .tryWait => some (s, .tryWaitFetchAnd)
  | .wait f => (s.wait f).map fun s => (s, .idle)
  | .poll f w => (s.enter t f).map fun s => (s, .pollTryWait f w)
  | .drop f => (s.enter t f).map fun s => (s, .dropIsRegistered f)

/-- `try_wait`: whether the signal was stored, and the event without it. -/
def tryWait (s : EventInner W T) : Bool × EventInner W T :=
  (s.state.signal, { s with state := s.state &&& ~~~SIGNALED })

/-- The next step of a thread. -/
def step (debug : Bool) (t : T) (s : EventInner W T) : Pc W → Option (EventInner W T × Pc W)
  | .idle => none
  | .setCas =>
    if s.state = IDLE then some ({ s with state := SIGNALED }, .setReturn) else some (s, .setLoad)
  | .setLoad => some (s, if s.state.signal then .setReturn else .setLock)
  | .setLock => (s.lock t).map fun s => (s, .setNotify)
  | .setNotify =>
    match s.waiters.notifyOne debug with
    | .error _ => none
    | .ok (none, st) => some ({ s with waiters := st }, .setStore)
    | .ok (some w, st) =>
      some ({ s with waiters := st }, if st.set.isEmpty then .setClear w else .setUnlock (some w))
  | .setClear w => some ({ s with state := s.state &&& ~~~HAS_WAITERS }, .setUnlock (some w))
  | .setStore => some ({ s with state := SIGNALED }, .setUnlock none)
  | .setUnlock waker =>
    some (s.unlock, match waker with | none => .setReturn | some w => .setWake w)
  | .setWake _ => some (s, .setReturn)
  | .setReturn => some (s, .idle)
  | .tryWaitFetchAnd =>
    let (taken, s) := tryWait s
    some (s, .tryWaitReturn taken)
  | .tryWaitReturn _ => some (s, .idle)
  | .pollTryWait f w =>
    let (taken, s) := tryWait s
    some (s, if taken then .pollReturn f true else .pollTake f w)
  | .pollTake f w =>
    let (taken, st) := s.waiters.takeNotification f
    some ({ s with waiters := st }, if taken then .pollReturn f true else .pollLock f w)
  | .pollLock f w => (s.lock t).map fun s => (s, .pollTakeLocked f w)
  | .pollTakeLocked f w =>
    let (taken, st) := s.waiters.takeNotification f
    some ({ s with waiters := st }, if taken then .pollUnlock f true else .pollTryWaitLocked f w)
  | .pollTryWaitLocked f w =>
    let (taken, s) := tryWait s
    some (s, if taken then .pollUnlock f true else .pollFetchOr f w)
  | .pollFetchOr f w => some ({ s with state := s.state ||| HAS_WAITERS }, .pollRecheck f w)
  | .pollRecheck f w =>
    let (taken, s) := tryWait s
    some (s, if taken then .pollClear f else .pollRegister f w)
  | .pollClear f => some ({ s with state := s.state &&& ~~~HAS_WAITERS }, .pollUnlock f true)
  | .pollRegister f w =>
    match s.waiters.register debug f w with
    | .error _ => none
    | .ok st => some ({ s with waiters := st }, .pollUnlock f false)
  | .pollUnlock f ready => some (s.unlock, .pollReturn f ready)
  | .pollReturn f _ => some (s.leave f, .idle)
  | .dropIsRegistered f =>
    some (s, if (s.waiters.mem f).isRegistered then .dropLock f else .dropReturn f)
  | .dropLock f => (s.lock t).map fun s => (s, .dropIsNotified f)
  | .dropIsNotified f =>
    some (s, if (s.waiters.mem f).isNotified then .dropNotify f else .dropUnregister f)
  | .dropNotify f =>
    match s.waiters.notifyOne debug with
    | .error _ => none
    | .ok (none, st) => some ({ s with waiters := st }, .dropStore f)
    | .ok (some w, st) =>
      some ({ s with waiters := st },
        if st.set.isEmpty then .dropClear f (some w) else .dropUnlock f (some w))
  | .dropStore f => some ({ s with state := SIGNALED }, .dropUnlock f none)
  | .dropUnregister f =>
    match s.waiters.unregister debug f with
    | .error _ => none
    | .ok st =>
      some ({ s with waiters := st },
        if st.set.isEmpty then .dropClear f none else .dropUnlock f none)
  | .dropClear f waker =>
    some ({ s with state := s.state &&& ~~~HAS_WAITERS }, .dropUnlock f waker)
  | .dropUnlock f waker =>
    some (s.unlock, match waker with | none => .dropReturn f | some w => .dropWake f w)
  | .dropWake f _ => some (s, .dropReturn f)
  | .dropReturn f => some (s.free f, .idle)

/-- A thread that is in no operation may call one, any other takes its next
step. -/
def act (debug : Bool) (t : T) : Pc W → Act (Call W) → EventInner W T →
    Option (EventInner W T × Pc W)
  | .idle, .call op, s => call t s op
  | pc, .step, s => step debug t s pc
  | _, .call _, _ => none

end Auto

/-- An `AutoResetEvent` used by any number of threads. -/
def auto (W T : Type) [DecidableEq T] (debug : Bool) (setId : Nat) :
    Machine (Threads (EventInner W T) (Auto.Pc W) T) (T × Act (Auto.Call W)) :=
  threads (EventInner.boxed W T setId) .idle (Auto.act debug)

end Folo.Events
