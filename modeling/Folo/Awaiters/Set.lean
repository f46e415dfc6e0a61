import Mathlib.Logic.Function.Basic

/-!
# `awaiter_set`: awaiters and the intrusive set that tracks them

The embedding of `awaiter.rs` and `set.rs`. An `Awaiter` lives inside the
future that owns it, at a stable address; the set stores the addresses of
its first and last awaiter, and the awaiters link each other. So every set
operation here takes and returns a `Store`: the set itself and the memory of
awaiters it points into.

What is kept and what is not:

* A raw pointer is a `Ptr`, a nullable one an `Option Ptr`. Addresses are
  numbers because the debug build of `pick_one` compares them.
* `debug` selects the build. A debug build checks the `debug_assert!`s and
  picks an end of the list by address, a release build takes the head. The
  set ids that only debug builds carry are kept in both, and only checked in
  debug builds.
* A failed `debug_assert!`, the `expect` of `remove` and the dereference of a
  null pointer end an operation with a `Fault`. The theorems show which of
  them cannot happen.
* Generations are 64-bit and wrap, as `wrapping_add` does.
-/

namespace Folo.Awaiters

/-- The address of a pinned awaiter. -/
abbrev Ptr := Nat

/-- The `IDLE`, `WAITING` and `NOTIFIED` constants of `awaiter.rs`. -/
inductive Lifecycle
  | idle
  | waiting
  | notified
  deriving DecidableEq, Repr

/-- The fields of an awaiter behind its `UnsafeCell`. -/
structure Inner (W : Type) where
  waker : Option W
  next : Option Ptr
  prev : Option Ptr
  generation : BitVec 64
  owningSetId : Nat

/-- `Inner::idle`. -/
def Inner.idle {W : Type} : Inner W where
  waker := none
  next := none
  prev := none
  generation := 0
  owningSetId := 0

structure Awaiter (W : Type) where
  inner : Inner W
  lifecycle : Lifecycle

namespace Awaiter

variable {W : Type}

/-- `Awaiter::new`. -/
def new : Awaiter W where
  inner := Inner.idle
  lifecycle := .idle

/-- `Awaiter::is_registered`: waiting, or notified and not yet consumed. -/
def isRegistered (a : Awaiter W) : Bool := a.lifecycle != .idle

/-- `Awaiter::is_notified`. -/
def isNotified (a : Awaiter W) : Bool := a.lifecycle == .notified

end Awaiter

/-- The awaiters at their addresses. -/
abbrev Memory (W : Type) := Ptr → Awaiter W

namespace Memory

variable {W : Type}

/-- Write through `inner_mut`. -/
def modifyInner (m : Memory W) (p : Ptr) (f : Inner W → Inner W) : Memory W :=
  Function.update m p { m p with inner := f (m p).inner }

/-- `Awaiter::set_lifecycle`. -/
def setLifecycle (m : Memory W) (p : Ptr) (phase : Lifecycle) : Memory W :=
  Function.update m p { m p with lifecycle := phase }

/-- A future is created at address `p`, with `Awaiter::new` inside it. -/
def create (m : Memory W) (p : Ptr) : Memory W := Function.update m p Awaiter.new

/-- `Awaiter::take_notification` on the awaiter at `p`: the atomic exchange
of `NOTIFIED` for `IDLE`, and whether it took place. -/
def takeNotification (m : Memory W) (p : Ptr) : Bool × Memory W :=
  if (m p).lifecycle = .notified then (true, m.setLifecycle p .idle) else (false, m)

@[simp] theorem modifyInner_lifecycle (m : Memory W) (p q : Ptr) (f : Inner W → Inner W) :
    (m.modifyInner p f q).lifecycle = (m q).lifecycle := by
  unfold modifyInner
  by_cases h : q = p
  · subst h; rw [Function.update_self]
  · rw [Function.update_of_ne h]

theorem modifyInner_inner (m : Memory W) (p q : Ptr) (f : Inner W → Inner W) :
    (m.modifyInner p f q).inner = if q = p then f (m p).inner else (m q).inner := by
  unfold modifyInner
  by_cases h : q = p
  · subst h; rw [Function.update_self, if_pos rfl]
  · rw [Function.update_of_ne h, if_neg h]

@[simp] theorem setLifecycle_inner (m : Memory W) (p q : Ptr) (phase : Lifecycle) :
    (m.setLifecycle p phase q).inner = (m q).inner := by
  unfold setLifecycle
  by_cases h : q = p
  · subst h; rw [Function.update_self]
  · rw [Function.update_of_ne h]

theorem setLifecycle_lifecycle (m : Memory W) (p q : Ptr) (phase : Lifecycle) :
    (m.setLifecycle p phase q).lifecycle = if q = p then phase else (m q).lifecycle := by
  unfold setLifecycle
  by_cases h : q = p
  · subst h; rw [Function.update_self, if_pos rfl]
  · rw [Function.update_of_ne h, if_neg h]

end Memory

structure AwaiterSet where
  head : Option Ptr
  tail : Option Ptr
  generation : BitVec 64
  setId : Nat

/-- `AwaiterSet::new`, with the id a debug build draws for it. -/
def AwaiterSet.new (setId : Nat) : AwaiterSet where
  head := none
  tail := none
  generation := 1
  setId := setId

/-- `AwaiterSet::is_empty`. -/
def AwaiterSet.isEmpty (s : AwaiterSet) : Bool := s.head.isNone

/-- Why an operation stops without a result. -/
inductive Fault
  /-- `register` was given an awaiter whose notification is unconsumed. -/
  | notifiedRegistered
  /-- `unregister` was given an idle awaiter. -/
  | idleUnregistered
  /-- An awaiter of another set was passed in (`debug_assert_owns`). -/
  | foreignAwaiter
  /-- "waker is always set while the awaiter is in WAITING state". -/
  | wakerMissing
  /-- A null pointer was dereferenced. -/
  | nullAwaiter
  /-- "Set state is exclusive with registered waiters". -/
  | waiterWhileSet
  deriving DecidableEq, Repr

/-- `debug_assert!`: checked in debug builds only. -/
def debugAssert (debug cond : Bool) (fault : Fault) : Except Fault Unit :=
  if debug && !cond then .error fault else .ok ()

/-- A set and the memory its pointers lead into. -/
structure Store (W : Type) where
  set : AwaiterSet
  mem : Memory W

namespace Store

variable {W : Type}

/-- An empty set over awaiters that are all fresh. -/
def new (setId : Nat) : Store W where
  set := AwaiterSet.new setId
  mem := fun _ => Awaiter.new

/-- A future is created next to the set. -/
def create (st : Store W) (p : Ptr) : Store W := { st with mem := st.mem.create p }

/-- An awaiter takes its notification next to the set. -/
def takeNotification (st : Store W) (p : Ptr) : Bool × Store W :=
  ((st.mem.takeNotification p).1, { st with mem := (st.mem.takeNotification p).2 })

/-- `debug_assert_owns`. -/
def debugAssertOwns (debug : Bool) (st : Store W) (p : Ptr) : Except Fault Unit :=
  debugAssert debug ((st.mem p).inner.owningSetId == st.set.setId) .foreignAwaiter

/-- `AwaiterSet::register`. -/
def register (debug : Bool) (st : Store W) (p : Ptr) (waker : W) : Except Fault (Store W) := do
  debugAssert debug ((st.mem p).lifecycle != .notified) .notifiedRegistered
  if (st.mem p).lifecycle = .waiting then
    st.debugAssertOwns debug p
    -- already registered: the waker is replaced in place
    return { st with mem := st.mem.modifyInner p fun i => { i with waker := some waker } }
  let mem := st.mem.modifyInner p fun _ =>
    { waker := some waker
      next := none
      prev := st.set.tail
      generation := st.set.generation
      owningSetId := st.set.setId }
  match st.set.tail with
  | none =>
    return { set := { st.set with head := some p, tail := some p }
             mem := mem.setLifecycle p .waiting }
  | some q =>
    let mem := mem.modifyInner q fun i => { i with next := some p }
    return { set := { st.set with tail := some p }
             mem := mem.setLifecycle p .waiting }

/-- `AwaiterSet::unlink`: splice out an awaiter whose links were `prev` and
`next`. -/
def unlink (st : Store W) (prev next : Option Ptr) : Store W :=
  let st := match prev with
    | none => { st with set := { st.set with head := next } }
    | some q => { st with mem := st.mem.modifyInner q fun i => { i with next := next } }
  match next with
  | none => { st with set := { st.set with tail := prev } }
  | some q => { st with mem := st.mem.modifyInner q fun i => { i with prev := prev } }

/-- `AwaiterSet::unregister`. -/
def unregister (debug : Bool) (st : Store W) (p : Ptr) : Except Fault (Store W) := do
  debugAssert debug ((st.mem p).lifecycle != .idle) .idleUnregistered
  -- a notified awaiter has already left the set
  if (st.mem p).lifecycle ≠ .waiting then return st
  st.debugAssertOwns debug p
  let unlinked := st.unlink (st.mem p).inner.prev (st.mem p).inner.next
  let mem := unlinked.mem.modifyInner p fun i => { i with waker := none, owningSetId := 0 }
  return { unlinked with mem := mem.setLifecycle p .idle }

/-- `AwaiterSet::remove`: unlink the awaiter at `p`, mark it notified and
hand out its waker. -/
def remove (debug : Bool) (st : Store W) (p : Ptr) : Except Fault (W × Store W) := do
  st.debugAssertOwns debug p
  let unlinked := st.unlink (st.mem p).inner.prev (st.mem p).inner.next
  let waker := (unlinked.mem p).inner.waker
  let mem := unlinked.mem.modifyInner p fun i => { i with waker := none, owningSetId := 0 }
  let st := { unlinked with mem := mem.setLifecycle p .notified }
  match waker with
  | none => throw .wakerMissing
  | some w => return (w, st)

end Store

/-- `AwaiterSet::pick_one`: the head, except that a debug build picks the end
with the greater address. -/
def AwaiterSet.pickOne (debug : Bool) (s : AwaiterSet) : Option Ptr :=
  if debug then
    if s.head = s.tail then s.head
    else if s.head.getD 0 > s.tail.getD 0 then s.head
    else s.tail
  else s.head

namespace Store

variable {W : Type}

/-- `AwaiterSet::notify_one`. -/
def notifyOne (debug : Bool) (st : Store W) : Except Fault (Option W × Store W) := do
  if st.set.isEmpty then return (none, st)
  match st.set.pickOne debug with
  | none => throw .nullAwaiter
  | some p =>
    let (w, st) ← st.remove debug p
    return (some w, st)

/-- `AwaiterSet::advance_generation`. -/
def advanceGeneration (st : Store W) : Store W :=
  { st with set := { st.set with generation := st.set.generation + 1 } }

/-- `AwaiterSet::notify_one_prior_generation`. -/
def notifyOnePriorGeneration (debug : Bool) (st : Store W) :
    Except Fault (Option W × Store W) := do
  match st.set.head with
  | none => return (none, st)
  | some p =>
    if (st.mem p).inner.generation ≥ st.set.generation then return (none, st)
    let (w, st) ← st.remove debug p
    return (some w, st)

end Store

end Folo.Awaiters
