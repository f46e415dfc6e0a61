import Folo.Lib.Threads
import Mathlib.Data.List.Basic
import Mathlib.Logic.Function.Basic

/-!
# `FutureDequeCore` and the wakers of its slots

The embedding of `future_deque_core.rs`, with the waker vtable of
`waker_meta.rs`. The deque is used through `&mut self`, so one thread at a
time, the owner; it is the thread `none`. Any number of threads `some w` use
the wakers that the futures have cloned. A poll pass is a sequence of steps:
the parent waker is updated under its mutex, each slot's flag is exchanged,
and polling a future is left to the environment, which answers with
`.polled`. While a future is being polled it may use the waker it is given,
and hand it to other threads; whoever does so is one more thread here.

Ownership of wakers is what Rust checks. `held p` counts the wakers for
`p` that exist outside the deque, `owned p` are the threads in a call that
uses one up (`wake`, `drop`) and `borrowed p` those in a call on a borrowed
one (`wake_by_ref`, `clone`). A borrowed waker may not go away, so the last
one is not given up while `borrowed p` is not empty. The wakers for one slot
are interchangeable, so they are counted and not named.
-/

namespace Folo.FutureDeque

/-! ## The metadata behind the wakers of a slot

The embedding of `waker_meta.rs`. The metadata of a slot is one cell of a
memory, with a reference count and an activation flag. `create`, `addRef`,
`releaseRef`, `activate` and `checkActivated` are the accesses the code
makes to it, each one atomic operation; an access to a cell that is not
allocated has no result.

Releasing the last reference also returns the cell to its pool. The source
does this right after the `fetch_sub`, when nobody else has a reference any
more, so it is one operation here. A count is a `Nat`: each reference is a
waker in memory, and there is no room for `2 ^ 64` of them.
-/

/-- `MetaPtr`: where a `WakerMeta` is. -/
abbrev MetaPtr := Nat

/-- `WakerMeta`, less the parent, which all slots of a deque share. -/
structure WakerMeta where
  refCount : Nat
  activated : Bool

/-- The memory of the metadata. -/
abbrev Metas := MetaPtr → Option WakerMeta

namespace Metas

/-- `create_waker_meta` and the `make_waker` that follows it: one reference
for the slot and one for the waker in it. The slot starts out activated. -/
def create (metas : Metas) (p : MetaPtr) : Option Metas :=
  match metas p with
  | none => some (Function.update metas p (some ⟨2, true⟩))
  | some _ => none

/-- `ref_count.fetch_add(1)`. -/
def addRef (metas : Metas) (p : MetaPtr) : Option Metas :=
  (metas p).map fun m => Function.update metas p (some { m with refCount := m.refCount + 1 })

/-- `release_ref`. -/
def releaseRef (metas : Metas) (p : MetaPtr) : Option Metas :=
  (metas p).map fun m => Function.update metas p
    (if m.refCount = 1 then none else some { m with refCount := m.refCount - 1 })

/-- `activated.swap(1)`: the flag as it was. -/
def activate (metas : Metas) (p : MetaPtr) : Option (Bool × Metas) :=
  (metas p).map fun m =>
    (m.activated, Function.update metas p (some { m with activated := true }))

/-- `check_activated`: the flag as it was. -/
def checkActivated (metas : Metas) (p : MetaPtr) : Option (Bool × Metas) :=
  (metas p).map fun m =>
    (m.activated, Function.update metas p (some { m with activated := false }))

/-- The reference count of a cell, zero if it is not allocated. -/
def refs (metas : Metas) (p : MetaPtr) : Nat := (metas p).elim 0 WakerMeta.refCount

/-- The activation flag of a cell. -/
def flag (metas : Metas) (p : MetaPtr) : Bool := (metas p).elim false WakerMeta.activated

/-! ## What each access changes -/

theorem create_eq_some {metas metas' : Metas} {p : MetaPtr} (h : metas.create p = some metas') :
    metas p = none ∧ metas' = Function.update metas p (some ⟨2, true⟩) := by
  unfold create at h
  split at h
  next hp => exact ⟨hp, (Option.some.inj h).symm⟩
  next => cases h

theorem addRef_eq_some {metas metas' : Metas} {p : MetaPtr} (h : metas.addRef p = some metas') :
    ∃ m, metas p = some m ∧
      metas' = Function.update metas p (some { m with refCount := m.refCount + 1 }) := by
  obtain ⟨m, hm, rfl⟩ := Option.map_eq_some_iff.mp h
  exact ⟨m, hm, rfl⟩

theorem releaseRef_eq_some {metas metas' : Metas} {p : MetaPtr}
    (h : metas.releaseRef p = some metas') :
    ∃ m, metas p = some m ∧ metas' = Function.update metas p
      (if m.refCount = 1 then none else some { m with refCount := m.refCount - 1 }) := by
  obtain ⟨m, hm, rfl⟩ := Option.map_eq_some_iff.mp h
  exact ⟨m, hm, rfl⟩

theorem activate_eq_some {metas metas' : Metas} {p : MetaPtr} {was : Bool}
    (h : metas.activate p = some (was, metas')) :
    ∃ m, metas p = some m ∧ m.activated = was ∧
      metas' = Function.update metas p (some { m with activated := true }) := by
  obtain ⟨m, hm, heq⟩ := Option.map_eq_some_iff.mp h
  cases heq
  exact ⟨m, hm, rfl, rfl⟩

theorem checkActivated_eq_some {metas metas' : Metas} {p : MetaPtr} {was : Bool}
    (h : metas.checkActivated p = some (was, metas')) :
    ∃ m, metas p = some m ∧ m.activated = was ∧
      metas' = Function.update metas p (some { m with activated := false }) := by
  obtain ⟨m, hm, heq⟩ := Option.map_eq_some_iff.mp h
  cases heq
  exact ⟨m, hm, rfl, rfl⟩

end Metas

open Folo.Lib

/-- `Slot`. Futures are numbered in the order in which they were pushed; the
waker in a pending slot is the one for `metaPtr`. -/
inductive Slot (V : Type)
  | pending (handle : Nat) (metaPtr : MetaPtr)
  | ready (value : V)

namespace Slot

variable {V : Type}

def isReady : Slot V → Bool
  | ready _ => true
  | pending .. => false

def takeValue : Slot V → Option V
  | ready value => some value
  | pending .. => none

/-- The metadata of a pending slot. -/
def metaPtr? : Slot V → Option MetaPtr
  | ready _ => none
  | pending _ p => some p

end Slot

/-- The two ends. -/
inductive End
  | front
  | back
deriving DecidableEq

/-- The element at an end. -/
def atEnd {α : Type} (l : List α) : End → Option α
  | .front => l.head?
  | .back => l.getLast?

/-- The list without the element at an end. -/
def withoutEnd {α : Type} (l : List α) : End → List α
  | .front => l.tail
  | .back => l.dropLast

theorem atEnd_map {α β : Type} (f : α → β) (l : List α) (side : End) :
    atEnd (l.map f) side = (atEnd l side).map f := by
  cases side with
  | front => exact List.head?_map
  | back => exact List.getLast?_map

theorem withoutEnd_map {α β : Type} (f : α → β) (l : List α) (side : End) :
    withoutEnd (l.map f) side = (withoutEnd l side).map f := by
  cases side with
  | front => exact List.map_tail.symm
  | back => exact List.map_dropLast.symm

variable {P V W : Type}

/-- The deque, the memory of its metadata, and who has which waker. -/
structure Core (P V W : Type) where
  /-- The contents of the mutex, and the thread that holds it. -/
  sharedParent : P
  lockedBy : Option (Option W)
  slots : List (Slot V)
  futures : Nat
  metas : Metas
  held : MetaPtr → Nat
  owned : MetaPtr → List (Option W)
  borrowed : MetaPtr → List (Option W)
  /-- The metadata whose waker is lent to the future that is being polled. -/
  context : Option MetaPtr
  /-- The references of a slot that has been taken out and not released yet. -/
  leaving : List MetaPtr

/-- `Poll`. -/
inductive Poll (α : Type)
  | ready (value : α)
  | pending
deriving DecidableEq

/-- What a call on the deque returns. -/
inductive Returned (V : Type)
  | unit
  | popped (value : Option V)
  | polled (poll : Poll Unit)
  | polledNext (poll : Poll (Option V))
deriving DecidableEq

/-- What a poll pass is for: `poll`, or `poll_next` and `poll_back`. -/
inductive Pass
  | poll
  | next (side : End)

/-- Whether a wake is on a borrowed waker or uses it up. -/
inductive Mode
  | byRef
  | byValue

/-- Where a thread is. -/
inductive Pc (P V : Type)
  | idle (last : Option (Returned V))
  /-- `poll`, up to the update of the parent waker. -/
  | pollLock (pass : Pass) (waker : P)
  | pollUpdate (pass : Pass) (waker : P)
  /-- The head of the loop over the slots. -/
  | pollSlot (pass : Pass) (i : Nat)
  /-- Inside `poll_erased`. -/
  | polling (pass : Pass) (i : Nat) (p : MetaPtr)
  /-- The old slot: `release_ref(meta)`, then its waker is dropped. -/
  | pollRelease (pass : Pass) (i : Nat) (p : MetaPtr)
  | pollDropWaker (pass : Pass) (i : Nat) (p : MetaPtr)
  /-- The loop of `drop`. -/
  | dropSlot
  | dropRelease (p : MetaPtr)
  | dropDropWaker (p : MetaPtr)
  | dropped
  /-- `wake_by_ref_raw_waker`. -/
  | wakeSwap (mode : Mode) (p : MetaPtr)
  | wakeLock (mode : Mode) (p : MetaPtr)
  | wakeClone (mode : Mode) (p : MetaPtr)
  | wakeParent (mode : Mode) (p : MetaPtr) (parent : P)
  /-- `drop_raw_waker`. -/
  | dropWaker (p : MetaPtr)
  /-- `clone_raw_waker`. -/
  | cloneWaker (p : MetaPtr)

/-- The calls on the deque, the answer of a future that is polled, and the
calls on wakers. -/
inductive Call (P V : Type)
  | push (side : End) (p : MetaPtr)
  | pop (side : End)
  | poll (waker : P)
  | pollNext (side : End) (waker : P)
  | polled (poll : Poll V)
  | drop
  | wake (mode : Mode) (p : MetaPtr)
  | cloneWaker (p : MetaPtr)
  | dropWaker (p : MetaPtr)

namespace Core

/-- `new`. -/
def new (P V W : Type) (noop : P) : Core P V W where
  sharedParent := noop
  lockedBy := none
  slots := []
  futures := 0
  metas := fun _ => none
  held := fun _ => 0
  owned := fun _ => []
  borrowed := fun _ => []
  context := none
  leaving := []

/-! ## The deque -/

/-- `VecDeque::push_front` and `VecDeque::push_back`. -/
def pushSlot (slots : List (Slot V)) (slot : Slot V) : End → List (Slot V)
  | .front => slot :: slots
  | .back => slots ++ [slot]

/-- `push_back_handle` and `push_front_handle`; the pool gives out `p`. -/
def push (c : Core P V W) (side : End) (p : MetaPtr) : Option (Core P V W) :=
  (c.metas.create p).map fun metas =>
    { c with
      metas := metas
      futures := c.futures + 1
      slots := pushSlot c.slots (.pending c.futures p) side }

/-- `pop_front` and `pop_back`: `pop_front_if(is_ready)` and its value. -/
def pop (c : Core P V W) (side : End) : Option V × Core P V W :=
  match atEnd c.slots side with
  | none => (none, c)
  | some slot =>
    if slot.isReady then (slot.takeValue, { c with slots := withoutEnd c.slots side })
    else (none, c)

/-- What is left of a poll pass once all slots have been visited. -/
def finish (c : Core P V W) : Pass → Core P V W × Returned V
  | .poll => (c, .polled (if c.slots.any fun s => !s.isReady then .pending else .ready ()))
  | .next side =>
    match c.pop side with
    | (some value, c) => (c, .polledNext (.ready (some value)))
    | (none, c) => (c, .polledNext (if c.slots.isEmpty then .ready none else .pending))

/-! ## Wakers -/

/-- A call on a borrowed waker for `p` begins. -/
def borrow [DecidableEq W] (c : Core P V W) (t : Option W) (p : MetaPtr) : Option (Core P V W) :=
  if 0 < c.held p ∨ c.context = some p then
    some { c with borrowed := Function.update c.borrowed p (t :: c.borrowed p) }
  else none

/-- The calls on borrowed wakers for `p` do without `held` or `context`. -/
def Free (c : Core P V W) (p : MetaPtr) (held : Nat) (context : Option MetaPtr) : Prop :=
  c.borrowed p = [] ∨ 0 < held ∨ context = some p

instance (c : Core P V W) (p : MetaPtr) (held : Nat) (context : Option MetaPtr) :
    Decidable (c.Free p held context) := by
  unfold Free
  have : Decidable (c.borrowed p = []) := decidable_of_iff _ List.isEmpty_iff
  infer_instance

/-- A call that uses a waker for `p` up begins. -/
def own (c : Core P V W) (t : Option W) (p : MetaPtr) : Option (Core P V W) :=
  if 0 < c.held p ∧ c.Free p (c.held p - 1) c.context then
    some { c with
      held := Function.update c.held p (c.held p - 1)
      owned := Function.update c.owned p (t :: c.owned p) }
  else none

/-- `wake_by_ref_raw_waker` has returned. -/
def woken [DecidableEq W] (c : Core P V W) (t : Option W) (p : MetaPtr) :
    Mode → Core P V W × Pc P V
  | .byRef =>
    ({ c with borrowed := Function.update c.borrowed p ((c.borrowed p).erase t) }, .idle none)
  | .byValue => (c, .dropWaker p)

/-- The mutex of the parent waker. -/
def lock (c : Core P V W) (t : Option W) : Option (Core P V W) :=
  match c.lockedBy with
  | none => some { c with lockedBy := some t }
  | some _ => none

end Core

/-- The owner calls an operation of the deque. -/
def callOwner (c : Core P V W) : Call P V → Option (Core P V W × Pc P V)
  | .push side p => (c.push side p).map fun c => (c, .idle (some .unit))
  | .pop side =>
    let (value, c) := c.pop side
    some (c, .idle (some (.popped value)))
  | .poll waker => some (c, .pollLock .poll waker)
  | .pollNext side waker => some (c, .pollLock (.next side) waker)
  | .drop => some (c, .dropSlot)
  | _ => none

/-- The future that the owner polls returns. -/
def polled (c : Core P V W) (pass : Pass) (i : Nat) (p : MetaPtr) (poll : Poll V) :
    Option (Core P V W × Pc P V) :=
  if c.Free p (c.held p) none then
    match poll with
    | .pending => some ({ c with context := none }, .pollSlot pass (i + 1))
    | .ready value =>
      some ({ c with
        slots := c.slots.set i (.ready value)
        context := none
        leaving := [p, p] }, .pollRelease pass i p)
  else none

/-- The next step of the owner. -/
def stepOwner [DecidableEq P] (c : Core P V W) : Pc P V → Option (Core P V W × Pc P V)
  | .pollLock pass waker => (c.lock none).map fun c => (c, .pollUpdate pass waker)
  | .pollUpdate pass waker =>
    -- `will_wake` is equality of the wakers.
    let parent := if c.sharedParent = waker then c.sharedParent else waker
    some ({ c with sharedParent := parent, lockedBy := none }, .pollSlot pass 0)
  | .pollSlot pass i =>
    match c.slots[i]? with
    | none =>
      let (c, returned) := c.finish pass
      some (c, .idle (some returned))
    | some (.ready _) => some (c, .pollSlot pass (i + 1))
    | some (.pending _ p) =>
      (c.metas.checkActivated p).map fun (activated, metas) =>
        if activated then ({ c with metas := metas, context := some p }, .polling pass i p)
        else ({ c with metas := metas }, .pollSlot pass (i + 1))
  | .pollRelease pass i p =>
    (c.metas.releaseRef p).map fun metas =>
      ({ c with metas := metas, leaving := [p] }, .pollDropWaker pass i p)
  | .pollDropWaker pass i p =>
    (c.metas.releaseRef p).map fun metas =>
      ({ c with metas := metas, leaving := [] }, .pollSlot pass (i + 1))
  | .dropSlot =>
    match c.slots with
    | [] => some (c, .dropped)
    | .ready _ :: rest => some ({ c with slots := rest }, .dropSlot)
    | .pending _ p :: rest =>
      some ({ c with slots := rest, leaving := [p, p] }, .dropRelease p)
  | .dropRelease p =>
    (c.metas.releaseRef p).map fun metas =>
      ({ c with metas := metas, leaving := [p] }, .dropDropWaker p)
  | .dropDropWaker p =>
    (c.metas.releaseRef p).map fun metas => ({ c with metas := metas, leaving := [] }, .dropSlot)
  | _ => none

/-- A thread calls an operation of a waker. -/
def callWaker [DecidableEq W] (t : Option W) (c : Core P V W) :
    Call P V → Option (Core P V W × Pc P V)
  | .wake .byRef p => (c.borrow t p).map fun c => (c, .wakeSwap .byRef p)
  | .wake .byValue p => (c.own t p).map fun c => (c, .wakeSwap .byValue p)
  | .cloneWaker p => (c.borrow t p).map fun c => (c, .cloneWaker p)
  | .dropWaker p => (c.own t p).map fun c => (c, .dropWaker p)
  | _ => none

/-- The next step of a thread in a call on a waker. -/
def stepWaker [DecidableEq W] (t : Option W) (c : Core P V W) :
    Pc P V → Option (Core P V W × Pc P V)
  | .wakeSwap mode p =>
    (c.metas.activate p).map fun (activated, metas) =>
      -- Only the wake that sets the flag wakes the parent.
      if activated then { c with metas := metas }.woken t p mode
      else ({ c with metas := metas }, .wakeLock mode p)
  | .wakeLock mode p => (c.lock t).map fun c => (c, .wakeClone mode p)
  | .wakeClone mode p => some ({ c with lockedBy := none }, .wakeParent mode p c.sharedParent)
  | .wakeParent mode p _ => some (c.woken t p mode)
  | .dropWaker p =>
    (c.metas.releaseRef p).map fun metas =>
      ({ c with metas := metas, owned := Function.update c.owned p ((c.owned p).erase t) },
        .idle none)
  | .cloneWaker p =>
    (c.metas.addRef p).map fun metas =>
      ({ c with
        metas := metas
        held := Function.update c.held p (c.held p + 1)
        borrowed := Function.update c.borrowed p ((c.borrowed p).erase t) }, .idle none)
  | _ => none

/-- The owner and the threads that use wakers. -/
def act [DecidableEq P] [DecidableEq W] :
    Option W → Pc P V → Act (Call P V) → Core P V W → Option (Core P V W × Pc P V)
  | none, .idle _, .call op, c => callOwner c op
  | none, .polling pass i p, .call (.polled poll), c => polled c pass i p poll
  | none, pc, .step, c => stepOwner c pc
  | some w, .idle _, .call op, c => callWaker (some w) c op
  | some w, pc, .step, c => stepWaker (some w) c pc
  | _, _, .call _, _ => none

/-- A deque, its owner and the threads that use its wakers. -/
def futureDeque (P V W : Type) [DecidableEq P] [DecidableEq W] (noop : P) :
    Machine (Threads (Core P V W) (Pc P V) (Option W)) (Option W × Act (Call P V)) :=
  threads (Core.new P V W noop) (.idle none) act

end Folo.FutureDeque
