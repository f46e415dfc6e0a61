import Folo.Lib.Machine
import Folo.Lib.Threads
import Folo.EventsOnce.State

/-!
# `Event`, its sender and its receiver

The embedding of `sync/event.rs` with `sync_sender.rs` and
`sync_receiver.rs`. There is one sender and one receiver, each `!Sync`, so
each is at one point of its code; the points are those before an atomic
operation on the state, an access to a cell, a callback and the release of
the storage. `set` and `sender_dropped_without_set` differ in how they get
to the awaiter, and then both take it, publish a terminal state (`Ending`)
and wake it.

A callback that uses the other endpoint is the other endpoint moving while
this one is before its next point.
-/

namespace Folo.EventsOnce

open Folo.Lib

variable {V W : Type}

namespace Sync

/-- Where the sender is. -/
inductive SenderPc (V W : Type)
  | idle
  /-- `set`: the value is written, and the state incremented. -/
  | setWrite (value : V)
  | setAdd
  /-- `sender_dropped_without_set`: the swap. -/
  | dropSwap
  /-- In `EVENT_SIGNALING`: the awaiter is read, the terminal state stored. -/
  | take (ending : Ending)
  | store (ending : Ending) (awaiter : Option (Clone W))
  | wake (awaiter : Clone W)
  /-- The receiver has disconnected: `take_value`, `release_event` and the
  destruction of the value. -/
  | takeValue
  | release (value : Option V)
  | dropValue (value : V)
  | done
  | fault (f : Fault)

/-- What follows the destruction of the awaiter in `poll_bound` or
`poll_awaiting`. -/
inductive After (W : Type)
  | bound (waker : W)
  | set
  | signaling
  | disconnected

/-- Where the receiver is; `last` is the clone that its last poll registered,
if it has been polled. -/
inductive ReceiverPc (V W : Type)
  | idle (last : Option (Clone W))
  /-- `poll`. -/
  | pollLoad (waker : W) (last : Option (Clone W))
  /-- `poll_bound`. -/
  | boundClone (waker : W)
  | boundWrite (awaiter : Clone W)
  | boundExchange (awaiter : Clone W)
  /-- `destroy_awaiter`. -/
  | takeAwaiter (after : After W)
  | dropAwaiter (awaiter : Clone W) (after : After W)
  /-- `poll_awaiting`. -/
  | awaitingExchange (waker : W)
  /-- `poll_set` and `poll_signaling`. -/
  | pollSet
  | pollSignaling
  /-- `release_event`, before the result is returned. -/
  | release (result : Option V)
  /-- `is_ready`. -/
  | isReady (last : Option (Clone W))
  /-- `into_value`. -/
  | intoValue (last : Option (Clone W))
  /-- `take_result`. -/
  | resultSwap
  | resultTake
  /-- `cancel`. -/
  | cancelExchange
  | cancelTake
  | cancelLoad (awaiter : Option (Clone W))
  | cancelStore (awaiter : Option (Clone W)) (current : Nat)
  | cancelSet (awaiter : Option (Clone W))
  /-- `cancel_receiver`, once the event is cancelled. -/
  | cancelRelease (value : Option V) (awaiter : Option (Clone W))
  | cancelDrop (value : Option V) (awaiter : Option (Clone W))
  | done
  | fault (f : Fault)

/-! ## The sender -/

/-- The next step accesses the event. -/
def SenderPc.touches : SenderPc V W → Bool
  | setWrite _ | setAdd | dropSwap | take _ | store .. | takeValue | release _ => true
  | idle | wake _ | dropValue _ | done | fault _ => false

/-- The next step of the sender. -/
def stepSender (e : Event V W) : SenderPc V W → Option (Event V W × SenderPc V W)
  | .setWrite value => some ({ e with value := some value }, .setAdd)
  | .setAdd =>
    -- `fetch_add(1)`.
    let state := (e.state + 1) % 256
    match e.state with
    | eventBound => some ({ e with state, owner := some .receiver }, .done)
    | eventAwaiting => some ({ e with state }, .take .set)
    | eventDisconnected => some ({ e with state }, .takeValue)
    | _ => some ({ e with state }, .fault .unreachable)
  | .dropSwap =>
    let state := eventSignaling
    match e.state with
    | eventBound => some ({ e with state }, .store .disconnected none)
    | eventAwaiting => some ({ e with state }, .take .disconnected)
    | eventDisconnected => some ({ e with state }, .release none)
    | _ => some ({ e with state }, .fault .unreachable)
  | .take ending =>
    match e.awaiter with
    | some awaiter => some ({ e with awaiter := none }, .store ending (some awaiter))
    | none => some (e, .fault .uninit)
  | .store ending awaiter =>
    some ({ e with state := ending.state, owner := some .receiver },
      match awaiter with
      | some awaiter => .wake awaiter
      | none => .done)
  | .wake awaiter => some (e.note (.woken awaiter), .done)
  | .takeValue =>
    match e.value with
    | some value => some ({ e with value := none }, .release (some value))
    | none => some (e, .fault .uninit)
  | .release value =>
    some (e.release .sender,
      match value with
      | some value => .dropValue value
      | none => .done)
  | .dropValue value => some (e.note (.destroyed value), .done)
  | .idle | .done | .fault _ => none

/-- What the sender does next. -/
def actSender (e : Event V W) :
    SenderPc V W → Act (SenderCall V) → Option (Event V W × SenderPc V W)
  | .idle, .call (.send value) => some (e.note (.sent value), .setWrite value)
  | .idle, .call .drop => some (e, .dropSwap)
  | _, .call _ => none
  | pc, .step =>
    if pc.touches && !e.mayTouch .sender then some (e, .fault .released) else stepSender e pc

/-! ## The receiver -/

def ReceiverPc.touches : ReceiverPc V W → Bool
  | pollLoad .. | boundWrite _ | boundExchange _ | takeAwaiter _ | awaitingExchange _ | pollSet
  | pollSignaling | release _ | isReady _ | intoValue _ | resultSwap | resultTake
  | cancelExchange | cancelTake | cancelLoad _ | cancelStore .. | cancelSet _
  | cancelRelease .. => true
  | idle _ | boundClone _ | dropAwaiter .. | cancelDrop .. | done | fault _ => false

/-- What `poll` does in a state. -/
def pollState (waker : W) (state : Nat) : ReceiverPc V W :=
  match state with
  | eventBound => .boundClone waker
  | eventSet => .pollSet
  | eventAwaiting => .awaitingExchange waker
  | eventSignaling => .pollSignaling
  | eventDisconnected => .release none
  | _ => .fault .unreachable

/-- What `cancel` finds once it has stored `EVENT_DISCONNECTED`. -/
def cancelled (e : Event V W) (awaiter : Option (Clone W)) (previous : Nat) :
    Event V W × ReceiverPc V W :=
  match previous with
  | eventBound =>
    -- The sender cleans up.
    ({ e with owner := some .sender }, .cancelDrop none awaiter)
  | eventSet => (e, .cancelSet awaiter)
  | eventDisconnected => (e, .cancelRelease none awaiter)
  | _ => (e, .fault .unreachable)

/-- `drop(cancellation)`: the value, then the waker. -/
def dropCancellation (e : Event V W) (value : Option V) (awaiter : Option (Clone W)) :
    Event V W × ReceiverPc V W :=
  match value, awaiter with
  | some value, _ => (e.note (.destroyed value), .cancelDrop none awaiter)
  | none, some awaiter => (e.note (.droppedWaker awaiter), .done)
  | none, none => (e, .done)

/-- The next step of the receiver. -/
def stepReceiver (e : Event V W) : ReceiverPc V W → Option (Event V W × ReceiverPc V W)
  | .pollLoad waker _ => some (e, pollState waker e.state)
  | .boundClone waker =>
    some (e.note (.cloned (e.nextClone waker)), .boundWrite (e.nextClone waker))
  | .boundWrite awaiter => some ({ e with awaiter := some awaiter }, .boundExchange awaiter)
  | .boundExchange awaiter =>
    match e.state with
    | eventBound =>
      some ({ e with state := eventAwaiting }.note .pending, .idle (some awaiter))
    | eventSet => some (e, .takeAwaiter .set)
    | eventSignaling => some (e, .takeAwaiter .signaling)
    | eventDisconnected => some (e, .takeAwaiter .disconnected)
    | _ => some (e, .fault .unreachable)
  | .takeAwaiter after =>
    match e.awaiter with
    | some awaiter => some ({ e with awaiter := none }, .dropAwaiter awaiter after)
    | none => some (e, .fault .uninit)
  | .dropAwaiter awaiter after =>
    some (e.note (.droppedWaker awaiter),
      match after with
      | .bound waker => .boundClone waker
      | .set => .pollSet
      | .signaling => .pollSignaling
      | .disconnected => .release none)
  | .awaitingExchange waker =>
    match e.state with
    | eventAwaiting => some ({ e with state := eventBound }, .takeAwaiter (.bound waker))
    | eventSet => some (e, .pollSet)
    | eventSignaling => some (e, .pollSignaling)
    | eventDisconnected => some (e, .release none)
    | _ => some (e, .fault .unreachable)
  | .pollSet =>
    match e.value with
    | some value => some ({ e with value := none }, .release (some value))
    | none => some (e, .fault .uninit)
  | .pollSignaling =>
    match e.state with
    | eventSignaling => some (e, .pollSignaling)
    | eventSet => some (e, .pollSet)
    | eventDisconnected => some (e, .release none)
    | _ => some (e, .fault .unreachable)
  | .release result => some ((e.release .receiver).note (.returned result), .done)
  | .isReady last => some (e.note (.ready (isSet e.state)), .idle last)
  | .intoValue last =>
    match e.state with
    | eventBound | eventAwaiting | eventSignaling => some (e.note .pending, .idle last)
    | eventSet | eventDisconnected => some (e, .resultSwap)
    | _ => some (e, .fault .unreachable)
  | .resultSwap =>
    let e' := { e with state := eventDisconnected }
    match e.state with
    | eventSet => some (e', .resultTake)
    | eventDisconnected => some (e', .release none)
    | _ => some (e', .fault .unreachable)
  | .resultTake =>
    match e.value with
    | some value => some ({ e with value := none }, .release (some value))
    | none => some (e, .fault .uninit)
  | .cancelExchange =>
    if e.state = eventAwaiting then some ({ e with state := eventBound }, .cancelTake)
    else some (e, .cancelLoad none)
  | .cancelTake =>
    match e.awaiter with
    | some awaiter => some ({ e with awaiter := none }, .cancelLoad (some awaiter))
    | none => some (e, .fault .uninit)
  | .cancelLoad awaiter =>
    if e.state = eventSignaling then some (e, .cancelLoad awaiter)
    else some (e, .cancelStore awaiter e.state)
  | .cancelStore awaiter current =>
    if e.state = current then
      some (cancelled { e with state := eventDisconnected } awaiter current)
    else some (e, .cancelLoad awaiter)
  | .cancelSet awaiter =>
    match e.value with
    | some value => some ({ e with value := none }, .cancelRelease (some value) awaiter)
    | none => some (e, .fault .uninit)
  | .cancelRelease value awaiter => some (e.release .receiver, .cancelDrop value awaiter)
  | .cancelDrop value awaiter => some (dropCancellation e value awaiter)
  | .idle _ | .done | .fault _ => none

/-- What the receiver does next. -/
def actReceiver (e : Event V W) :
    ReceiverPc V W → Act (ReceiverCall W) → Option (Event V W × ReceiverPc V W)
  | .idle last, .call (.poll waker) => some (e, .pollLoad waker last)
  | .idle last, .call .isReady => some (e, .isReady last)
  | .idle last, .call .intoValue => some (e, .intoValue last)
  | .idle _, .call .drop => some (e, .cancelExchange)
  | _, .call _ => none
  | pc, .step =>
    if pc.touches && !e.mayTouch .receiver then some (e, .fault .released) else stepReceiver e pc

/-! ## Both -/

/-- An event and its endpoints. -/
structure State (V W : Type) where
  event : Event V W
  sender : SenderPc V W
  receiver : ReceiverPc V W

/-- Which endpoint moves. -/
inductive Label (V W : Type)
  | sender (a : Act (SenderCall V))
  | receiver (a : Act (ReceiverCall W))

/-- One sender and one receiver, interleaved. -/
def machine (V W : Type) : Machine (State V W) (Label V W) where
  init := ⟨Event.new V W, .idle, .idle none⟩
  next σ
    | .sender a => (actSender σ.event σ.sender a).map fun r =>
      { σ with event := r.1, sender := r.2 }
    | .receiver a => (actReceiver σ.event σ.receiver a).map fun r =>
      { σ with event := r.1, receiver := r.2 }

end Sync

end Folo.EventsOnce
