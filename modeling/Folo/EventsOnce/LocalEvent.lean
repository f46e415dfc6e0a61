import Folo.Lib.Machine
import Folo.EventsOnce.State

/-!
# `LocalEvent`, its sender and its receiver

The embedding of `local/event.rs` with `local_sender.rs` and
`local_receiver.rs`. Everything runs on one thread, so what an endpoint does
between two callbacks is one step. While it is in a callback (a waker is
cloned, woken or dropped, or a payload is dropped) the other endpoint can be
used; the callback then returns or unwinds. A waker counts as woken or
dropped, and a payload as destroyed, from when the callback is invoked; a
clone exists once the callback has returned it.

The nesting of callbacks is not enforced: there are more runs here than on a
real stack. Nor is it enforced that the endpoint of another operation is used
only from within a callback.
-/

namespace Folo.EventsOnce.Local

open Folo.Lib

variable {V W : Type}

/-- Where the sender is. -/
inductive SenderPc
  | idle
  /-- In `waker.wake()` and in the destructor of the payload; nothing
  follows. -/
  | waking
  | droppingValue
  | done
  | fault (f : Fault)

/-- Which `poll` is cloning. -/
inductive Polled
  | bound
  | awaiting

/-- Where the receiver is. -/
inductive ReceiverPc (W : Type)
  | idle
  /-- In `waker.clone()`, in `drop(new_waker)` of a terminal event, and in
  `drop(previous_waker)`. -/
  | cloning (waker : W) (polled : Polled)
  | droppingNew (ending : Ending)
  | droppingPrevious
  /-- In `drop(cancellation)`: the value, then the waker. -/
  | droppingValue (awaiter : Option (Clone W))
  | droppingWaker
  | done
  | fault (f : Fault)

/-- What an endpoint does next: it starts an operation, or the callback it is
in returns or unwinds. -/
inductive Move (O : Type)
  | call (op : O)
  | returns
  | unwinds

/-! ## The sender -/

/-- `set`, and what `send` does with a payload it gets back. -/
def set (e : Event V W) (value : V) : Event V W × SenderPc :=
  let e := { e with value := some value }
  let previous := e.state
  let e := { e with state := eventSet }
  match previous with
  | eventBound => ({ e with owner := some .receiver }, .done)
  | eventAwaiting =>
    match e.awaiter with
    | some awaiter =>
      ({ e with awaiter := none, owner := some .receiver }.note (.woken awaiter), .waking)
    | none => (e, .fault .uninit)
  | eventDisconnected =>
    match e.value with
    | some value =>
      (({ e with value := none }.release .sender).note (.destroyed value), .droppingValue)
    | none => (e, .fault .uninit)
  | _ => (e, .fault .unreachable)

/-- `sender_dropped_without_set`. -/
def senderDroppedWithoutSet (e : Event V W) : Event V W × SenderPc :=
  let previous := e.state
  let e := { e with state := eventDisconnected }
  match previous with
  | eventBound => ({ e with owner := some .receiver }, .done)
  | eventAwaiting =>
    match e.awaiter with
    | some awaiter =>
      ({ e with awaiter := none, owner := some .receiver }.note (.woken awaiter), .waking)
    | none => (e, .fault .uninit)
  | eventDisconnected => (e.release .sender, .done)
  | _ => (e, .fault .unreachable)

/-- What the sender does next. -/
def actSender (e : Event V W) : SenderPc → Move (SenderCall V) → Option (Event V W × SenderPc)
  | .idle, .call op =>
    if !e.mayTouch .sender then some (e, .fault .released)
    else match op with
      | .send value => some (set (e.note (.sent value)) value)
      | .drop => some (senderDroppedWithoutSet e)
  | .waking, .returns | .waking, .unwinds => some (e, .done)
  | .droppingValue, .returns | .droppingValue, .unwinds => some (e, .done)
  | _, _ => none

/-! ## The receiver -/

/-- `poll_set`, and the release that follows every result. -/
def pollSet (e : Event V W) : Event V W × ReceiverPc W :=
  match e.value with
  | some value =>
    (({ e with value := none }.release .receiver).note (.returned (some value)), .done)
  | none => (e, .fault .uninit)

def pollDisconnected (e : Event V W) : Event V W × ReceiverPc W :=
  ((e.release .receiver).note (.returned none), .done)

/-- `poll`. -/
def poll (e : Event V W) (waker : W) : Event V W × ReceiverPc W :=
  match e.state with
  | eventBound => (e, .cloning waker .bound)
  | eventSet => pollSet e
  | eventAwaiting => (e, .cloning waker .awaiting)
  | eventDisconnected => pollDisconnected e
  | _ => (e, .fault .unreachable)

/-- `poll_bound` once the waker is cloned. -/
def pollBound (e : Event V W) (newWaker : Clone W) : Event V W × ReceiverPc W :=
  match e.state with
  | eventBound =>
    ({ e with awaiter := some newWaker, state := eventAwaiting }.note .pending, .idle)
  | eventSet => (e.note (.droppedWaker newWaker), .droppingNew .set)
  | eventDisconnected => (e.note (.droppedWaker newWaker), .droppingNew .disconnected)
  | _ => (e, .fault .unreachable)

/-- `poll_awaiting` once the waker is cloned. -/
def pollAwaiting (e : Event V W) (newWaker : Clone W) : Event V W × ReceiverPc W :=
  match e.state with
  | eventAwaiting =>
    match e.awaiter with
    | some previousWaker =>
      ({ e with awaiter := some newWaker }.note (.droppedWaker previousWaker), .droppingPrevious)
    | none => (e, .fault .uninit)
  | eventSet => (e.note (.droppedWaker newWaker), .droppingNew .set)
  | eventDisconnected => (e.note (.droppedWaker newWaker), .droppingNew .disconnected)
  | _ => (e, .fault .unreachable)

/-- `take_result`, and the release that follows. -/
def takeResult (e : Event V W) : Event V W × ReceiverPc W :=
  let previous := e.state
  let e := { e with state := eventDisconnected }
  match previous with
  | eventSet => pollSet e
  | eventDisconnected => pollDisconnected e
  | _ => (e, .fault .unreachable)

/-- `into_value`. -/
def intoValue (e : Event V W) : Event V W × ReceiverPc W :=
  match e.state with
  | eventBound | eventAwaiting => (e.note .pending, .idle)
  | eventSet | eventDisconnected => takeResult e
  | _ => (e, .fault .unreachable)

/-- `drop(cancellation)` begins with the value, if there is one. -/
def dropAwaiter (e : Event V W) : Option (Clone W) → Event V W × ReceiverPc W
  | some awaiter => (e.note (.droppedWaker awaiter), .droppingWaker)
  | none => (e, .done)

/-- `cancel` once the awaiter is out, the release, and `drop(cancellation)`. -/
def disconnect (e : Event V W) (awaiter : Option (Clone W)) : Event V W × ReceiverPc W :=
  let previous := e.state
  let e := { e with state := eventDisconnected }
  match previous with
  | eventBound => dropAwaiter { e with owner := some .sender } awaiter
  | eventSet =>
    match e.value with
    | some value =>
      (({ e with value := none }.release .receiver).note (.destroyed value),
        .droppingValue awaiter)
    | none => (e, .fault .uninit)
  | eventDisconnected => dropAwaiter (e.release .receiver) awaiter
  | _ => (e, .fault .unreachable)

/-- The receiver is dropped. -/
def cancel (e : Event V W) : Event V W × ReceiverPc W :=
  if e.state = eventAwaiting then
    match e.awaiter with
    | some awaiter => disconnect { e with state := eventBound, awaiter := none } (some awaiter)
    | none => (e, .fault .uninit)
  else disconnect e none

/-- The next step accesses the event. -/
def touches : ReceiverPc W → Move (ReceiverCall W) → Bool
  | .idle, .call _ | .cloning _ _, .returns | .droppingNew .set, .returns
  | .droppingNew .disconnected, .returns => true
  | _, _ => false

/-- What the receiver does next, if it may access the event. -/
def stepReceiver (e : Event V W) :
    ReceiverPc W → Move (ReceiverCall W) → Option (Event V W × ReceiverPc W)
  | .idle, .call (.poll waker) => some (poll e waker)
  | .idle, .call .isReady => some (e.note (.ready (isSet e.state)), .idle)
  | .idle, .call .intoValue => some (intoValue e)
  | .idle, .call .drop => some (cancel e)
  | .cloning waker .bound, .returns =>
    some (pollBound (e.note (.cloned (e.nextClone waker))) (e.nextClone waker))
  | .cloning waker .awaiting, .returns =>
    some (pollAwaiting (e.note (.cloned (e.nextClone waker))) (e.nextClone waker))
  | .cloning _ _, .unwinds => some (e, .idle)
  | .droppingNew .set, .returns => some (pollSet e)
  | .droppingNew .disconnected, .returns => some (pollDisconnected e)
  | .droppingNew _, .unwinds => some (e, .idle)
  | .droppingPrevious, .returns => some (e.note .pending, .idle)
  | .droppingPrevious, .unwinds => some (e, .idle)
  | .droppingValue awaiter, .returns | .droppingValue awaiter, .unwinds =>
    some (dropAwaiter e awaiter)
  | .droppingWaker, .returns | .droppingWaker, .unwinds => some (e, .done)
  | _, _ => none

def actReceiver (e : Event V W) (r : ReceiverPc W) (a : Move (ReceiverCall W)) :
    Option (Event V W × ReceiverPc W) :=
  if touches r a && !e.mayTouch .receiver then some (e, .fault .released) else stepReceiver e r a

/-! ## Both -/

structure State (V W : Type) where
  event : Event V W
  sender : SenderPc
  receiver : ReceiverPc W

inductive Label (V W : Type)
  | sender (a : Move (SenderCall V))
  | receiver (a : Move (ReceiverCall W))

/-- One sender and one receiver, each used from the callbacks of the other. -/
def machine (V W : Type) : Machine (State V W) (Label V W) where
  init := ⟨Event.new V W, .idle, .idle⟩
  next σ
    | .sender a => (actSender σ.event σ.sender a).map fun r =>
      { σ with event := r.1, sender := r.2 }
    | .receiver a => (actReceiver σ.event σ.receiver a).map fun r =>
      { σ with event := r.1, receiver := r.2 }

end Folo.EventsOnce.Local
