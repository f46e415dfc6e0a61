import Folo.Lib.Machine
import Folo.Awaiters.Runs

/-!
# `LocalManualResetEvent` under re-entrant wakers

The embedding of `local_manual.rs`. All operations but `set` run to
completion without leaving the event. `set` calls `Waker::wake` in the middle
of its drain loop, and what the woken task does there may be any operation of
the same event, another `set` included. So a run is a machine with a call
stack: one frame for each `set` that is in progress, which is either at the
head of its loop (`drain`) or inside a `wake` (`waking`). User code runs
while the stack is empty and while the top frame is inside a `wake`.

`history` remembers for each frame the awaiters that were registered when it
opened the gate, and for each awaiter whether the gate was opened since it
registered. Every awaiter of the first kind is notified or dropped when its
`set` returns, at any depth, as long as the 64-bit generation has not
wrapped; and no awaiter is notified without an opening since it registered.
-/

namespace Folo.Events

open Folo.Lib Folo.Awaiters

variable {W : Type}

/-- `Inner`, with the awaiters in the futures. -/
structure LocalManual (W : Type) where
  isSet : Bool
  waiters : Store W

namespace LocalManual

/-- `boxed()`: a new event in the unset state, with no futures yet. -/
def boxed (W : Type) (setId : Nat) : LocalManual W where
  isSet := false
  waiters := Store.new setId

/-- The start of `set`: it returns at once if the gate is open, otherwise it
opens the gate and a new generation. -/
def openGate (c : LocalManual W) : Option (LocalManual W) :=
  if c.isSet then none else some { isSet := true, waiters := c.waiters.advanceGeneration }

/-- One round of the loop in `set`, up to the call of the waker. -/
def drain (debug : Bool) (c : LocalManual W) : Except Fault (Option W × LocalManual W) := do
  let (waker, st) ← c.waiters.notifyOnePriorGeneration debug
  return (waker, { c with waiters := st })

/-- `reset`. -/
def reset (c : LocalManual W) : LocalManual W := { c with isSet := false }

/-- `try_wait`. -/
def tryWait (c : LocalManual W) : Bool := c.isSet

/-- `poll_wait`: whether it is ready. -/
def pollWait (debug : Bool) (c : LocalManual W) (f : Ptr) (waker : W) :
    Except Fault (Bool × LocalManual W) := do
  let (taken, st) := c.waiters.takeNotification f
  if taken then return (true, { c with waiters := st })
  if c.isSet then return (true, c)
  let st ← c.waiters.register debug f waker
  return (false, { c with waiters := st })

/-- `drop_wait`. -/
def dropWait (debug : Bool) (c : LocalManual W) (f : Ptr) : Except Fault (LocalManual W) := do
  if (c.waiters.mem f).isRegistered then
    let st ← c.waiters.unregister debug f
    return { c with waiters := st }
  return c

/-- Where a `set` in progress is. -/
inductive Frame (W : Type)
  | drain
  | waking (waker : W)

/-- The event, the wait futures that exist and the `set` calls in progress,
the innermost first. -/
structure State (W : Type) where
  event : LocalManual W
  live : Ptr → Bool
  stack : List (Frame W)

/-- A call by user code, the next round of the innermost `set`, or the return
of the waker that it called. -/
inductive Label (W : Type)
  | set
  | reset
  | tryWait
  | wait (f : Ptr)
  | poll (f : Ptr) (waker : W)
  | drop (f : Ptr)
  | drain
  | wakeReturn

/-- User code runs outside every `set`, and inside a `wake`. -/
def State.inUserCode (s : State W) : Bool :=
  match s.stack with
  | [] => true
  | .waking _ :: _ => true
  | .drain :: _ => false

/-- A call of user code. -/
def callNext (debug : Bool) (s : State W) : Label W → Option (State W)
  | .set =>
    match s.event.openGate with
    | none => some s
    | some c => some { s with event := c, stack := .drain :: s.stack }
  | .reset => some { s with event := s.event.reset }
  | .tryWait => some s
  | .wait f =>
    if s.live f then none
    else some { s with
      event := { s.event with waiters := s.event.waiters.create f }
      live := Function.update s.live f true }
  | .poll f w =>
    if s.live f then
      match s.event.pollWait debug f w with
      | .ok (_, c) => some { s with event := c }
      | .error _ => none
    else none
  | .drop f =>
    if s.live f then
      match s.event.dropWait debug f with
      | .ok c => some { s with event := c, live := Function.update s.live f false }
      | .error _ => none
    else none
  | .drain | .wakeReturn => none

/-- The next state. -/
def next (debug : Bool) (s : State W) (l : Label W) : Option (State W) :=
  match l, s.stack with
  | .drain, .drain :: rest =>
    match s.event.drain debug with
    | .ok (some w, c) => some { s with event := c, stack := .waking w :: rest }
    | .ok (none, c) => some { s with event := c, stack := rest }
    | .error _ => none
  | .wakeReturn, .waking _ :: rest => some { s with stack := .drain :: rest }
  | l, _ => if s.inUserCode then callNext debug s l else none

end LocalManual

/-- A `LocalManualResetEvent` with re-entrant wakers. -/
def localManual (W : Type) (debug : Bool) (setId : Nat) :
    Machine (LocalManual.State W) (LocalManual.Label W) where
  init := { event := LocalManual.boxed W setId, live := fun _ => false, stack := [] }
  next := LocalManual.next debug

namespace LocalManual

/-- Does the call open the gate? -/
def opens (s : State W) : Label W → Bool
  | .set => !s.event.isSet
  | _ => false

/-- What the machine forgets. -/
structure History where
  /-- For each `set` in progress, the awaiters that were registered when it
  opened the gate and that have been waiting ever since. -/
  due : List (Ptr → Bool)
  /-- The gate was opened since the awaiter registered. -/
  opened : Ptr → Bool
  /-- How often the gate was opened. -/
  openings : Nat

def history : Machine.Monitor (State W) (Label W) History where
  start := { due := [], opened := fun _ => false, openings := 0 }
  update m s l s' :=
    let due :=
      if opens s l then (fun _ => true) :: m.due
      else if s'.stack.length < s.stack.length then m.due.tail
      else m.due
    { due := due.map fun d f => d f && decide (s'.event.waiters.phase f = .waiting)
      opened := fun f =>
        if s.event.waiters.phase f ≠ .waiting ∧ s'.event.waiters.phase f = .waiting then false
        else m.opened f || opens s l
      openings := m.openings + if opens s l then 1 else 0 }

end LocalManual

end Folo.Events
