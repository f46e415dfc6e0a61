import Folo.Lib.Maps
import Folo.Lib.Threads

/-!
# One linked instance per thread

`InstancePerThread` keeps one instance of a linked object for each thread that
has a `Ref`. The threads share a map from threads to instances behind a lock;
a section under the lock is one action, and so is each access to a count of
references (`Rc::strong_count` of an instance, `Arc::strong_count` of the map).

Constructing an instance and destroying one are code of the object, which may
use the family on its thread again: a thread is a stack of the calls it is in,
and it may start a call when it is in none or its last one runs such code
(`Frame.isCallback`). Construction may also panic.
-/

namespace Folo.Linked

open Folo.Lib Std

/-- An instance of the object: the thread that constructed it, and which of
that thread's instances it is. -/
structure Instance (T : Type) where
  thread : T
  serial : Nat
  deriving DecidableEq

/-- What the threads share. `destroyed` notes where each destructor ran. -/
structure Family (T : Type) [Ord T] [TransOrd T] where
  threadSpecific : ExtTreeMap T (Instance T) := ∅
  /-- `Rc::strong_count` of an instance. -/
  strongCount : Instance T → Nat := fun _ => 0
  /-- How many instances a thread has constructed. -/
  constructed : T → Nat := fun _ => 0
  /-- `Arc::strong_count(&self.thread_specific)`. -/
  references : Nat := 1
  /-- The `InstancePerThread`s there are, and the calls that borrow one. -/
  handles : Nat := 1
  borrows : Nat := 0
  destroyed : List (T × Instance T) := []

/-- A call that a thread is in, by what it does next. -/
inductive Frame (T : Type) where
  /-- `acquire`: the look-up under the read lock, `self.family.clone().into()`,
  the entry under the write lock, `drop(instance)` of an instance that is not
  needed and its destructor, and the `Ref` of what was found. -/
  | lookingUp
  | constructing
  | entering (own : Instance T)
  | discarding (own kept : Instance T)
  | discarded (kept : Instance T)
  | acquired (inner : Instance T)
  /-- `Ref::drop`: the count, `clear_current_thread_instance`, `drop(self.inner)`
  and the destructor of the instance. -/
  | counting (inner : Instance T)
  | clearing (inner : Instance T)
  | releasing (inner : Instance T)
  | destroying
  /-- `FamilyStateReference::drop`: the count, the assertion, and the drop of
  the reference itself. -/
  | countingFamily
  | asserting
  | releasingFamily
  /-- A destructor runs while the thread holds the write lock. -/
  | destroyingLocked
  /-- The assertion has failed. -/
  | notEmpty
  deriving DecidableEq

/-- Code of the object is running. -/
def Frame.isCallback {T : Type} : Frame T → Bool
  | .constructing | .discarded _ | .destroying => true
  | _ => false

/-- A thread: the `Ref`s it has, and the calls it is in, the last one first. -/
@[ext]
structure Local (T : Type) where
  refs : List (Instance T) := []
  frames : List (Frame T) := []
  deriving DecidableEq

/-- The thread may start a call. -/
def Local.isFree {T : Type} (l : Local T) : Bool :=
  match l.frames with
  | [] => true
  | frame :: _ => frame.isCallback

/-- What a thread is told: the call it makes, or how the code of the object
ends. -/
inductive Op (T : Type) where
  | acquire
  | cloneRef (inner : Instance T)
  | dropRef (inner : Instance T)
  /-- Of an `InstancePerThread`. -/
  | clone
  | drop
  | returned
  | panicked

variable {T : Type} [Ord T] [TransOrd T] [DecidableEq T]

namespace Family

/-- `Rc::clone`. -/
def cloneInstance (s : Family T) (inner : Instance T) : Family T :=
  { s with strongCount := Function.update s.strongCount inner (s.strongCount inner + 1) }

/-- An `Rc` is dropped; the instance with it, if it was the last one. -/
def dropInstance (s : Family T) (t : T) (inner : Instance T) : Family T × Bool :=
  let count := s.strongCount inner - 1
  let s := { s with strongCount := Function.update s.strongCount inner count }
  if count = 0 then ({ s with destroyed := (t, inner) :: s.destroyed }, true) else (s, false)

/-- `Rc::new` of an instance that the thread has constructed. -/
def construct (s : Family T) (t : T) : Family T × Instance T :=
  let own : Instance T := { thread := t, serial := s.constructed t }
  ({ s with
      strongCount := Function.update s.strongCount own 1
      constructed := Function.update s.constructed t (s.constructed t + 1) }, own)

end Family

/-- The calls that a thread may make. -/
def call (t : T) (l : Local T) (op : Op T) (s : Family T) : Option (Family T × Local T) :=
  match op with
  | .acquire =>
    if 0 < s.handles then
      some ({ s with borrows := s.borrows + 1 }, { l with frames := .lookingUp :: l.frames })
    else none
  | .cloneRef inner =>
    if inner ∈ l.refs then
      some ({ s.cloneInstance inner with references := s.references + 1 },
        { l with refs := inner :: l.refs })
    else none
  | .dropRef inner =>
    if inner ∈ l.refs then
      some (s, { refs := l.refs.erase inner, frames := .counting inner :: l.frames })
    else none
  | .clone =>
    if 0 < s.handles then
      some ({ s with handles := s.handles + 1, references := s.references + 1 }, l)
    else none
  | .drop =>
    -- what is borrowed is not dropped
    if 1 < s.handles ∨ s.handles = 1 ∧ s.borrows = 0 then
      some ({ s with handles := s.handles - 1 }, { l with frames := .countingFamily :: l.frames })
    else none
  | .returned =>
    match l.frames with
    | .constructing :: frames =>
      some ((s.construct t).1, { l with frames := .entering (s.construct t).2 :: frames })
    | .discarded kept :: frames => some (s, { l with frames := .acquired kept :: frames })
    | .destroying :: frames => some (s, { l with frames := .countingFamily :: frames })
    | _ => none
  | .panicked =>
    match l.frames with
    | .constructing :: frames =>
      some ({ s with borrows := s.borrows - 1 }, { l with frames })
    | _ => none

/-- What the last call does next. -/
def step (t : T) (refs : List (Instance T)) (frame : Frame T) (frames : List (Frame T))
    (s : Family T) : Option (Family T × Local T) :=
  match frame with
  | .lookingUp =>
    match s.threadSpecific[t]? with
    | some inner => some (s.cloneInstance inner, { refs, frames := .acquired inner :: frames })
    | none => some (s, { refs, frames := .constructing :: frames })
  | .entering own =>
    match s.threadSpecific[t]? with
    | some kept =>
      some (s.cloneInstance kept, { refs, frames := .discarding own kept :: frames })
    | none =>
      some ({ s.cloneInstance own with
          threadSpecific := s.threadSpecific.insert t own },
        { refs, frames := .acquired own :: frames })
  | .discarding own kept =>
    let (s, isLast) := s.dropInstance t own
    some (s, { refs, frames := (if isLast then .discarded kept else .acquired kept) :: frames })
  | .acquired inner =>
    some ({ s with references := s.references + 1, borrows := s.borrows - 1 },
      { refs := inner :: refs, frames })
  | .counting inner =>
    some (s, { refs, frames :=
      (if s.strongCount inner ≠ 2 then .releasing inner else .clearing inner) :: frames })
  | .clearing inner =>
    match s.threadSpecific[t]? with
    | some state =>
      let (s, isLast) := { s with threadSpecific := s.threadSpecific.erase t }.dropInstance t state
      some (s, { refs, frames :=
        (if isLast then .destroyingLocked else .releasing inner) :: frames })
    | none => some (s, { refs, frames := .releasing inner :: frames })
  | .releasing inner =>
    let (s, isLast) := s.dropInstance t inner
    some (s, { refs, frames := (if isLast then .destroying else .countingFamily) :: frames })
  | .countingFamily =>
    some (s, { refs, frames :=
      (if s.references > 1 then .releasingFamily else .asserting) :: frames })
  | .asserting =>
    some (s, { refs, frames :=
      (if s.threadSpecific.isEmpty then .releasingFamily else .notEmpty) :: frames })
  | .releasingFamily => some ({ s with references := s.references - 1 }, { refs, frames })
  | _ => none

def act (t : T) (l : Local T) (a : Act (Op T)) (s : Family T) : Option (Family T × Local T) :=
  match a with
  | .call op => if l.isFree then call t l op s else none
  | .step =>
    match l.frames with
    | [] => none
    | frame :: frames => step t l.refs frame frames s

/-- The threads that use a family, from `InstancePerThread::new` on. -/
def instancePerThread (T : Type) [Ord T] [TransOrd T] [DecidableEq T] :
    Machine (Threads (Family T) (Local T) T) (T × Act (Op T)) :=
  threads {} {} act

end Folo.Linked
