import Mathlib.Data.List.Perm.Basic
import Mathlib.Data.List.Nodup

/-!
# The state of a one-shot event

`state.rs` and the fields that `Event` and `LocalEvent` have in common: the
state byte, the two cells that are initialized or not depending on it, and
whether the storage has been released.

Beside the storage there is a record of what came out of the event: which
wakers were cloned into it, woken and dropped, what was sent, returned and
destroyed, and who released the storage. It is what the outside world sees;
the code never reads it. `Accounts` says that nothing gets lost on the way:
what went in is in a cell, in the hands of an endpoint, or has come out.
-/

namespace Folo.EventsOnce

@[match_pattern] abbrev eventBound : Nat := 0
@[match_pattern] abbrev eventSet : Nat := 1
@[match_pattern] abbrev eventAwaiting : Nat := 2
@[match_pattern] abbrev eventSignaling : Nat := 3
@[match_pattern] abbrev eventDisconnected : Nat := 4

/-- `is_set`. -/
def isSet (state : Nat) : Bool :=
  match state with
  | eventSet | eventDisconnected => true
  | _ => false

/-- The terminal states of an event. -/
inductive Ending
  | set
  | disconnected
deriving DecidableEq

def Ending.state : Ending → Nat
  | set => eventSet
  | disconnected => eventDisconnected

/-- The two endpoints. -/
inductive Party
  | sender
  | receiver
deriving DecidableEq

def Party.other : Party → Party
  | sender => receiver
  | receiver => sender

/-- What can be done with the sender. -/
inductive SenderCall (V : Type)
  | send (value : V)
  | drop

/-- What can be done with the receiver. -/
inductive ReceiverCall (W : Type)
  | poll (waker : W)
  | isReady
  | intoValue
  | drop

/-- What must never happen. -/
inductive Fault
  /-- An arm that the state machine is said to rule out. -/
  | unreachable
  /-- A cell is read while it is not initialized. -/
  | uninit
  /-- The event is accessed by an endpoint that has given it up, or after its
  storage was released. -/
  | released

/-- A clone of a waker that the receiver was polled with. -/
structure Clone (W : Type) where
  id : Nat
  waker : W

variable {V W : Type}

/-- What comes out of an event. -/
inductive Effect (V W : Type)
  | cloned (c : Clone W)
  | woken (c : Clone W)
  | droppedWaker (c : Clone W)
  | sent (value : V)
  | pending
  | returned (result : Option V)
  | ready (answer : Bool)
  | destroyed (value : V)
  | released (p : Party)

namespace Effect

def cloned? : Effect V W → Option (Clone W)
  | cloned c => some c
  | _ => none

/-- A waker is woken or dropped. -/
def settled? : Effect V W → Option (Clone W)
  | woken c | droppedWaker c => some c
  | _ => none

def sent? : Effect V W → Option V
  | sent value => some value
  | _ => none

/-- A value is returned or destroyed. -/
def outcome? : Effect V W → Option V
  | returned result => result
  | destroyed value => some value
  | _ => none

def released? : Effect V W → Option Party
  | released p => some p
  | _ => none

end Effect

/-- `Event` and `LocalEvent`. -/
structure Event (V W : Type) where
  state : Nat
  awaiter : Option (Clone W)
  value : Option V
  /-- The storage has been released. -/
  freed : Bool
  /-- The endpoint that a transition has made responsible for the release. -/
  owner : Option Party
  /-- What came out, the latest first. -/
  effects : List (Effect V W)

namespace Event

/-- `new_in_inner`. -/
def new (V W : Type) : Event V W where
  state := eventBound
  awaiter := none
  value := none
  freed := false
  owner := none
  effects := []

def clones (e : Event V W) : List (Clone W) := e.effects.filterMap Effect.cloned?
def settled (e : Event V W) : List (Clone W) := e.effects.filterMap Effect.settled?
def sents (e : Event V W) : List V := e.effects.filterMap Effect.sent?
def outcomes (e : Event V W) : List V := e.effects.filterMap Effect.outcome?
def releases (e : Event V W) : List Party := e.effects.filterMap Effect.released?

/-- Something comes out. -/
def note (e : Event V W) (x : Effect V W) : Event V W := { e with effects := x :: e.effects }

/-- The next clone of a waker. -/
def nextClone (e : Event V W) (waker : W) : Clone W := ⟨e.clones.length, waker⟩

/-- `release_event`. -/
def release (e : Event V W) (p : Party) : Event V W :=
  { e with freed := true, effects := .released p :: e.effects }

/-- The endpoint may still access the event. -/
def mayTouch (e : Event V W) (p : Party) : Bool := !e.freed && decide (e.owner ≠ some p.other)

end Event

/-- What went in is in a cell, in the hands of an endpoint, or has come out;
`wakers` and `values` are what the endpoints hold. -/
structure Accounts (e : Event V W) (wakers : List (Clone W)) (values : List V) : Prop where
  wakers : e.clones.Perm (e.awaiter.toList ++ wakers ++ e.settled)
  /-- Clones are numbered, so they are different. -/
  numbered : e.clones.Pairwise fun a b => b.id < a.id
  numbers : ∀ c ∈ e.clones, c.id < e.clones.length
  values : e.sents.Perm (e.value.toList ++ values ++ e.outcomes)
  /-- The storage is released by its owner, once. -/
  releases : e.releases = if e.freed then e.owner.toList else []

namespace Accounts

variable {e e' : Event V W} {wakers : List (Clone W)} {values : List V}

theorem new : Accounts (Event.new V W) [] [] where
  wakers := List.Perm.refl _
  numbered := List.Pairwise.nil
  numbers := nofun
  values := List.Perm.refl _
  releases := rfl

theorem perm {wakers' : List (Clone W)} {values' : List V} (h : Accounts e wakers values)
    (hw : wakers'.Perm wakers) (hv : values'.Perm values) : Accounts e wakers' values' where
  wakers := h.wakers.trans ((hw.symm.append_left _).append_right _)
  numbered := h.numbered
  numbers := h.numbers
  values := h.values.trans ((hv.symm.append_left _).append_right _)
  releases := h.releases

/-- The state does not matter, nor the owner before the release. -/
theorem setState (h : Accounts e wakers values) (hfreed : e.freed = false) (state : Nat)
    (owner : Option Party) : Accounts { e with state, owner } wakers values := by
  refine ⟨h.wakers, h.numbered, h.numbers, h.values, ?_⟩
  have hr := h.releases
  rw [hfreed] at hr
  dsimp only
  rw [hfreed]
  exact hr

/-! ### Wakers -/

theorem clone (h : Accounts e wakers values) (waker : W) :
    Accounts (e.note (.cloned (e.nextClone waker))) (e.nextClone waker :: wakers) values where
  wakers := (h.wakers.cons _).trans (by
    rw [List.append_assoc, List.append_assoc]
    exact List.perm_middle.symm)
  numbered := List.pairwise_cons.mpr ⟨h.numbers, h.numbered⟩
  numbers c hc := by
    rcases List.mem_cons.mp hc with rfl | hc
    · exact Nat.lt_succ_self _
    · exact Nat.lt_succ_of_lt (h.numbers c hc)
  values := h.values
  releases := h.releases

theorem putAwaiter {c : Clone W} (h : Accounts e (c :: wakers) values) (hnone : e.awaiter = none) :
    Accounts { e with awaiter := some c } wakers values := by
  refine ⟨?_, h.numbered, h.numbers, h.values, h.releases⟩
  have hw := h.wakers
  rw [hnone] at hw
  exact hw

theorem takeAwaiter {c : Clone W} (h : Accounts e wakers values) (hsome : e.awaiter = some c) :
    Accounts { e with awaiter := none } (c :: wakers) values := by
  refine ⟨?_, h.numbered, h.numbers, h.values, h.releases⟩
  have hw := h.wakers
  rw [hsome] at hw
  exact hw

theorem wake {c : Clone W} (h : Accounts e (c :: wakers) values) :
    Accounts (e.note (.woken c)) wakers values := by
  refine ⟨h.wakers.trans ?_, h.numbered, h.numbers, h.values, h.releases⟩
  rw [List.append_assoc, List.append_assoc]
  exact (List.perm_middle.symm.append_left _)

theorem dropWaker {c : Clone W} (h : Accounts e (c :: wakers) values) :
    Accounts (e.note (.droppedWaker c)) wakers values :=
  ⟨h.wake.wakers, h.numbered, h.numbers, h.values, h.releases⟩

/-! ### Values -/

theorem send (h : Accounts e wakers values) (value : V) :
    Accounts (e.note (.sent value)) wakers (value :: values) := by
  refine ⟨h.wakers, h.numbered, h.numbers, (h.values.cons _).trans ?_, h.releases⟩
  rw [List.append_assoc, List.append_assoc]
  exact List.perm_middle.symm

theorem putValue {value : V} (h : Accounts e wakers (value :: values)) (hnone : e.value = none) :
    Accounts { e with value := some value } wakers values := by
  refine ⟨h.wakers, h.numbered, h.numbers, ?_, h.releases⟩
  have hv := h.values
  rw [hnone] at hv
  exact hv

theorem takeValue {value : V} (h : Accounts e wakers values) (hsome : e.value = some value) :
    Accounts { e with value := none } wakers (value :: values) := by
  refine ⟨h.wakers, h.numbered, h.numbers, ?_, h.releases⟩
  have hv := h.values
  rw [hsome] at hv
  exact hv

theorem destroy {value : V} (h : Accounts e wakers (value :: values)) :
    Accounts (e.note (.destroyed value)) wakers values := by
  refine ⟨h.wakers, h.numbered, h.numbers, h.values.trans ?_, h.releases⟩
  rw [List.append_assoc, List.append_assoc]
  exact List.perm_middle.symm.append_left _

theorem returned (result : Option V) (h : Accounts e wakers (result.toList ++ values)) :
    Accounts (e.note (.returned result)) wakers values := by
  cases result with
  | none => exact ⟨h.wakers, h.numbered, h.numbers, h.values, h.releases⟩
  | some value => exact ⟨h.wakers, h.numbered, h.numbers, h.destroy.values, h.releases⟩

theorem pending (h : Accounts e wakers values) : Accounts (e.note .pending) wakers values :=
  ⟨h.wakers, h.numbered, h.numbers, h.values, h.releases⟩

theorem ready (h : Accounts e wakers values) (answer : Bool) :
    Accounts (e.note (.ready answer)) wakers values :=
  ⟨h.wakers, h.numbered, h.numbers, h.values, h.releases⟩

theorem release {p : Party} (h : Accounts e wakers values) (hfreed : e.freed = false)
    (howner : e.owner = some p) : Accounts (e.release p) wakers values := by
  refine ⟨h.wakers, h.numbered, h.numbers, h.values, ?_⟩
  have hr := h.releases
  rw [hfreed] at hr
  have hlist : (e.release p).releases = [p] := congrArg (p :: ·) hr
  rw [hlist]
  dsimp only [Event.release]
  rw [howner]
  rfl

end Accounts

/-! ## What has come out -/

/-- Nothing is lost or duplicated; `wakers` and `values` are what the
endpoints hold. -/
structure Conserved (e : Event V W) (wakers : List (Clone W)) (values : List V) : Prop where
  /-- The storage is released at most once, by the endpoint that owns it. -/
  releases : e.releases.length ≤ 1 ∧ ∀ p ∈ e.releases, e.owner = some p
  /-- Each waker cloned is in the cell, in the hands of an endpoint, or has
  been woken or dropped; they are all different. -/
  wakers : e.clones.Nodup ∧ e.clones.Perm (e.awaiter.toList ++ wakers ++ e.settled)
  /-- A value sent is in the cell, in the hands of an endpoint, or has been
  returned or destroyed. -/
  values : e.sents.Perm (e.value.toList ++ values ++ e.outcomes)

/-- Everything has come out, and the storage has been released once. -/
structure Spent (e : Event V W) : Prop where
  releases : ∃ p, e.releases = [p]
  wakers : e.clones.Perm e.settled
  values : e.sents.Perm e.outcomes

namespace Accounts

variable {e : Event V W} {wakers : List (Clone W)} {values : List V}

theorem conserved (h : Accounts e wakers values) : Conserved e wakers values := by
  refine ⟨?_, ⟨h.numbered.imp fun hlt heq => ?_, h.wakers⟩, h.values⟩
  · rw [h.releases]
    split
    next => cases e.owner <;> simp
    next => simp
  · -- Different clones have different numbers.
    rw [heq] at hlt
    exact Nat.lt_irrefl _ hlt

theorem spent (h : Accounts e [] []) (hfreed : e.freed = true) (howner : e.owner.isSome)
    (hawaiter : e.awaiter = none) (hvalue : e.value = none) : Spent e := by
  obtain ⟨p, hp⟩ := Option.isSome_iff_exists.mp howner
  have hwakers := h.wakers
  have hvalues := h.values
  have hreleases := h.releases
  rw [hawaiter] at hwakers
  rw [hvalue] at hvalues
  rw [hfreed, hp] at hreleases
  exact ⟨⟨p, hreleases⟩, hwakers, hvalues⟩

end Accounts

end Folo.EventsOnce
