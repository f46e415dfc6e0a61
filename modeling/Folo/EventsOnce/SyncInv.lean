import Folo.EventsOnce.SyncEvent

/-!
# How far the endpoints of an `Event` can be apart

A `Mode` is what the event is about, seen from outside: who has acted and
who has been handed the release. `Agree` is the agreement of a mode with the
storage and with the points of both endpoints; each step of an endpoint goes
from a mode to a mode (`sender_agree`, `receiver_agree`), so a table of the
points that go with each mode replaces the pairs of points.
-/

namespace Folo.EventsOnce.Sync

open Folo.Lib

variable {V W : Type}

/-- What has become of the event. -/
inductive Mode (W : Type)
  /-- The sender has not acted and the receiver does not wait. -/
  | bound
  /-- The receiver waits. -/
  | awaiting (c : Clone W)
  /-- The sender is in `EVENT_SIGNALING`; `c` is the waker it has found. -/
  | signaling (ending : Ending) (c : Option (Clone W))
  /-- The terminal state has been published: the release is the receiver's. -/
  | given (ending : Ending) (c : Option (Clone W))
  /-- The receiver has seen the terminal state for the last time. -/
  | taken
  /-- The receiver has left first: the release is the sender's. -/
  | left
  /-- The sender has seen that. -/
  | alone

/-- The sender has not acted on the state yet. -/
def SenderPc.Before : SenderPc V W → Prop
  | idle | setWrite _ | setAdd | dropSwap => True
  | _ => False

namespace Mode

def state : Mode W → Option Nat
  | bound => some eventBound
  | awaiting _ => some eventAwaiting
  | signaling .. => some eventSignaling
  | given ending _ => some ending.state
  | left => some eventDisconnected
  | taken | alone => none

def owner : Mode W → Option Party
  | bound | awaiting _ | signaling .. => none
  | given .. | taken => some .receiver
  | left | alone => some .sender

/-- Where the sender can be. -/
def Sender (m : Mode W) (s : SenderPc V W) : Prop :=
  match m, s with
  | bound, s | awaiting _, s | left, s => s.Before
  | signaling ending c, .take ending' => ending' = ending ∧ c.isSome
  | signaling ending c, .store ending' awaiter =>
    ending' = ending ∧ awaiter = c ∧ (c = none → ending = .disconnected)
  | given _ c, .wake awaiter => c = some awaiter
  | given .., .done => True
  | taken, .wake _ | taken, .done => True
  | alone, .takeValue | alone, .release _ | alone, .dropValue _ | alone, .done => True
  | _, _ => False

/-- What the receiver knows about its registration, if it has any. -/
def Registered (c : Option (Clone W)) : ReceiverPc V W → Prop
  | .idle last | .pollLoad _ last | .isReady last | .intoValue last => last = c
  | .awaitingExchange _ => c.isSome
  | .boundClone _ | .boundWrite _ | .boundExchange _ | .takeAwaiter (.bound _)
  | .dropAwaiter _ (.bound _) | .cancelTake => c = none
  | .cancelExchange => True
  | _ => False

/-- Where the receiver can be. -/
def Receiver (m : Mode W) (r : ReceiverPc V W) : Prop :=
  match m with
  | bound => Registered none r ∨ match r with
    | .cancelLoad _ => True
    | .cancelStore _ current => current = eventBound
    | _ => False
  | awaiting c => Registered (some c) r
  | signaling _ c => Registered c r ∨ match r with
    | .pollSignaling => True
    | .takeAwaiter .signaling | .dropAwaiter _ .signaling => c = none
    | .cancelLoad awaiter => awaiter.isSome → c = none
    | .cancelStore _ current => current = eventBound ∧ c = none
    | _ => False
  | given ending c => Registered c r ∨ match r with
    | .pollSet | .takeAwaiter .set | .dropAwaiter _ .set => ending = .set
    | .takeAwaiter .disconnected | .dropAwaiter _ .disconnected => ending = .disconnected
    | .takeAwaiter .signaling | .dropAwaiter _ .signaling | .pollSignaling | .resultSwap
    | .cancelLoad _ => True
    | .cancelStore _ current => current = eventBound ∨ current = ending.state
    | _ => False
  | taken => match r with
    | .release _ | .resultTake | .cancelSet _ | .cancelRelease .. | .cancelDrop ..
    | .done => True
    | _ => False
  | left | alone => match r with
    | .cancelDrop none _ | .done => True
    | _ => False

/-- The clone that the receiver has written for itself. -/
def Private (awaiter : Option (Clone W)) : ReceiverPc V W → Prop
  | .boundExchange c => awaiter = some c
  | .takeAwaiter _ | .cancelTake => awaiter.isSome
  | _ => awaiter = none

/-- What is in the cell of the awaiter. -/
def Awaiter (m : Mode W) (s : SenderPc V W) (r : ReceiverPc V W) (awaiter : Option (Clone W)) :
    Prop :=
  match m, s with
  | awaiting c, _ => awaiter = some c
  | signaling _ (some c), .take _ => awaiter = some c
  | signaling _ (some _), _ => awaiter = none
  | _, _ => Private awaiter r

/-- Whether there is something in the cell of the value. -/
def hasValue (m : Mode W) (s : SenderPc V W) (r : ReceiverPc V W) : Bool :=
  match m with
  | bound | awaiting _ | left => match s with
    | .setAdd => true
    | _ => false
  | signaling ending _ | given ending _ => ending = .set
  | taken => match r with
    | .resultTake | .cancelSet _ => true
    | _ => false
  | alone => match s with
    | .takeValue => true
    | _ => false

/-- Whether the storage has been released. -/
def freed (m : Mode W) (s : SenderPc V W) (r : ReceiverPc V W) : Bool :=
  match m with
  | taken => match r with
    | .cancelDrop .. | .done => true
    | _ => false
  | alone => match s with
    | .dropValue _ | .done => true
    | _ => false
  | _ => false

end Mode

/-- The mode agrees with the storage and both endpoints. -/
structure Agree (m : Mode W) (e : Event V W) (s : SenderPc V W) (r : ReceiverPc V W) : Prop where
  state : ∀ n, m.state = some n → e.state = n
  owner : e.owner = m.owner
  sender : m.Sender s
  receiver : m.Receiver r
  awaiter : m.Awaiter s r e.awaiter
  value : e.value.isSome = m.hasValue s r
  freed : e.freed = m.freed s r
  /-- The waker that the sender has found has been woken when it is done. -/
  woken : ∀ ending c, m = .given ending (some c) → s = .done → .woken c ∈ e.effects

/-! ## The sender goes on, the receiver stays -/

namespace Mode

theorem receiver_swap {r : ReceiverPc V W} (h : Receiver .bound r) :
    Receiver (.signaling .disconnected none) r := by
  rcases h with h | h
  · exact Or.inl h
  · right
    split at h
    next => exact fun _ => rfl
    next => exact ⟨h, rfl⟩
    next => exact h.elim

theorem receiver_given {ending : Ending} {c : Option (Clone W)} {r : ReceiverPc V W}
    (h : Receiver (.signaling ending c) r) : Receiver (.given ending c) r := by
  rcases h with h | h
  · exact Or.inl h
  · right
    split at h
    next => trivial
    next => trivial
    next => trivial
    next => trivial
    next => exact Or.inl h.1
    next => exact h.elim

theorem receiver_set {r : ReceiverPc V W} (h : Receiver .bound r) :
    Receiver (.given .set none) r := by
  rcases h with h | h
  · exact Or.inl h
  · right
    split at h
    next => trivial
    next => exact Or.inl h
    next => exact h.elim

/-- While the sender has the waker the receiver has none in the cell. -/
theorem private_none {ending : Ending} {c : Clone W} {r : ReceiverPc V W}
    (h : Receiver (.signaling ending (some c)) r) : Private none r := by
  cases r with
  | boundExchange _ | cancelTake => rcases h with h | h <;> cases h
  | takeAwaiter after => cases after <;> rcases h with h | h <;> cases h
  | _ => exact rfl

end Mode

/-! ## Steps of the sender -/

theorem sender_agree {m : Mode W} {e e' : Event V W} {s s' : SenderPc V W} {r : ReceiverPc V W}
    (h : Agree m e s r) (hstep : stepSender e s = some (e', s')) :
    ∃ m', Agree m' e' s' r := by
  obtain ⟨hstate, howner, hsender, hreceiver, hawaiter, hvalue, hfreed, hwoken⟩ := h
  cases s with
  | setWrite v =>
    cases hstep
    cases m with
    | bound | awaiting c | left =>
      exact ⟨_, hstate, howner, trivial, hreceiver, hawaiter, rfl, hfreed, nofun⟩
    | _ => exact hsender.elim
  | setAdd =>
    rw [stepSender] at hstep
    cases m with
    | bound =>
      rw [hstate 0 rfl] at hstep
      cases hstep
      exact ⟨.given .set none, fun n hn => Option.some.inj hn, rfl, trivial,
        Mode.receiver_set hreceiver, hawaiter, hvalue, hfreed, nofun⟩
    | awaiting c =>
      rw [hstate 2 rfl] at hstep
      cases hstep
      exact ⟨.signaling .set (some c), fun n hn => Option.some.inj hn, howner, ⟨rfl, rfl⟩,
        Or.inl hreceiver, hawaiter, hvalue, hfreed, nofun⟩
    | left =>
      rw [hstate 4 rfl] at hstep
      cases hstep
      exact ⟨.alone, nofun, howner, trivial, hreceiver, hawaiter, hvalue, hfreed, nofun⟩
    | _ => exact hsender.elim
  | dropSwap =>
    rw [stepSender] at hstep
    cases m with
    | bound =>
      rw [hstate 0 rfl] at hstep
      cases hstep
      exact ⟨.signaling .disconnected none, fun n hn => Option.some.inj hn, howner,
        ⟨rfl, rfl, fun _ => rfl⟩, Mode.receiver_swap hreceiver, hawaiter, hvalue, hfreed, nofun⟩
    | awaiting c =>
      rw [hstate 2 rfl] at hstep
      cases hstep
      exact ⟨.signaling .disconnected (some c), fun n hn => Option.some.inj hn, howner,
        ⟨rfl, rfl⟩, Or.inl hreceiver, hawaiter, hvalue, hfreed, nofun⟩
    | left =>
      rw [hstate 4 rfl] at hstep
      cases hstep
      exact ⟨.alone, nofun, howner, trivial, hreceiver, hawaiter, hvalue, hfreed, nofun⟩
    | _ => exact hsender.elim
  | take ending =>
    cases m with
    | signaling ending' c =>
      obtain ⟨rfl, hc⟩ := hsender
      obtain ⟨c, rfl⟩ := Option.isSome_iff_exists.mp hc
      rw [stepSender, show e.awaiter = some c from hawaiter] at hstep
      cases hstep
      exact ⟨.signaling ending (some c), hstate, howner, ⟨rfl, rfl, nofun⟩, hreceiver, rfl, hvalue,
        hfreed, nofun⟩
    | _ => exact hsender.elim
  | store ending awaiter =>
    cases hstep
    cases m with
    | signaling ending' c =>
      obtain ⟨rfl, rfl, -⟩ := hsender
      have hgiven := Mode.receiver_given hreceiver
      cases awaiter with
      | none =>
        exact ⟨.given ending none, fun n hn => Option.some.inj hn, rfl, trivial, hgiven, hawaiter,
          hvalue, hfreed, nofun⟩
      | some c =>
        have hcell : Mode.Private e.awaiter r := by
          rw [show e.awaiter = none from hawaiter]
          exact Mode.private_none hreceiver
        exact ⟨.given ending (some c), fun n hn => Option.some.inj hn, rfl, rfl, hgiven,
          hcell, hvalue, hfreed, nofun⟩
    | _ => exact hsender.elim
  | wake awaiter =>
    cases hstep
    cases m with
    | given ending c =>
      cases hsender
      refine ⟨.given ending (some awaiter), hstate, howner, trivial, hreceiver, hawaiter, hvalue,
        hfreed, ?_⟩
      rintro _ _ heq -
      cases heq
      exact List.mem_cons_self
    | taken => exact ⟨.taken, nofun, howner, trivial, hreceiver, hawaiter, hvalue, hfreed, nofun⟩
    | _ => exact hsender.elim
  | takeValue =>
    cases m with
    | alone =>
      obtain ⟨v, hv⟩ := Option.isSome_iff_exists.mp hvalue
      rw [stepSender, hv] at hstep
      cases hstep
      exact ⟨.alone, nofun, howner, trivial, hreceiver, hawaiter, rfl, hfreed, nofun⟩
    | _ => exact hsender.elim
  | release value =>
    cases hstep
    cases m with
    | alone =>
      cases value with
      | none | some v =>
        exact ⟨.alone, nofun, howner, trivial, hreceiver, hawaiter, hvalue, rfl, nofun⟩
    | _ => exact hsender.elim
  | dropValue v =>
    cases hstep
    cases m with
    | alone => exact ⟨.alone, nofun, howner, trivial, hreceiver, hawaiter, hvalue, hfreed, nofun⟩
    | _ => exact hsender.elim
  | idle | done | fault _ => cases hstep

/-! ## Steps of the receiver -/

namespace Mode

theorem Awaiter.congr {m : Mode W} {s : SenderPc V W} {r r' : ReceiverPc V W}
    {awaiter : Option (Clone W)} (h : m.Awaiter s r awaiter)
    (hr : Private awaiter r → Private awaiter r') : m.Awaiter s r' awaiter := by
  unfold Awaiter at h ⊢
  split <;> simp_all

theorem sender_taken {ending : Ending} {c : Option (Clone W)} {s : SenderPc V W}
    (h : Sender (.given ending c) s) : Sender .taken s := by
  cases s with
  | wake _ | done => trivial
  | _ => exact h.elim

end Mode

/-- A step of the receiver that changes neither the state nor the mode. -/
theorem Agree.move {m : Mode W} {e e' : Event V W} {s : SenderPc V W} {r r' : ReceiverPc V W}
    (h : Agree m e s r) (hreceiver : m.Receiver r') (hstate : e'.state = e.state)
    (howner : e'.owner = e.owner) (hawaiter : m.Awaiter s r' e'.awaiter)
    (hvalue : e'.value.isSome = m.hasValue s r') (hfreed : e'.freed = m.freed s r')
    (heffects : e.effects ⊆ e'.effects) : Agree m e' s r' where
  state n hn := hstate.trans (h.state n hn)
  owner := howner.trans h.owner
  sender := h.sender
  receiver := hreceiver
  awaiter := hawaiter
  value := hvalue
  freed := hfreed
  woken ending c hm hs := heffects (h.woken ending c hm hs)

/-- The receiver has seen the terminal state, and does not look again. -/
theorem Agree.take {ending : Ending} {c : Option (Clone W)} {e e' : Event V W}
    {s : SenderPc V W} {r r' : ReceiverPc V W} (h : Agree (.given ending c) e s r)
    (hreceiver : Mode.Receiver (W := W) .taken r') (howner : e'.owner = e.owner)
    (hawaiter : Mode.Private e'.awaiter r')
    (hvalue : e'.value.isSome = Mode.hasValue (W := W) .taken s r')
    (hfreed : e'.freed = Mode.freed (W := W) .taken s r') :
    Agree .taken e' s r' :=
  ⟨nofun, howner.trans h.owner, Mode.sender_taken h.sender, hreceiver, hawaiter, hvalue, hfreed,
    nofun⟩

theorem pollLoad_agree {m : Mode W} {e : Event V W} {s : SenderPc V W} {waker : W}
    {prev : Option (Clone W)} (h : Agree m e s (.pollLoad waker prev)) :
    ∃ m', Agree m' e s (pollState waker e.state) := by
  have hreceiver := h.receiver
  have hawaiter := h.awaiter
  cases m with
  | bound =>
    rw [h.state 0 rfl]
    exact ⟨_, h.move (Or.inl rfl) rfl rfl hawaiter h.value h.freed (List.Subset.refl _)⟩
  | awaiting c =>
    rw [h.state 2 rfl]
    exact ⟨_, h.move rfl rfl rfl hawaiter h.value h.freed (List.Subset.refl _)⟩
  | signaling ending c =>
    rw [h.state 3 rfl]
    exact ⟨_, h.move (Or.inr trivial) rfl rfl (hawaiter.congr id) h.value h.freed
      (List.Subset.refl _)⟩
  | given ending c =>
    rw [h.state ending.state rfl]
    cases ending with
    | set =>
      exact ⟨_, h.move (Or.inr rfl) rfl rfl hawaiter h.value h.freed (List.Subset.refl _)⟩
    | disconnected => exact ⟨_, h.take trivial rfl hawaiter h.value h.freed⟩
  | taken | left | alone => exact hreceiver.elim

theorem boundExchange_agree {m : Mode W} {e e' : Event V W} {s : SenderPc V W}
    {r' : ReceiverPc V W} {c : Clone W} (h : Agree m e s (.boundExchange c))
    (hstep : stepReceiver e (.boundExchange c) = some (e', r')) : ∃ m', Agree m' e' s r' := by
  have hreceiver := h.receiver
  have hawaiter := h.awaiter
  rw [stepReceiver] at hstep
  cases m with
  | bound =>
    rw [h.state 0 rfl] at hstep
    cases hstep
    exact ⟨.awaiting c, fun n hn => Option.some.inj hn, h.owner, h.sender, rfl, hawaiter, h.value,
      h.freed, nofun⟩
  | signaling ending c' =>
    rw [h.state 3 rfl] at hstep
    cases hstep
    obtain rfl : c' = none := hreceiver.resolve_right id
    have hcell : e.awaiter = some c := hawaiter
    exact ⟨_, h.move (Or.inr rfl) rfl rfl (Option.isSome_of_mem hcell) h.value h.freed
      (List.Subset.refl _)⟩
  | given ending c' =>
    rw [h.state ending.state rfl] at hstep
    have hcell : e.awaiter = some c := hawaiter
    cases ending with
    | set | disconnected =>
      cases hstep
      exact ⟨_, h.move (Or.inr rfl) rfl rfl (Option.isSome_of_mem hcell) h.value h.freed
        (List.Subset.refl _)⟩
  | awaiting c' => cases hreceiver
  | taken | left | alone => exact hreceiver.elim

theorem awaitingExchange_agree {m : Mode W} {e e' : Event V W} {s : SenderPc V W}
    {r' : ReceiverPc V W} {waker : W} (h : Agree m e s (.awaitingExchange waker))
    (hstep : stepReceiver e (.awaitingExchange waker) = some (e', r')) :
    ∃ m', Agree m' e' s r' := by
  have hreceiver := h.receiver
  have hawaiter := h.awaiter
  rw [stepReceiver] at hstep
  cases m with
  | bound => cases hreceiver.resolve_right id
  | awaiting c =>
    rw [h.state 2 rfl] at hstep
    cases hstep
    have hcell : e.awaiter = some c := hawaiter
    exact ⟨.bound, fun n hn => Option.some.inj hn, h.owner, h.sender, Or.inl rfl,
      Option.isSome_of_mem hcell, h.value, h.freed, nofun⟩
  | signaling ending c =>
    rw [h.state 3 rfl] at hstep
    cases hstep
    exact ⟨_, h.move (Or.inr trivial) rfl rfl (hawaiter.congr id) h.value h.freed
      (List.Subset.refl _)⟩
  | given ending c =>
    rw [h.state ending.state rfl] at hstep
    cases ending with
    | set =>
      cases hstep
      exact ⟨_, h.move (Or.inr rfl) rfl rfl hawaiter h.value h.freed (List.Subset.refl _)⟩
    | disconnected =>
      cases hstep
      exact ⟨_, h.take trivial rfl hawaiter h.value h.freed⟩
  | taken | left | alone => exact hreceiver.elim

namespace Mode

/-- The cell of the awaiter is the receiver's own. -/
def Own : Mode W → Prop
  | awaiting _ | signaling _ (some _) => False
  | _ => True

theorem Own.awaiter {m : Mode W} (h : m.Own) (s : SenderPc V W) (r : ReceiverPc V W)
    (awaiter : Option (Clone W)) : m.Awaiter s r awaiter ↔ Private awaiter r := by
  cases m with
  | awaiting c => exact h.elim
  | signaling ending c =>
    cases c with
    | some c => exact h.elim
    | none => exact Iff.rfl
  | _ => exact Iff.rfl

theorem own_boundWrite {m : Mode W} {c : Clone W}
    (h : Receiver (V := V) m (.boundWrite c)) : m.Own := by
  cases m with
  | awaiting _ => cases h
  | signaling _ c' => cases h.resolve_right id; trivial
  | _ => trivial

theorem own_takeAwaiter {m : Mode W} {after : After W}
    (h : Receiver (V := V) m (.takeAwaiter after)) : m.Own := by
  cases m with
  | awaiting _ => cases after <;> cases h
  | signaling _ c' =>
    obtain rfl : c' = none := by
      cases after with
      | bound _ => exact h.resolve_right id
      | signaling => exact h.resolve_left id
      | set | disconnected => exact h.elim False.elim False.elim
    trivial
  | _ => trivial

theorem own_cancelTake {m : Mode W} (h : Receiver (V := V) m .cancelTake) : m.Own := by
  cases m with
  | awaiting _ => cases h
  | signaling _ c' => cases h.resolve_right id; trivial
  | _ => trivial

end Mode

/-- The awaiter that the receiver destroys is there. -/
theorem takeAwaiter_agree {m : Mode W} {e e' : Event V W} {s : SenderPc V W}
    {r' : ReceiverPc V W} {after : After W} (h : Agree m e s (.takeAwaiter after))
    (hstep : stepReceiver e (.takeAwaiter after) = some (e', r')) : ∃ m', Agree m' e' s r' := by
  have hown := Mode.own_takeAwaiter h.receiver
  obtain ⟨c, hc⟩ := Option.isSome_iff_exists.mp ((hown.awaiter ..).mp h.awaiter)
  rw [stepReceiver, hc] at hstep
  cases hstep
  have hreceiver : m.Receiver (.dropAwaiter c after : ReceiverPc V W) := by
    have hr := h.receiver
    cases m <;> cases after <;> exact hr
  have hvalue := h.value
  have hfreed := h.freed
  refine ⟨m, h.move hreceiver rfl rfl ((hown.awaiter ..).mpr rfl) ?_ ?_ (List.Subset.refl _)⟩
  · cases m with
    | taken => exact hreceiver.elim
    | _ => exact hvalue
  · cases m with
    | taken => exact hreceiver.elim
    | _ => exact hfreed

theorem dropAwaiter_agree {m : Mode W} {e e' : Event V W} {s : SenderPc V W}
    {r' : ReceiverPc V W} {c : Clone W} {after : After W} (h : Agree m e s (.dropAwaiter c after))
    (hstep : stepReceiver e (.dropAwaiter c after) = some (e', r')) : ∃ m', Agree m' e' s r' := by
  cases hstep
  have hreceiver := h.receiver
  have hawaiter := h.awaiter
  cases after with
  | bound waker =>
    cases m with
    | bound | awaiting c' | signaling ending c' | given ending c' =>
      exact ⟨_, h.move hreceiver rfl rfl (hawaiter.congr id) h.value h.freed
        (List.subset_cons_self _ _)⟩
    | taken | left | alone => exact hreceiver.elim
  | set =>
    cases m with
    | given ending c' =>
      exact ⟨_, h.move hreceiver rfl rfl (hawaiter.congr id) h.value h.freed
        (List.subset_cons_self _ _)⟩
    | bound | signaling _ _ => exact (hreceiver.elim id id).elim
    | awaiting _ | taken | left | alone => exact hreceiver.elim
  | signaling =>
    cases m with
    | signaling _ _ | given _ _ =>
      exact ⟨_, h.move (Or.inr trivial) rfl rfl (hawaiter.congr id) h.value h.freed
        (List.subset_cons_self _ _)⟩
    | bound => exact (hreceiver.elim id id).elim
    | awaiting _ | taken | left | alone => exact hreceiver.elim
  | disconnected =>
    cases m with
    | given ending c' =>
      obtain rfl : ending = .disconnected := hreceiver.resolve_left id
      exact ⟨_, h.take trivial rfl hawaiter h.value h.freed⟩
    | bound | signaling _ _ => exact (hreceiver.elim id id).elim
    | awaiting _ | taken | left | alone => exact hreceiver.elim

theorem cancelExchange_agree {m : Mode W} {e e' : Event V W} {s : SenderPc V W}
    {r' : ReceiverPc V W} (h : Agree m e s .cancelExchange)
    (hstep : stepReceiver e .cancelExchange = some (e', r')) : ∃ m', Agree m' e' s r' := by
  have hreceiver := h.receiver
  have hawaiter := h.awaiter
  rw [stepReceiver] at hstep
  cases m with
  | awaiting c =>
    rw [h.state 2 rfl, if_pos rfl] at hstep
    cases hstep
    have hcell : e.awaiter = some c := hawaiter
    exact ⟨.bound, fun n hn => Option.some.inj hn, h.owner, h.sender, Or.inl rfl,
      Option.isSome_of_mem hcell, h.value, h.freed, nofun⟩
  | bound =>
    rw [h.state 0 rfl, if_neg (by decide)] at hstep
    cases hstep
    exact ⟨_, h.move (Or.inr trivial) rfl rfl hawaiter h.value h.freed (List.Subset.refl _)⟩
  | signaling ending c =>
    rw [h.state 3 rfl, if_neg (by decide)] at hstep
    cases hstep
    exact ⟨_, h.move (Or.inr nofun) rfl rfl (hawaiter.congr id) h.value h.freed
      (List.Subset.refl _)⟩
  | given ending c =>
    rw [h.state ending.state rfl, if_neg (by cases ending <;> decide)] at hstep
    cases hstep
    exact ⟨_, h.move (Or.inr trivial) rfl rfl hawaiter h.value h.freed (List.Subset.refl _)⟩
  | taken | left | alone => exact hreceiver.elim

theorem cancelTake_agree {m : Mode W} {e e' : Event V W} {s : SenderPc V W}
    {r' : ReceiverPc V W} (h : Agree m e s .cancelTake)
    (hstep : stepReceiver e .cancelTake = some (e', r')) : ∃ m', Agree m' e' s r' := by
  have hown := Mode.own_cancelTake h.receiver
  obtain ⟨c, hc⟩ := Option.isSome_iff_exists.mp ((hown.awaiter ..).mp h.awaiter)
  have hreceiver := h.receiver
  rw [stepReceiver, hc] at hstep
  cases hstep
  have hawaiter := (hown.awaiter s (.cancelLoad (some c) : ReceiverPc V W) none).mpr rfl
  cases m with
  | bound | given ending c' =>
    exact ⟨_, h.move (Or.inr trivial) rfl rfl hawaiter h.value h.freed (List.Subset.refl _)⟩
  | signaling ending c' =>
    obtain rfl : c' = none := hreceiver.resolve_right id
    exact ⟨_, h.move (Or.inr fun _ => rfl) rfl rfl hawaiter h.value h.freed
      (List.Subset.refl _)⟩
  | awaiting c' => cases hreceiver
  | taken | left | alone => exact hreceiver.elim

theorem cancelLoad_agree {m : Mode W} {e e' : Event V W} {s : SenderPc V W}
    {r' : ReceiverPc V W} {awaiter : Option (Clone W)} (h : Agree m e s (.cancelLoad awaiter))
    (hstep : stepReceiver e (.cancelLoad awaiter) = some (e', r')) : ∃ m', Agree m' e' s r' := by
  have hreceiver := h.receiver
  have hawaiter := h.awaiter
  rw [stepReceiver] at hstep
  cases m with
  | bound =>
    rw [h.state 0 rfl, if_neg (by decide)] at hstep
    cases hstep
    exact ⟨_, h.move (Or.inr rfl) rfl rfl hawaiter h.value h.freed (List.Subset.refl _)⟩
  | signaling ending c =>
    rw [h.state 3 rfl, if_pos rfl] at hstep
    cases hstep
    exact ⟨_, h⟩
  | given ending c =>
    rw [h.state ending.state rfl, if_neg (by cases ending <;> decide)] at hstep
    cases hstep
    exact ⟨_, h.move (Or.inr (Or.inr rfl)) rfl rfl hawaiter h.value h.freed
      (List.Subset.refl _)⟩
  | awaiting _ | taken | left | alone => exact hreceiver.elim

theorem cancelStore_agree {m : Mode W} {e e' : Event V W} {s : SenderPc V W}
    {r' : ReceiverPc V W} {awaiter : Option (Clone W)} {current : Nat}
    (h : Agree m e s (.cancelStore awaiter current))
    (hstep : stepReceiver e (.cancelStore awaiter current) = some (e', r')) :
    ∃ m', Agree m' e' s r' := by
  have hreceiver := h.receiver
  have hawaiter := h.awaiter
  rw [stepReceiver] at hstep
  cases m with
  | bound =>
    obtain rfl : current = eventBound := hreceiver.resolve_left id
    rw [h.state 0 rfl, if_pos rfl] at hstep
    cases hstep
    exact ⟨.left, fun n hn => Option.some.inj hn, rfl, h.sender, trivial, hawaiter, h.value,
      h.freed, nofun⟩
  | signaling ending c =>
    obtain ⟨rfl, rfl⟩ : current = eventBound ∧ c = none := hreceiver.resolve_left id
    rw [h.state 3 rfl, if_neg (by decide)] at hstep
    cases hstep
    exact ⟨_, h.move (Or.inr fun _ => rfl) rfl rfl hawaiter h.value h.freed
      (List.Subset.refl _)⟩
  | given ending c =>
    rw [h.state ending.state rfl] at hstep
    rcases hreceiver.resolve_left id with rfl | rfl
    · -- The sender has been faster.
      rw [if_neg (by cases ending <;> decide)] at hstep
      cases hstep
      exact ⟨_, h.move (Or.inr trivial) rfl rfl hawaiter h.value h.freed (List.Subset.refl _)⟩
    · rw [if_pos rfl] at hstep
      cases ending with
      | set | disconnected =>
        cases hstep
        exact ⟨_, h.take trivial rfl hawaiter h.value h.freed⟩
  | awaiting _ | taken | left | alone => exact hreceiver.elim

/-- The value is there when the receiver reads it. -/
theorem value_isSome {m : Mode W} {e : Event V W} {s : SenderPc V W} {r : ReceiverPc V W}
    (h : Agree m e s r)
    (hr : r = .pollSet ∨ r = .resultTake ∨ ∃ awaiter, r = .cancelSet awaiter) :
    ∃ v, e.value = some v := by
  refine Option.isSome_iff_exists.mp (h.value.trans ?_)
  have hreceiver := h.receiver
  rcases hr with rfl | rfl | ⟨awaiter, rfl⟩
  all_goals
    cases m with
    | given ending c =>
      cases ending <;> first | rfl | cases hreceiver.resolve_left id
    | taken => first | rfl | exact hreceiver.elim
    | bound | signaling _ _ => exact (hreceiver.elim id id).elim
    | awaiting _ | left | alone => exact hreceiver.elim

theorem receiver_agree {m : Mode W} {e e' : Event V W} {s : SenderPc V W}
    {r r' : ReceiverPc V W} (h : Agree m e s r) (hstep : stepReceiver e r = some (e', r')) :
    ∃ m', Agree m' e' s r' := by
  have hreceiver := h.receiver
  have hawaiter := h.awaiter
  cases r with
  | pollLoad waker prev =>
    cases hstep
    exact pollLoad_agree h
  | boundClone waker =>
    cases hstep
    cases m with
    | bound | signaling _ _ | given _ _ =>
      exact ⟨_, h.move hreceiver rfl rfl (hawaiter.congr id) h.value h.freed
        (List.subset_cons_self _ _)⟩
    | awaiting _ => cases hreceiver
    | taken | left | alone => exact hreceiver.elim
  | boundWrite c =>
    cases hstep
    have hown := Mode.own_boundWrite hreceiver
    have hcell := (hown.awaiter s (.boundExchange c : ReceiverPc V W) (some c)).mpr rfl
    cases m with
    | bound | signaling _ _ | given _ _ =>
      exact ⟨_, h.move hreceiver rfl rfl hcell h.value h.freed (List.Subset.refl _)⟩
    | awaiting _ => cases hreceiver
    | taken | left | alone => exact hreceiver.elim
  | boundExchange c => exact boundExchange_agree h hstep
  | takeAwaiter after => exact takeAwaiter_agree h hstep
  | dropAwaiter c after => exact dropAwaiter_agree h hstep
  | awaitingExchange waker => exact awaitingExchange_agree h hstep
  | pollSet =>
    obtain ⟨v, hv⟩ := value_isSome h (Or.inl rfl)
    rw [stepReceiver, hv] at hstep
    cases hstep
    cases m with
    | given ending c => exact ⟨_, h.take trivial rfl hawaiter rfl h.freed⟩
    | bound | signaling _ _ => exact (hreceiver.elim id id).elim
    | awaiting _ | taken | left | alone => exact hreceiver.elim
  | pollSignaling =>
    rw [stepReceiver] at hstep
    cases m with
    | signaling ending c =>
      rw [h.state 3 rfl] at hstep
      cases hstep
      exact ⟨_, h⟩
    | given ending c =>
      rw [h.state ending.state rfl] at hstep
      cases ending with
      | set =>
        cases hstep
        exact ⟨_, h.move (Or.inr rfl) rfl rfl hawaiter h.value h.freed (List.Subset.refl _)⟩
      | disconnected =>
        cases hstep
        exact ⟨_, h.take trivial rfl hawaiter h.value h.freed⟩
    | bound => exact (hreceiver.elim id id).elim
    | awaiting _ | taken | left | alone => exact hreceiver.elim
  | release result =>
    cases hstep
    cases m with
    | taken =>
      exact ⟨_, h.move trivial rfl rfl hawaiter h.value rfl
        (List.subset_cons_of_subset _ (List.subset_cons_self _ _))⟩
    | bound | signaling _ _ | given _ _ => exact (hreceiver.elim id id).elim
    | awaiting _ | left | alone => exact hreceiver.elim
  | isReady prev =>
    cases hstep
    cases m with
    | bound | awaiting _ | signaling _ _ | given _ _ =>
      exact ⟨_, h.move hreceiver rfl rfl (hawaiter.congr id) h.value h.freed
        (List.subset_cons_self _ _)⟩
    | taken | left | alone => exact hreceiver.elim
  | intoValue prev =>
    rw [stepReceiver] at hstep
    cases m with
    | bound =>
      rw [h.state 0 rfl] at hstep
      cases hstep
      exact ⟨_, h.move hreceiver rfl rfl (hawaiter.congr id) h.value h.freed
        (List.subset_cons_self _ _)⟩
    | awaiting c =>
      rw [h.state 2 rfl] at hstep
      cases hstep
      exact ⟨_, h.move hreceiver rfl rfl (hawaiter.congr id) h.value h.freed
        (List.subset_cons_self _ _)⟩
    | signaling ending c =>
      rw [h.state 3 rfl] at hstep
      cases hstep
      exact ⟨_, h.move hreceiver rfl rfl (hawaiter.congr id) h.value h.freed
        (List.subset_cons_self _ _)⟩
    | given ending c =>
      rw [h.state ending.state rfl] at hstep
      cases ending with
      | set | disconnected =>
        cases hstep
        exact ⟨_, h.move (Or.inr trivial) rfl rfl hawaiter h.value h.freed (List.Subset.refl _)⟩
    | taken | left | alone => exact hreceiver.elim
  | resultSwap =>
    rw [stepReceiver] at hstep
    cases m with
    | given ending c =>
      rw [h.state ending.state rfl] at hstep
      cases ending with
      | set | disconnected =>
        cases hstep
        exact ⟨_, h.take trivial rfl hawaiter h.value h.freed⟩
    | bound | signaling _ _ => exact (hreceiver.elim id id).elim
    | awaiting _ | taken | left | alone => exact hreceiver.elim
  | resultTake =>
    obtain ⟨v, hv⟩ := value_isSome h (Or.inr (Or.inl rfl))
    rw [stepReceiver, hv] at hstep
    cases hstep
    cases m with
    | taken => exact ⟨_, h.move trivial rfl rfl hawaiter rfl h.freed (List.Subset.refl _)⟩
    | bound | signaling _ _ | given _ _ => exact (hreceiver.elim id id).elim
    | awaiting _ | left | alone => exact hreceiver.elim
  | cancelExchange => exact cancelExchange_agree h hstep
  | cancelTake => exact cancelTake_agree h hstep
  | cancelLoad awaiter => exact cancelLoad_agree h hstep
  | cancelStore awaiter current => exact cancelStore_agree h hstep
  | cancelSet awaiter =>
    obtain ⟨v, hv⟩ := value_isSome h (Or.inr (Or.inr ⟨awaiter, rfl⟩))
    rw [stepReceiver, hv] at hstep
    cases hstep
    cases m with
    | taken => exact ⟨_, h.move trivial rfl rfl hawaiter rfl h.freed (List.Subset.refl _)⟩
    | bound | signaling _ _ | given _ _ => exact (hreceiver.elim id id).elim
    | awaiting _ | left | alone => exact hreceiver.elim
  | cancelRelease value awaiter =>
    cases hstep
    cases m with
    | taken =>
      exact ⟨_, h.move trivial rfl rfl hawaiter h.value rfl (List.subset_cons_self _ _)⟩
    | bound | signaling _ _ | given _ _ => exact (hreceiver.elim id id).elim
    | awaiting _ | left | alone => exact hreceiver.elim
  | cancelDrop value awaiter =>
    have hmode : m = .taken ∨ (m = .left ∨ m = .alone) ∧ value = none := by
      cases m with
      | taken => exact Or.inl rfl
      | left | alone =>
        cases value with
        | none => exact Or.inr ⟨by simp, rfl⟩
        | some v => exact hreceiver.elim
      | bound | signaling _ _ | given _ _ => exact (hreceiver.elim id id).elim
      | awaiting _ => exact hreceiver.elim
    rcases hmode with rfl | ⟨rfl | rfl, rfl⟩
    · cases value with
      | some v =>
        cases hstep
        exact ⟨_, h.move trivial rfl rfl hawaiter h.value h.freed (List.subset_cons_self _ _)⟩
      | none =>
        cases awaiter with
        | none =>
          cases hstep
          exact ⟨_, h.move trivial rfl rfl hawaiter h.value h.freed (List.Subset.refl _)⟩
        | some c =>
          cases hstep
          exact ⟨_, h.move trivial rfl rfl hawaiter h.value h.freed (List.subset_cons_self _ _)⟩
    all_goals
      cases awaiter with
      | none =>
        cases hstep
        exact ⟨_, h.move trivial rfl rfl hawaiter h.value h.freed (List.Subset.refl _)⟩
      | some c =>
        cases hstep
        exact ⟨_, h.move trivial rfl rfl hawaiter h.value h.freed (List.subset_cons_self _ _)⟩
  | idle _ | done | fault _ => cases hstep

end Folo.EventsOnce.Sync
