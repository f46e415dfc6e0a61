import Folo.EventsOnce.LocalEvent

/-!
# Every run of a `LocalEvent`

As for `Event`, a `Mode` says what the event is about between two steps, and
`Agree` that the storage and both endpoints agree with it. Every callback is
invoked at such a point, so whatever it does, and however it ends, the event
is in order.
-/

namespace Folo.EventsOnce.Local

open Folo.Lib

variable {V W : Type}

/-- What has become of the event. -/
inductive Mode
  | bound
  | awaiting
  /-- The sender has published a terminal state: the release is the
  receiver's. -/
  | given (ending : Ending)
  | taken
  /-- The receiver has left first: the release is the sender's. -/
  | left
  | alone

namespace Mode

def state : Mode → Option Nat
  | bound => some eventBound
  | awaiting => some eventAwaiting
  | given ending => some ending.state
  | left => some eventDisconnected
  | taken | alone => none

def owner : Mode → Option Party
  | bound | awaiting => none
  | given _ | taken => some .receiver
  | left | alone => some .sender

/-- Where the sender can be. -/
def Sender : Mode → SenderPc → Prop
  | bound, .idle | awaiting, .idle | left, .idle => True
  | given _, .waking | given _, .done | taken, .waking | taken, .done => True
  | alone, .droppingValue | alone, .done => True
  | _, _ => False

/-- Where the receiver can be. -/
def Receiver : Mode → ReceiverPc W → Prop
  | bound, .idle | bound, .cloning _ .bound => True
  | awaiting, .idle | awaiting, .cloning _ .awaiting | awaiting, .droppingPrevious => True
  | given _, .idle | given _, .cloning _ _ | given _, .droppingPrevious => True
  | given ending, .droppingNew ending' => ending' = ending
  | taken, .droppingValue _ | taken, .droppingWaker | taken, .done => True
  | left, .droppingWaker | left, .done | alone, .droppingWaker | alone, .done => True
  | _, _ => False

/-- The receiver stays where it is when the sender acts. -/
theorem Receiver.given {m : Mode} {r : ReceiverPc W} (h : Receiver m r)
    (hm : m = bound ∨ m = awaiting) (ending : Ending) : (given ending).Receiver r := by
  rcases hm with rfl | rfl
  all_goals
    cases r with
    | idle | cloning _ _ | droppingPrevious => trivial
    | _ => exact h.elim

theorem Receiver.alone {r : ReceiverPc W} (h : Receiver left r) : alone.Receiver r := by
  cases r with
  | droppingWaker | done => trivial
  | _ => exact h.elim

/-- The sender stays idle when the receiver registers or leaves. -/
theorem Sender.idle {m m' : Mode} {s : SenderPc} (h : Sender m s)
    (hm : m = bound ∨ m = awaiting) (hm' : m' = awaiting ∨ m' = left) : m'.Sender s := by
  rcases hm with rfl | rfl
  all_goals
    cases s with
    | idle => rcases hm' with rfl | rfl <;> trivial
    | _ => exact h.elim

/-- Whether there is something in the cell of the awaiter. -/
def hasAwaiter : Mode → Bool
  | awaiting => true
  | _ => false

/-- Whether there is something in the cell of the value. -/
def hasValue : Mode → Bool
  | given .set => true
  | _ => false

def freed : Mode → Bool
  | taken | alone => true
  | _ => false

end Mode

/-- The wakers in the hands of the receiver. -/
def ReceiverPc.wakers : ReceiverPc W → List (Clone W)
  | droppingValue awaiter => awaiter.toList
  | _ => []

/-- The mode agrees with the storage and both endpoints. -/
structure Agree (m : Mode) (e : Event V W) (s : SenderPc) (r : ReceiverPc W) : Prop where
  state : ∀ n, m.state = some n → e.state = n
  owner : e.owner = m.owner
  sender : m.Sender s
  receiver : m.Receiver r
  awaiter : e.awaiter.isSome = m.hasAwaiter
  value : e.value.isSome = m.hasValue
  freed : e.freed = m.freed
  accounts : Accounts e r.wakers []

/-- The invariant. -/
def Inv (σ : State V W) : Prop := ∃ m, Agree m σ.event σ.sender σ.receiver

namespace Agree

variable {m : Mode} {e : Event V W} {s : SenderPc} {r : ReceiverPc W}

theorem init : Agree .bound (Event.new V W) .idle (.idle : ReceiverPc W) :=
  ⟨fun _ hn => Option.some.inj hn, rfl, trivial, trivial, rfl, rfl, rfl, Accounts.new⟩

theorem awaiter_none (h : Agree m e s r) (hm : m.hasAwaiter = false) : e.awaiter = none :=
  Option.not_isSome_iff_eq_none.mp (by rw [h.awaiter, hm]; exact Bool.false_ne_true)

theorem value_none (h : Agree m e s r) (hm : m.hasValue = false) : e.value = none :=
  Option.not_isSome_iff_eq_none.mp (by rw [h.value, hm]; exact Bool.false_ne_true)

/-! ## The sender -/

theorem set (h : Agree m e .idle r) (value : V) :
    Inv ⟨(Local.set (e.note (.sent value)) value).1, (Local.set (e.note (.sent value)) value).2,
      r⟩ := by
  have hsender := h.sender
  have hreceiver := h.receiver
  cases m with
  | bound =>
    have hput := (h.accounts.send value).putValue (h.value_none rfl)
    have hset := hput.setState h.freed eventSet (some .receiver)
    rw [Local.set]
    dsimp only [Event.note]
    rw [h.state 0 rfl]
    have hreceiver' := hreceiver.given (Or.inl rfl) .set
    exact ⟨.given .set, fun _ hn => Option.some.inj hn, rfl, trivial, hreceiver', h.awaiter, rfl,
      h.freed, hset⟩
  | awaiting =>
    obtain ⟨c, hc⟩ := Option.isSome_iff_exists.mp h.awaiter
    have hput := (h.accounts.send value).putValue (h.value_none rfl)
    have hset := hput.setState h.freed eventSet (some .receiver)
    have hwake := (hset.takeAwaiter hc).wake
    rw [Local.set]
    dsimp only [Event.note]
    rw [h.state 2 rfl, hc]
    have hreceiver' := hreceiver.given (Or.inr rfl) .set
    exact ⟨.given .set, fun _ hn => Option.some.inj hn, rfl, trivial, hreceiver', rfl, rfl,
      h.freed, hwake⟩
  | left =>
    have hput := (h.accounts.send value).putValue (h.value_none rfl)
    have hset := hput.setState h.freed eventSet e.owner
    have htake := (hset.takeValue rfl).release h.freed h.owner
    rw [Local.set]
    dsimp only [Event.note]
    rw [h.state 4 rfl]
    exact ⟨.alone, nofun, h.owner, trivial, hreceiver.alone, h.awaiter, rfl, rfl, htake.destroy⟩
  | _ => exact hsender.elim

theorem senderDroppedWithoutSet (h : Agree m e .idle r) :
    Inv ⟨(Local.senderDroppedWithoutSet e).1, (Local.senderDroppedWithoutSet e).2, r⟩ := by
  have hsender := h.sender
  have hreceiver := h.receiver
  cases m with
  | bound =>
    have hset := h.accounts.setState h.freed eventDisconnected (some .receiver)
    rw [Local.senderDroppedWithoutSet, h.state 0 rfl]
    have hreceiver' := hreceiver.given (Or.inl rfl) .disconnected
    exact ⟨.given .disconnected, fun _ hn => Option.some.inj hn, rfl, trivial, hreceiver',
      h.awaiter, h.value, h.freed, hset⟩
  | awaiting =>
    obtain ⟨c, hc⟩ := Option.isSome_iff_exists.mp h.awaiter
    have hset := h.accounts.setState h.freed eventDisconnected (some .receiver)
    have hwake := (hset.takeAwaiter hc).wake
    rw [Local.senderDroppedWithoutSet, h.state 2 rfl]
    dsimp only
    rw [hc]
    have hreceiver' := hreceiver.given (Or.inr rfl) .disconnected
    exact ⟨.given .disconnected, fun _ hn => Option.some.inj hn, rfl, trivial, hreceiver', rfl,
      h.value, h.freed, hwake⟩
  | left =>
    have hset := h.accounts.setState h.freed eventDisconnected e.owner
    rw [Local.senderDroppedWithoutSet, h.state 4 rfl]
    exact ⟨.alone, nofun, h.owner, trivial, hreceiver.alone, h.awaiter, h.value, rfl,
      hset.release h.freed h.owner⟩
  | _ => exact hsender.elim

/-- The sender may access the event as long as it is there. -/
theorem sender_mayTouch (h : Agree m e .idle r) : e.mayTouch .sender = true := by
  have hsender := h.sender
  have hopen : m.owner ≠ some .receiver ∧ m.freed = false := by
    cases m with
    | bound | awaiting | left => exact ⟨nofun, rfl⟩
    | _ => exact hsender.elim
  rw [Event.mayTouch, h.freed, hopen.2, h.owner]
  exact decide_eq_true hopen.1

/-- Nothing follows the callbacks of the sender. -/
theorem sender_done (h : Agree m e s r) (hs : s = .waking ∨ s = .droppingValue) :
    Inv ⟨e, .done, r⟩ := by
  have hsender := h.sender
  refine ⟨m, h.state, h.owner, ?_, h.receiver, h.awaiter, h.value, h.freed, h.accounts⟩
  rcases hs with rfl | rfl
  all_goals
    cases m with
    | given _ | taken | alone => trivial
    | _ => exact hsender.elim

theorem sender_inv {e' : Event V W} {s' : SenderPc} (h : Agree m e s r) {a : Move (SenderCall V)}
    (hact : actSender e s a = some (e', s')) : Inv ⟨e', s', r⟩ := by
  unfold actSender at hact
  split at hact
  next op =>
    rw [h.sender_mayTouch, Bool.not_true, if_neg Bool.false_ne_true] at hact
    cases op with
    | send value =>
      have heq := Option.some.inj hact
      have hset := h.set value
      rw [heq] at hset
      exact hset
    | drop =>
      have heq := Option.some.inj hact
      have hset := h.senderDroppedWithoutSet
      rw [heq] at hset
      exact hset
  next =>
    cases hact
    exact h.sender_done (Or.inl rfl)
  next =>
    cases hact
    exact h.sender_done (Or.inl rfl)
  next =>
    cases hact
    exact h.sender_done (Or.inr rfl)
  next =>
    cases hact
    exact h.sender_done (Or.inr rfl)
  next => cases hact

/-! ## The receiver -/

theorem sender_taken {ending : Ending} (h : Agree (.given ending) e s r) :
    Mode.taken.Sender s := by
  have hsender := h.sender
  cases s with
  | waking | done => trivial
  | _ => exact hsender.elim

/-- `poll_set` takes the value and releases the event. -/
theorem pollSet (h : Agree (.given .set) e s r) (hw : r.wakers = []) (state : Nat) :
    Inv ⟨(Local.pollSet { e with state }).1, s, (Local.pollSet { e with state }).2⟩ := by
  obtain ⟨v, hv⟩ := Option.isSome_iff_exists.mp h.value
  have haccounts := h.accounts
  rw [hw] at haccounts
  have hstate := (haccounts.takeValue hv).setState h.freed state e.owner
  have htake := (hstate.release h.freed h.owner).returned (some v)
  rw [Local.pollSet, hv]
  exact ⟨.taken, nofun, h.owner, h.sender_taken, trivial, h.awaiter, rfl, rfl, htake⟩

theorem pollDisconnected (h : Agree (.given .disconnected) e s r) (hw : r.wakers = [])
    (state : Nat) : Inv ⟨(Local.pollDisconnected { e with state }).1, s,
      (Local.pollDisconnected { e with state }).2⟩ := by
  have haccounts := h.accounts
  rw [hw] at haccounts
  have hstate := haccounts.setState h.freed state e.owner
  have htake := (hstate.release h.freed h.owner).returned none
  exact ⟨.taken, nofun, h.owner, h.sender_taken, trivial, h.awaiter, h.value, rfl, htake⟩

theorem poll (h : Agree m e s .idle) (waker : W) :
    Inv ⟨(Local.poll e waker).1, s, (Local.poll e waker).2⟩ := by
  have hreceiver := h.receiver
  rw [Local.poll]
  cases m with
  | bound =>
    rw [h.state 0 rfl]
    exact ⟨.bound, h.state, h.owner, h.sender, trivial, h.awaiter, h.value, h.freed, h.accounts⟩
  | awaiting =>
    rw [h.state 2 rfl]
    exact ⟨.awaiting, h.state, h.owner, h.sender, trivial, h.awaiter, h.value, h.freed,
      h.accounts⟩
  | given ending =>
    rw [h.state ending.state rfl]
    cases ending with
    | set => exact h.pollSet rfl e.state
    | disconnected => exact h.pollDisconnected rfl e.state
  | _ => exact hreceiver.elim

/-- A clone that nobody would consume is dropped. -/
theorem dropNew {ending : Ending} (h : Agree (.given ending) e s r) {c : Clone W}
    {effects : List (Effect V W)} (hc : Accounts { e with effects } [c] []) :
    Inv ⟨{ e with state := ending.state, effects }.note (.droppedWaker c), s,
      .droppingNew ending⟩ :=
  ⟨.given ending, fun _ hn => Option.some.inj hn, h.owner, h.sender, rfl, h.awaiter, h.value,
    h.freed, (hc.setState h.freed ending.state e.owner).dropWaker⟩

theorem pollBound {waker : W} (h : Agree m e s (.cloning waker .bound)) {e' : Event V W}
    (he : e' = e.note (.cloned (e.nextClone waker))) :
    Inv ⟨(Local.pollBound e' (e.nextClone waker)).1, s,
      (Local.pollBound e' (e.nextClone waker)).2⟩ := by
  subst he
  have hreceiver := h.receiver
  have hclone := h.accounts.clone waker
  rw [Local.pollBound]
  dsimp only [Event.note]
  cases m with
  | bound =>
    rw [h.state 0 rfl]
    have hput := (hclone.putAwaiter (h.awaiter_none rfl)).setState h.freed eventAwaiting e.owner
    exact ⟨.awaiting, fun _ hn => Option.some.inj hn, h.owner,
      h.sender.idle (Or.inl rfl) (Or.inl rfl), trivial, rfl, h.value, h.freed, hput.pending⟩
  | given ending =>
    rw [h.state ending.state rfl]
    cases ending with
    | set | disconnected => exact h.dropNew hclone
  | _ => exact hreceiver.elim

theorem pollAwaiting {waker : W} (h : Agree m e s (.cloning waker .awaiting)) {e' : Event V W}
    (he : e' = e.note (.cloned (e.nextClone waker))) :
    Inv ⟨(Local.pollAwaiting e' (e.nextClone waker)).1, s,
      (Local.pollAwaiting e' (e.nextClone waker)).2⟩ := by
  subst he
  have hreceiver := h.receiver
  have hclone := h.accounts.clone waker
  rw [Local.pollAwaiting]
  dsimp only [Event.note]
  cases m with
  | awaiting =>
    obtain ⟨c, hc⟩ := Option.isSome_iff_exists.mp h.awaiter
    rw [h.state 2 rfl, hc]
    have htake := (hclone.takeAwaiter hc).perm (List.Perm.swap _ _ _) (List.Perm.refl _)
    have hput := (htake.putAwaiter rfl).setState h.freed eventAwaiting e.owner
    exact ⟨.awaiting, fun _ hn => Option.some.inj hn, h.owner, h.sender, trivial, rfl, h.value,
      h.freed, hput.dropWaker⟩
  | given ending =>
    rw [h.state ending.state rfl]
    cases ending with
    | set | disconnected => exact h.dropNew hclone
  | _ => exact hreceiver.elim

theorem intoValue (h : Agree m e s .idle) :
    Inv ⟨(Local.intoValue e).1, s, (Local.intoValue e).2⟩ := by
  have hreceiver := h.receiver
  rw [Local.intoValue]
  cases m with
  | bound =>
    rw [h.state 0 rfl]
    exact ⟨.bound, h.state, h.owner, h.sender, trivial, h.awaiter, h.value, h.freed,
      h.accounts.pending⟩
  | awaiting =>
    rw [h.state 2 rfl]
    exact ⟨.awaiting, h.state, h.owner, h.sender, trivial, h.awaiter, h.value, h.freed,
      h.accounts.pending⟩
  | given ending =>
    have hstate := h.state ending.state rfl
    rw [hstate]
    cases ending with
    | set =>
      rw [takeResult, hstate]
      exact h.pollSet rfl eventDisconnected
    | disconnected =>
      rw [takeResult, hstate]
      exact h.pollDisconnected rfl eventDisconnected
  | _ => exact hreceiver.elim

/-- The waker is dropped last. -/
theorem dropAwaiter {awaiter : Option (Clone W)} (h : Agree m e s (.droppingValue awaiter)) :
    Inv ⟨(Local.dropAwaiter e awaiter).1, s, (Local.dropAwaiter e awaiter).2⟩ := by
  have hreceiver := h.receiver
  cases m with
  | taken =>
    cases awaiter with
    | some c =>
      exact ⟨.taken, h.state, h.owner, h.sender, trivial, h.awaiter, h.value, h.freed,
        h.accounts.dropWaker⟩
    | none =>
      exact ⟨.taken, h.state, h.owner, h.sender, trivial, h.awaiter, h.value, h.freed,
        h.accounts⟩
  | _ => exact hreceiver.elim

theorem cancel (h : Agree m e s .idle) : Inv ⟨(Local.cancel e).1, s, (Local.cancel e).2⟩ := by
  have hreceiver := h.receiver
  rw [Local.cancel]
  cases m with
  | bound =>
    rw [h.state 0 rfl, if_neg (by decide), disconnect, h.state 0 rfl]
    exact ⟨.left, fun _ hn => Option.some.inj hn, rfl, h.sender.idle (Or.inl rfl) (Or.inr rfl),
      trivial, h.awaiter, h.value, h.freed, h.accounts.setState h.freed _ _⟩
  | awaiting =>
    obtain ⟨c, hc⟩ := Option.isSome_iff_exists.mp h.awaiter
    have htake := (h.accounts.takeAwaiter hc).setState h.freed eventDisconnected (some .sender)
    rw [h.state 2 rfl, if_pos rfl, hc]
    exact ⟨.left, fun _ hn => Option.some.inj hn, rfl, h.sender.idle (Or.inr rfl) (Or.inr rfl),
      trivial, rfl, h.value, h.freed, htake.dropWaker⟩
  | given ending =>
    have hstate := h.state ending.state rfl
    rw [hstate, if_neg (by cases ending <;> decide), disconnect, hstate]
    cases ending with
    | set =>
      obtain ⟨v, hv⟩ := Option.isSome_iff_exists.mp h.value
      have htake := (h.accounts.takeValue hv).setState h.freed eventDisconnected e.owner
      dsimp only [Ending.state]
      rw [hv]
      exact ⟨.taken, nofun, h.owner, h.sender_taken, trivial, h.awaiter, rfl, rfl,
        (htake.release h.freed h.owner).destroy⟩
    | disconnected =>
      have hset := h.accounts.setState h.freed eventDisconnected e.owner
      exact ⟨.taken, nofun, h.owner, h.sender_taken, trivial, h.awaiter, h.value, rfl,
        hset.release h.freed h.owner⟩
  | _ => exact hreceiver.elim

/-- The receiver may access the event as long as it is there. -/
theorem receiver_mayTouch (h : Agree m e s r) {a : Move (ReceiverCall W)}
    (ht : touches r a = true) : e.mayTouch .receiver = true := by
  have hreceiver := h.receiver
  have hopen : m.owner ≠ some .sender ∧ m.freed = false := by
    cases m with
    | bound | awaiting | given _ => exact ⟨nofun, rfl⟩
    | _ => cases r <;> cases a <;> first | exact hreceiver.elim | cases ht
  rw [Event.mayTouch, h.freed, hopen.2, h.owner]
  exact decide_eq_true hopen.1

/-- The receiver is idle again after a callback. -/
theorem receiver_idle (h : Agree m e s r)
    (hr : (∃ waker polled, r = .cloning waker polled) ∨ (∃ ending, r = .droppingNew ending) ∨
      r = .droppingPrevious) : Agree m e s .idle := by
  have hreceiver := h.receiver
  have haccounts := h.accounts
  have hidle : m.Receiver (.idle : ReceiverPc W) ∧ r.wakers = [] := by
    rcases hr with ⟨waker, polled, rfl⟩ | ⟨ending, rfl⟩ | rfl
    all_goals
      cases m with
      | bound | awaiting | given _ => exact ⟨trivial, rfl⟩
      | _ => exact hreceiver.elim
  rw [hidle.2] at haccounts
  exact ⟨h.state, h.owner, h.sender, hidle.1, h.awaiter, h.value, h.freed, haccounts⟩

/-- The callback was invoked in a terminal state. -/
theorem droppedNew {ending : Ending} (h : Agree m e s (.droppingNew ending)) :
    Agree (.given ending) e s (.droppingNew ending) := by
  have hreceiver := h.receiver
  cases m with
  | given ending' =>
    cases hreceiver
    exact h
  | _ => exact hreceiver.elim

/-- Nothing follows the destruction of the waker. -/
theorem droppedWaker (h : Agree m e s .droppingWaker) : Inv ⟨e, s, .done⟩ := by
  have hreceiver := h.receiver
  cases m with
  | taken | left | alone =>
    exact ⟨_, h.state, h.owner, h.sender, trivial, h.awaiter, h.value, h.freed, h.accounts⟩
  | _ => exact hreceiver.elim

theorem receiver_inv {e' : Event V W} {r' : ReceiverPc W} (h : Agree m e s r)
    {a : Move (ReceiverCall W)} (hact : actReceiver e r a = some (e', r')) : Inv ⟨e', s, r'⟩ := by
  have htouch : ¬ (touches r a && !e.mayTouch .receiver) = true := by
    cases ht : touches r a with
    | false => exact Bool.false_ne_true
    | true =>
      rw [h.receiver_mayTouch ht]
      exact Bool.false_ne_true
  rw [actReceiver, if_neg htouch] at hact
  have hreceiver := h.receiver
  have hresult : ∀ {x : Event V W × ReceiverPc W}, x = (e', r') → Inv ⟨x.1, s, x.2⟩ →
      Inv ⟨e', s, r'⟩ := by
    rintro x rfl hx
    exact hx
  unfold stepReceiver at hact
  split at hact
  next waker => exact hresult (Option.some.inj hact) (h.poll waker)
  next =>
    cases hact
    exact ⟨m, h.state, h.owner, h.sender, hreceiver, h.awaiter, h.value, h.freed,
      h.accounts.ready _⟩
  next => exact hresult (Option.some.inj hact) h.intoValue
  next => exact hresult (Option.some.inj hact) h.cancel
  next waker => exact hresult (Option.some.inj hact) (h.pollBound rfl)
  next waker => exact hresult (Option.some.inj hact) (h.pollAwaiting rfl)
  next waker polled =>
    cases hact
    exact ⟨m, h.receiver_idle (Or.inl ⟨_, _, rfl⟩)⟩
  next => exact hresult (Option.some.inj hact) (h.droppedNew.pollSet rfl e.state)
  next => exact hresult (Option.some.inj hact) (h.droppedNew.pollDisconnected rfl e.state)
  next =>
    cases hact
    exact ⟨m, h.receiver_idle (Or.inr (Or.inl ⟨_, rfl⟩))⟩
  next =>
    cases hact
    have hidle := h.receiver_idle (Or.inr (Or.inr rfl))
    exact ⟨m, hidle.state, hidle.owner, hidle.sender, hidle.receiver, hidle.awaiter, hidle.value,
      hidle.freed, hidle.accounts.pending⟩
  next =>
    cases hact
    exact ⟨m, h.receiver_idle (Or.inr (Or.inr rfl))⟩
  next awaiter => exact hresult (Option.some.inj hact) h.dropAwaiter
  next awaiter => exact hresult (Option.some.inj hact) h.dropAwaiter
  next =>
    cases hact
    exact h.droppedWaker
  next =>
    cases hact
    exact h.droppedWaker
  next => cases hact

theorem not_fault (h : Agree m e s r) (f : Fault) : s ≠ .fault f ∧ r ≠ .fault f := by
  have hsender := h.sender
  have hreceiver := h.receiver
  constructor
  · rintro rfl
    cases m <;> exact hsender.elim
  · rintro rfl
    cases m <;> exact hreceiver.elim

end Agree

theorem reachable_inv {σ : State V W} (h : (machine V W).Reachable σ) : Inv σ := by
  refine h.invariant (I := Inv) ⟨.bound, Agree.init⟩ ?_
  rintro ⟨e, s, r⟩ l σ' - ⟨m, hagree⟩ - hnext
  cases l with
  | sender a =>
    obtain ⟨⟨e', s'⟩, hact, rfl⟩ := Option.map_eq_some_iff.mp hnext
    exact hagree.sender_inv hact
  | receiver a =>
    obtain ⟨⟨e', r'⟩, hact, rfl⟩ := Option.map_eq_some_iff.mp hnext
    exact hagree.receiver_inv hact

/-- What holds of a state of an event, whatever the callbacks did. -/
structure Survives (σ : State V W) : Prop where
  /-- No unreachable arm is hit, no cell is read uninitialized, and the
  storage is not touched after its release. -/
  sound : ∀ f, σ.sender ≠ .fault f ∧ σ.receiver ≠ .fault f
  conserved : Conserved σ.event σ.receiver.wakers []
  /-- At the end nothing is left. -/
  finished : σ.sender = .done → σ.receiver = .done → Spent σ.event

/-- **A `LocalEvent` survives its callbacks.** -/
theorem localEvent_survives {V W : Type} {σ : State V W} (h : (machine V W).Reachable σ) :
    Survives σ := by
  obtain ⟨m, hagree⟩ := reachable_inv h
  refine ⟨hagree.not_fault, hagree.accounts.conserved, fun hs hr => ?_⟩
  rw [hs, hr] at hagree
  have hsender := hagree.sender
  have hreceiver := hagree.receiver
  cases m with
  | taken | alone =>
    exact hagree.accounts.spent hagree.freed (Option.isSome_of_mem hagree.owner)
      (hagree.awaiter_none rfl) (hagree.value_none rfl)
  | given _ => exact hreceiver.elim
  | _ => exact hsender.elim

/-- The waker is cloned while the receiver is polled again, and the clone
sends; the waker that the sender wakes unwinds, and so does the destructor of
the new clone. The receiver is dropped, and the destructor of the payload
unwinds as well. -/
theorem localEvent_survives_unwinding :
    ∃ σ, (machine Nat Nat).run
        [.receiver (.call (.poll 7)), .receiver .returns, .receiver (.call (.poll 8)),
          .sender (.call (.send 42)), .sender .unwinds, .receiver .returns, .receiver .unwinds,
          .receiver (.call .drop), .receiver .unwinds] = some σ ∧
      σ.sender = .done ∧ σ.receiver = .done ∧ σ.event.outcomes = [42] ∧ Survives σ := by
  obtain ⟨σ, hrun, hs, hr, houtcomes⟩ : ∃ σ, (machine Nat Nat).run
        [.receiver (.call (.poll 7)), .receiver .returns, .receiver (.call (.poll 8)),
          .sender (.call (.send 42)), .sender .unwinds, .receiver .returns, .receiver .unwinds,
          .receiver (.call .drop), .receiver .unwinds] = some σ ∧
      σ.sender = .done ∧ σ.receiver = .done ∧ σ.event.outcomes = [42] :=
    ⟨_, rfl, rfl, rfl, rfl⟩
  exact ⟨σ, hrun, hs, hr, houtcomes, localEvent_survives (Machine.reachable_of_run hrun)⟩

end Folo.EventsOnce.Local
