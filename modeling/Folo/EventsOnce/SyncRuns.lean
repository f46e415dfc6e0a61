import Folo.EventsOnce.SyncInv

/-!
# Every run of an `Event`

What the endpoints hold at each point, and with `Agree` and `Accounts` the
invariant of all reachable states.
-/

namespace Folo.EventsOnce.Sync

open Folo.Lib

variable {V W : Type}

/-- The wakers in the hands of the sender. -/
def SenderPc.wakers : SenderPc V W → List (Clone W)
  | store _ awaiter => awaiter.toList
  | wake awaiter => [awaiter]
  | _ => []

def SenderPc.values : SenderPc V W → List V
  | setWrite value | dropValue value => [value]
  | release value => value.toList
  | _ => []

/-- The wakers in the hands of the receiver. -/
def ReceiverPc.wakers : ReceiverPc V W → List (Clone W)
  | boundWrite awaiter | dropAwaiter awaiter _ => [awaiter]
  | cancelLoad awaiter | cancelStore awaiter _ | cancelSet awaiter | cancelRelease _ awaiter
  | cancelDrop _ awaiter => awaiter.toList
  | _ => []

def ReceiverPc.values : ReceiverPc V W → List V
  | release result => result.toList
  | cancelRelease value _ | cancelDrop value _ => value.toList
  | _ => []

/-! ## Nothing is lost in a step -/

theorem stepSender_accounts {e e' : Event V W} {s s' : SenderPc V W} {wakers : List (Clone W)}
    {values : List V} (h : Accounts e (s.wakers ++ wakers) (s.values ++ values))
    (hvalue : ∀ v, s = .setWrite v → e.value = none)
    (hfreed : s.touches = true → e.freed = false)
    (howner : ∀ value, s = .release value → e.owner = some .sender)
    (hfault : ∀ f, s' ≠ .fault f) (hstep : stepSender e s = some (e', s')) :
    Accounts e' (s'.wakers ++ wakers) (s'.values ++ values) := by
  cases s with
  | setWrite v =>
    cases hstep
    exact h.putValue (hvalue v rfl)
  | setAdd =>
    rw [stepSender] at hstep
    split at hstep
    next =>
      cases hstep
      exact h.setState (hfreed rfl) _ _
    next =>
      cases hstep
      exact h.setState (hfreed rfl) _ _
    next =>
      cases hstep
      exact h.setState (hfreed rfl) _ _
    next =>
      cases hstep
      exact absurd rfl (hfault _)
  | dropSwap =>
    rw [stepSender] at hstep
    split at hstep
    next =>
      cases hstep
      exact h.setState (hfreed rfl) _ _
    next =>
      cases hstep
      exact h.setState (hfreed rfl) _ _
    next =>
      cases hstep
      exact h.setState (hfreed rfl) _ _
    next =>
      cases hstep
      exact absurd rfl (hfault _)
  | take ending =>
    rw [stepSender] at hstep
    split at hstep
    next awaiter hc =>
      cases hstep
      exact h.takeAwaiter hc
    next =>
      cases hstep
      exact absurd rfl (hfault _)
  | store ending awaiter =>
    cases hstep
    cases awaiter with
    | none | some c => exact h.setState (hfreed rfl) _ _
  | wake awaiter =>
    cases hstep
    exact h.wake
  | takeValue =>
    rw [stepSender] at hstep
    split at hstep
    next v hv =>
      cases hstep
      exact h.takeValue hv
    next =>
      cases hstep
      exact absurd rfl (hfault _)
  | release value =>
    cases hstep
    cases value with
    | none | some v => exact h.release (hfreed rfl) (howner _ rfl)
  | dropValue v =>
    cases hstep
    exact h.destroy
  | idle | done | fault _ => cases hstep

theorem stepReceiver_accounts {e e' : Event V W} {r r' : ReceiverPc V W}
    {wakers : List (Clone W)} {values : List V}
    (h : Accounts e (r.wakers ++ wakers) (r.values ++ values))
    (hawaiter : ∀ c, r = .boundWrite c → e.awaiter = none)
    (hfreed : r.touches = true → e.freed = false)
    (howner : (∃ result, r = .release result) ∨ (∃ value c, r = .cancelRelease value c) →
      e.owner = some .receiver)
    (hfault : ∀ f, r' ≠ .fault f) (hstep : stepReceiver e r = some (e', r')) :
    Accounts e' (r'.wakers ++ wakers) (r'.values ++ values) := by
  cases r with
  | pollLoad waker prev =>
    cases hstep
    unfold pollState
    split <;> exact h
  | boundClone waker =>
    cases hstep
    exact h.clone waker
  | boundWrite c =>
    cases hstep
    exact h.putAwaiter (hawaiter c rfl)
  | boundExchange c =>
    rw [stepReceiver] at hstep
    split at hstep <;> cases hstep
    next => exact (h.setState (hfreed rfl) _ _).pending
    next => exact h
    next => exact h
    next => exact h
    next => exact absurd rfl (hfault _)
  | takeAwaiter after | cancelTake =>
    rw [stepReceiver] at hstep
    split at hstep <;> cases hstep
    next c hc => exact h.takeAwaiter hc
    next => exact absurd rfl (hfault _)
  | dropAwaiter c after =>
    cases hstep
    cases after <;> exact h.dropWaker
  | awaitingExchange waker =>
    rw [stepReceiver] at hstep
    split at hstep <;> cases hstep
    next => exact h.setState (hfreed rfl) _ _
    next => exact h
    next => exact h
    next => exact h
    next => exact absurd rfl (hfault _)
  | pollSet | resultTake =>
    rw [stepReceiver] at hstep
    split at hstep <;> cases hstep
    next v hv => exact h.takeValue hv
    next => exact absurd rfl (hfault _)
  | pollSignaling =>
    rw [stepReceiver] at hstep
    split at hstep <;> cases hstep
    next => exact h
    next => exact h
    next => exact h
    next => exact absurd rfl (hfault _)
  | release result =>
    cases hstep
    exact (h.release (hfreed rfl) (howner (Or.inl ⟨result, rfl⟩))).returned result
  | isReady prev =>
    cases hstep
    exact h.ready _
  | intoValue prev =>
    rw [stepReceiver] at hstep
    split at hstep <;> cases hstep
    next => exact h.pending
    next => exact h.pending
    next => exact h.pending
    next => exact h
    next => exact h
    next => exact absurd rfl (hfault _)
  | resultSwap =>
    rw [stepReceiver] at hstep
    split at hstep <;> cases hstep
    next => exact h.setState (hfreed rfl) _ _
    next => exact h.setState (hfreed rfl) _ _
    next => exact absurd rfl (hfault _)
  | cancelExchange =>
    rw [stepReceiver] at hstep
    split at hstep <;> cases hstep
    next => exact h.setState (hfreed rfl) _ _
    next => exact h
  | cancelLoad awaiter =>
    rw [stepReceiver] at hstep
    split at hstep <;> cases hstep <;> exact h
  | cancelStore awaiter current =>
    rw [stepReceiver] at hstep
    split at hstep
    next =>
      have heq := Option.some.inj hstep
      unfold cancelled at heq
      split at heq <;> cases heq
      next => exact h.setState (hfreed rfl) _ _
      next => exact h.setState (hfreed rfl) _ _
      next => exact h.setState (hfreed rfl) _ _
      next => exact absurd rfl (hfault .unreachable)
    next =>
      cases hstep
      exact h
  | cancelSet awaiter =>
    rw [stepReceiver] at hstep
    split at hstep <;> cases hstep
    next v hv => exact h.takeValue hv
    next => exact absurd rfl (hfault _)
  | cancelRelease value awaiter =>
    cases hstep
    exact h.release (hfreed rfl) (howner (Or.inr ⟨value, awaiter, rfl⟩))
  | cancelDrop value awaiter =>
    cases value with
    | some v =>
      cases hstep
      exact h.destroy
    | none =>
      cases awaiter with
      | some c =>
        cases hstep
        exact h.dropWaker
      | none =>
        cases hstep
        exact h
  | idle _ | done | fault _ => cases hstep

/-! ## The invariant -/

/-- The sender accesses the event only while it may. -/
theorem Agree.sender_mayTouch {m : Mode W} {e : Event V W} {s : SenderPc V W}
    {r : ReceiverPc V W} (h : Agree m e s r) (ht : s.touches = true) :
    e.freed = false ∧ e.mayTouch .sender = true := by
  have hsender := h.sender
  have hopen : m.owner ≠ some .receiver ∧ m.freed s r = false := by
    cases m with
    | bound | awaiting _ | left | signaling _ _ => exact ⟨nofun, rfl⟩
    | given _ _ | taken => cases s <;> first | exact hsender.elim | cases ht
    | alone => cases s <;> first | exact ⟨nofun, rfl⟩ | exact hsender.elim | cases ht
  have hfreed := h.freed.trans hopen.2
  refine ⟨hfreed, ?_⟩
  rw [Event.mayTouch, hfreed, h.owner]
  exact decide_eq_true hopen.1

/-- So does the receiver. -/
theorem Agree.receiver_mayTouch {m : Mode W} {e : Event V W} {s : SenderPc V W}
    {r : ReceiverPc V W} (h : Agree m e s r) (ht : r.touches = true) :
    e.freed = false ∧ e.mayTouch .receiver = true := by
  have hreceiver := h.receiver
  have hopen : m.owner ≠ some .sender ∧ m.freed s r = false := by
    cases m with
    | bound | awaiting _ | signaling _ _ | given _ _ => exact ⟨nofun, rfl⟩
    | taken => cases r <;> first | exact ⟨nofun, rfl⟩ | exact hreceiver.elim | cases ht
    | left | alone => cases r <;> first | exact hreceiver.elim | cases ht
  have hfreed := h.freed.trans hopen.2
  refine ⟨hfreed, ?_⟩
  rw [Event.mayTouch, hfreed, h.owner]
  exact decide_eq_true hopen.1

theorem Agree.not_fault {m : Mode W} {e : Event V W} {s : SenderPc V W} {r : ReceiverPc V W}
    (h : Agree m e s r) (f : Fault) : s ≠ .fault f ∧ r ≠ .fault f := by
  have hsender := h.sender
  have hreceiver := h.receiver
  constructor
  · rintro rfl
    cases m <;> exact hsender.elim
  · rintro rfl
    cases m with
    | bound | signaling _ _ | given _ _ => exact hreceiver.elim id id
    | _ => exact hreceiver.elim

theorem Agree.value_none {m : Mode W} {e : Event V W} {r : ReceiverPc V W} {v : V}
    (h : Agree m e (.setWrite v) r) : e.value = none := by
  have hsender := h.sender
  have hvalue := h.value
  cases m with
  | bound | awaiting _ | left =>
    exact Option.not_isSome_iff_eq_none.mp (by rw [hvalue]; exact Bool.false_ne_true)
  | _ => exact hsender.elim

theorem Agree.awaiter_none {m : Mode W} {e : Event V W} {s : SenderPc V W} {c : Clone W}
    (h : Agree m e s (.boundWrite c)) : e.awaiter = none :=
  ((Mode.own_boundWrite h.receiver).awaiter ..).mp h.awaiter

/-- The sender releases what it owns. -/
theorem Agree.sender_owns {m : Mode W} {e : Event V W} {r : ReceiverPc V W} {value : Option V}
    (h : Agree m e (.release value) r) : e.owner = some .sender := by
  have hsender := h.sender
  cases m with
  | alone => exact h.owner
  | _ => exact hsender.elim

/-- So does the receiver. -/
theorem Agree.receiver_owns {m : Mode W} {e : Event V W} {s : SenderPc V W} {r : ReceiverPc V W}
    (h : Agree m e s r)
    (hr : (∃ result, r = .release result) ∨ ∃ value c, r = .cancelRelease value c) :
    e.owner = some .receiver := by
  have hreceiver := h.receiver
  have htaken : m = .taken := by
    rcases hr with ⟨result, rfl⟩ | ⟨value, c, rfl⟩
    all_goals
      cases m with
      | taken => rfl
      | bound | signaling _ _ | given _ _ => exact (hreceiver.elim id id).elim
      | _ => exact hreceiver.elim
  rw [h.owner, htaken]
  rfl

/-- The invariant. -/
structure Inv (σ : State V W) : Prop where
  agree : ∃ m, Agree m σ.event σ.sender σ.receiver
  accounts : Accounts σ.event (σ.sender.wakers ++ σ.receiver.wakers)
    (σ.sender.values ++ σ.receiver.values)

namespace Inv

theorem init : Inv (machine V W).init where
  agree := ⟨.bound, fun _ hn => Option.some.inj hn, rfl, trivial, Or.inl rfl, rfl, rfl, rfl, nofun⟩
  accounts := Accounts.new

/-- A call on the sender. -/
theorem callSender {e : Event V W} {r : ReceiverPc V W} (h : Inv ⟨e, .idle, r⟩) :
    (∀ value, Inv ⟨e.note (.sent value), .setWrite value, r⟩) ∧ Inv ⟨e, .dropSwap, r⟩ := by
  obtain ⟨m, hagree⟩ := h.agree
  have hsender := hagree.sender
  cases m with
  | bound | awaiting _ | left =>
    constructor
    · intro value
      exact ⟨⟨_, hagree.state, hagree.owner, trivial, hagree.receiver, hagree.awaiter,
        hagree.value, hagree.freed, nofun⟩, h.accounts.send value⟩
    · exact ⟨⟨_, hagree.state, hagree.owner, trivial, hagree.receiver, hagree.awaiter,
        hagree.value, hagree.freed, nofun⟩, h.accounts⟩
  | _ => exact hsender.elim

/-- A call on the receiver. -/
theorem callReceiver {e : Event V W} {s : SenderPc V W} {prev : Option (Clone W)}
    (h : Inv ⟨e, s, .idle prev⟩) :
    (∀ waker, Inv ⟨e, s, .pollLoad waker prev⟩) ∧ Inv ⟨e, s, .isReady prev⟩ ∧
      Inv ⟨e, s, .intoValue prev⟩ ∧ Inv ⟨e, s, .cancelExchange⟩ := by
  obtain ⟨m, hagree⟩ := h.agree
  have hreceiver := hagree.receiver
  cases m with
  | bound | signaling _ _ | given _ _ =>
    have hprev := hreceiver.resolve_right id
    exact ⟨fun _ => ⟨⟨_, hagree.move (Or.inl hprev) rfl rfl (hagree.awaiter.congr id) hagree.value
        hagree.freed (List.Subset.refl _)⟩, h.accounts⟩,
      ⟨⟨_, hagree.move (Or.inl hprev) rfl rfl (hagree.awaiter.congr id) hagree.value hagree.freed
        (List.Subset.refl _)⟩, h.accounts⟩,
      ⟨⟨_, hagree.move (Or.inl hprev) rfl rfl (hagree.awaiter.congr id) hagree.value hagree.freed
        (List.Subset.refl _)⟩, h.accounts⟩,
      ⟨⟨_, hagree.move (Or.inl trivial) rfl rfl (hagree.awaiter.congr id) hagree.value hagree.freed
        (List.Subset.refl _)⟩, h.accounts⟩⟩
  | awaiting c =>
    exact ⟨fun _ => ⟨⟨_, hagree.move hreceiver rfl rfl hagree.awaiter hagree.value
        hagree.freed (List.Subset.refl _)⟩, h.accounts⟩,
      ⟨⟨_, hagree.move hreceiver rfl rfl hagree.awaiter hagree.value hagree.freed
        (List.Subset.refl _)⟩, h.accounts⟩,
      ⟨⟨_, hagree.move hreceiver rfl rfl hagree.awaiter hagree.value hagree.freed
        (List.Subset.refl _)⟩, h.accounts⟩,
      ⟨⟨_, hagree.move trivial rfl rfl hagree.awaiter hagree.value hagree.freed
        (List.Subset.refl _)⟩, h.accounts⟩⟩
  | taken | left | alone => exact hreceiver.elim

theorem sender {e e' : Event V W} {s s' : SenderPc V W} {r : ReceiverPc V W}
    (h : Inv ⟨e, s, r⟩) {a : Act (SenderCall V)} (hact : actSender e s a = some (e', s')) :
    Inv ⟨e', s', r⟩ := by
  obtain ⟨m, hagree⟩ := h.agree
  unfold actSender at hact
  split at hact
  next value =>
    cases hact
    exact h.callSender.1 value
  next =>
    cases hact
    exact h.callSender.2
  next => cases hact
  next =>
    have htouch : ¬ (s.touches && !e.mayTouch .sender) = true := by
      cases ht : s.touches with
      | false => exact Bool.false_ne_true
      | true =>
        rw [(hagree.sender_mayTouch ht).2]
        exact Bool.false_ne_true
    rw [if_neg htouch] at hact
    obtain ⟨m', hagree'⟩ := sender_agree hagree hact
    refine ⟨⟨m', hagree'⟩, stepSender_accounts h.accounts ?_ ?_ ?_ ?_ hact⟩
    · rintro v rfl
      exact hagree.value_none
    · exact fun ht => (hagree.sender_mayTouch ht).1
    · rintro value rfl
      exact hagree.sender_owns
    · exact fun f => (hagree'.not_fault f).1

theorem receiver {e e' : Event V W} {s : SenderPc V W} {r r' : ReceiverPc V W}
    (h : Inv ⟨e, s, r⟩) {a : Act (ReceiverCall W)} (hact : actReceiver e r a = some (e', r')) :
    Inv ⟨e', s, r'⟩ := by
  obtain ⟨m, hagree⟩ := h.agree
  unfold actReceiver at hact
  split at hact
  next prev waker =>
    cases hact
    exact h.callReceiver.1 waker
  next prev =>
    cases hact
    exact h.callReceiver.2.1
  next prev =>
    cases hact
    exact h.callReceiver.2.2.1
  next prev =>
    cases hact
    exact h.callReceiver.2.2.2
  next => cases hact
  next =>
    have htouch : ¬ (r.touches && !e.mayTouch .receiver) = true := by
      cases ht : r.touches with
      | false => exact Bool.false_ne_true
      | true =>
        rw [(hagree.receiver_mayTouch ht).2]
        exact Bool.false_ne_true
    rw [if_neg htouch] at hact
    obtain ⟨m', hagree'⟩ := receiver_agree hagree hact
    have hswap : Accounts e (r.wakers ++ s.wakers) (r.values ++ s.values) :=
      h.accounts.perm List.perm_append_comm List.perm_append_comm
    refine ⟨⟨m', hagree'⟩, (stepReceiver_accounts hswap ?_ ?_ ?_ ?_ hact).perm
      List.perm_append_comm List.perm_append_comm⟩
    · rintro c rfl
      exact hagree.awaiter_none
    · exact fun ht => (hagree.receiver_mayTouch ht).1
    · exact hagree.receiver_owns
    · exact fun f => (hagree'.not_fault f).2

end Inv

theorem reachable_inv {σ : State V W} (h : (machine V W).Reachable σ) : Inv σ := by
  refine h.invariant Inv.init ?_
  rintro ⟨e, s, r⟩ l σ' - hinv - hnext
  cases l with
  | sender a =>
    obtain ⟨⟨e', s'⟩, hact, rfl⟩ := Option.map_eq_some_iff.mp hnext
    exact hinv.sender hact
  | receiver a =>
    obtain ⟨⟨e', r'⟩, hact, rfl⟩ := Option.map_eq_some_iff.mp hnext
    exact hinv.receiver hact

/-! ## What follows -/

/-- The clone that the last poll has registered, as long as the receiver has
not looked at the event again. -/
def ReceiverPc.last : ReceiverPc V W → Option (Clone W)
  | idle last | pollLoad _ last | isReady last | intoValue last => last
  | _ => none

/-- What holds of a state of an event. -/
structure Delivers (σ : State V W) : Prop where
  /-- No unreachable arm is hit, no cell is read uninitialized, and no
  endpoint accesses the event once the release is the other's. -/
  sound : ∀ f, σ.sender ≠ .fault f ∧ σ.receiver ≠ .fault f
  conserved : Conserved σ.event (σ.sender.wakers ++ σ.receiver.wakers)
    (σ.sender.values ++ σ.receiver.values)
  /-- At the end nothing is left. -/
  finished : σ.sender = .done → σ.receiver = .done → Spent σ.event
  /-- The waker of a last poll that is pending is woken by the sender. -/
  woken : ∀ c, σ.receiver.last = some c → σ.sender = .done → .woken c ∈ σ.event.effects

/-- What is left when both are done. -/
theorem Agree.finished {m : Mode W} {e : Event V W} (h : Agree m e (.done : SenderPc V W) .done) :
    e.freed = true ∧ e.owner.isSome ∧ e.awaiter = none ∧ e.value = none := by
  have hsender := h.sender
  have hreceiver := h.receiver
  have hvalue := h.value
  cases m with
  | taken | alone =>
    exact ⟨h.freed, Option.isSome_of_mem h.owner, h.awaiter,
      Option.not_isSome_iff_eq_none.mp (by rw [hvalue]; exact Bool.false_ne_true)⟩
  | given _ _ => exact (hreceiver.elim id id).elim
  | _ => exact hsender.elim

/-- The sender has woken the waker it found. -/
theorem Agree.last_woken {m : Mode W} {e : Event V W} {r : ReceiverPc V W} {c : Clone W}
    (h : Agree m e .done r) (hlast : r.last = some c) : .woken c ∈ e.effects := by
  have hsender := h.sender
  have hreceiver := h.receiver
  cases m with
  | given ending c' =>
    have hc : c' = some c := by
      cases r with
      | idle _ | pollLoad _ _ | isReady _ | intoValue _ =>
        exact (hreceiver.resolve_right id).symm.trans hlast
      | _ => cases hlast
    exact h.woken ending c (by rw [hc]) rfl
  | taken | alone =>
    cases r with
    | idle _ | pollLoad _ _ | isReady _ | intoValue _ => exact hreceiver.elim
    | _ => cases hlast
  | _ => exact hsender.elim

/-- **Ownership and delivery** of an event. -/
theorem event_delivers {V W : Type} {σ : State V W} (h : (machine V W).Reachable σ) :
    Delivers σ := by
  obtain ⟨⟨m, hagree⟩, haccounts⟩ := reachable_inv h
  refine ⟨hagree.not_fault, haccounts.conserved, ?_, ?_⟩
  · intro hs hr
    rw [hs, hr] at hagree haccounts
    obtain ⟨hfreed, howner, hawaiter, hvalue⟩ := hagree.finished
    exact haccounts.spent hfreed howner hawaiter hvalue
  · intro c hr hs
    rw [hs] at hagree
    exact hagree.last_woken hr

/-- The receiver waits, is polled again with another waker, and the sender
sends while the receiver is about to wait again. -/
theorem event_delivers_repolled :
    ∃ σ, (machine Nat Nat).run
        ([Label.receiver (.call (.poll 7))] ++ List.replicate 4 (Label.receiver .step) ++
          [Label.receiver (.call (.poll 8))] ++ List.replicate 6 (Label.receiver .step) ++
          [Label.sender (.call (.send 42)), .sender .step, .sender .step, .receiver .step] ++
          List.replicate 4 (Label.receiver .step)) = some σ ∧
      σ.sender = .done ∧ σ.receiver = .done ∧ σ.event.outcomes = [42] ∧
      σ.event.settled.map Clone.waker = [8, 7] ∧ Delivers σ := by
  obtain ⟨σ, hrun, hs, hr, houtcomes, hsettled⟩ : ∃ σ, (machine Nat Nat).run
        ([Label.receiver (.call (.poll 7))] ++ List.replicate 4 (Label.receiver .step) ++
          [Label.receiver (.call (.poll 8))] ++ List.replicate 6 (Label.receiver .step) ++
          [Label.sender (.call (.send 42)), .sender .step, .sender .step, .receiver .step] ++
          List.replicate 4 (Label.receiver .step)) = some σ ∧
      σ.sender = .done ∧ σ.receiver = .done ∧ σ.event.outcomes = [42] ∧
      σ.event.settled.map Clone.waker = [8, 7] :=
    ⟨_, rfl, rfl, rfl, rfl, rfl⟩
  exact ⟨σ, hrun, hs, hr, houtcomes, hsettled, event_delivers (Machine.reachable_of_run hrun)⟩

end Folo.EventsOnce.Sync
