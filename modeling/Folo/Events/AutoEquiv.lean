import Folo.Awaiters.Set
import Folo.Events.AutoInv

/-!
# The two auto-reset events compared

`AutoResetEvent` and `LocalAutoResetEvent` on the same single-threaded run.
An operation of the thread-safe event is run to its end by one thread
(`perform`), which is a run of the concurrent machine (`perform_reachable`).

`Sim` relates the two events: the `SIGNALED` bit is the `Set` state, and both
sets are the same queue. It is kept by every operation but one: a poll of a
future that has been notified while a signal is stored as well. Both return
`Ready`, but `AutoResetEvent` consumes the signal and leaves the awaiter
notified, and `LocalAutoResetEvent` consumes the notification and leaves the
signal. The next `try_wait` then answers differently (`auto_events_differ`).
-/

namespace Folo.Events

/-! ## One thread

The embedding of `local_auto.rs`. The single-threaded event has no state
word and no mutex: its inner state is either an awaiter set or a stored
signal. Every operation runs to completion, except that `set` and
`drop_wait` wake a task at their very end; they return its waker.
-/

open Folo.Awaiters

/-- `InnerState`: a stored signal and an awaiter set exclude each other. -/
inductive InnerState
  | unset (waiters : AwaiterSet)
  | set

/-- `Inner`, the awaiters in the futures, and the id that the next set gets
in a debug build (`NEXT_SET_ID`). -/
structure LocalAuto (W : Type) where
  state : InnerState
  mem : Memory W
  nextSetId : Nat

namespace LocalAuto

variable {W : Type}

/-- `boxed()`: a new event in the unset state, with no futures yet. -/
def boxed (W : Type) (setId : Nat) : LocalAuto W where
  state := .unset (AwaiterSet.new setId)
  mem := fun _ => Awaiter.new
  nextSetId := setId + 1

/-- The signal is consumed: `InnerState::Unset(AwaiterSet::new())`. -/
def consume (c : LocalAuto W) : LocalAuto W :=
  { c with state := .unset (AwaiterSet.new c.nextSetId), nextSetId := c.nextSetId + 1 }

/-- Write back what an operation did to the awaiter set. -/
def putStore (c : LocalAuto W) (st : Store W) : LocalAuto W :=
  { c with state := .unset st.set, mem := st.mem }

/-- Hand a signal to the next waiter, or store it when there is none. -/
def notifyOrStore (debug : Bool) (c : LocalAuto W) (waiters : AwaiterSet) :
    Except Fault (Option W × LocalAuto W) := do
  match ← Store.notifyOne debug { set := waiters, mem := c.mem } with
  | (some w, st) => return (some w, c.putStore st)
  | (none, st) => return (none, { c with state := .set, mem := st.mem })

/-- `set`. -/
def set (debug : Bool) (c : LocalAuto W) : Except Fault (Option W × LocalAuto W) :=
  match c.state with
  | .set => return (none, c)
  | .unset waiters => c.notifyOrStore debug waiters

/-- `try_wait`. -/
def tryWait (c : LocalAuto W) : Bool × LocalAuto W :=
  match c.state with
  | .set => (true, c.consume)
  | .unset _ => (false, c)

/-- `wait()` places a new future at address `f`. -/
def wait (c : LocalAuto W) (f : Ptr) : LocalAuto W := { c with mem := c.mem.create f }

/-- `poll_wait`: whether it is ready. -/
def pollWait (debug : Bool) (c : LocalAuto W) (f : Ptr) (waker : W) :
    Except Fault (Bool × LocalAuto W) := do
  let (taken, mem) := c.mem.takeNotification f
  let c := { c with mem := mem }
  if taken then return (true, c)
  match c.state with
  | .set =>
    debugAssert debug (!(c.mem f).isRegistered) .waiterWhileSet
    return (true, c.consume)
  | .unset waiters =>
    let st ← Store.register debug { set := waiters, mem := c.mem } f waker
    return (false, c.putStore st)

/-- `drop_wait`. -/
def dropWait (debug : Bool) (c : LocalAuto W) (f : Ptr) :
    Except Fault (Option W × LocalAuto W) := do
  if !(c.mem f).isRegistered then return (none, c)
  if (c.mem f).isNotified then
    match c.state with
    | .unset waiters => c.notifyOrStore debug waiters
    | .set => return (none, c)
  else
    match c.state with
    | .unset waiters =>
      let st ← Store.unregister debug { set := waiters, mem := c.mem } f
      return (none, c.putStore st)
    | .set =>
      debugAssert debug false .waiterWhileSet
      return (none, c)

end LocalAuto

open Folo.Lib Folo.Awaiters

variable {W T : Type}

namespace Auto

/-- What an operation reports as it returns. -/
def Pc.result : Pc W → Option Bool
  | tryWaitReturn result => some result
  | pollReturn _ ready => some ready
  | _ => none

/-- Let the thread take up to `n` steps until it is idle again. -/
def finish (debug : Bool) (t : T) : Nat → EventInner W T → Pc W → Option Bool →
    Option (Option Bool × EventInner W T)
  | _, s, .idle, r => some (r, s)
  | 0, _, _, _ => none
  | n + 1, s, pc, r =>
    (step debug t s pc).bind fun p => finish debug t n p.1 p.2 (pc.result <|> r)

/-- An operation from its call to its return; none takes more than ten
steps. -/
def perform (debug : Bool) (t : T) (s : EventInner W T) (op : Call W) :
    Option (Option Bool × EventInner W T) :=
  (call t s op).bind fun p => finish debug t 10 p.1 p.2 none

/-- A single thread at a program counter. -/
def single (s : EventInner W Unit) (pc : Pc W) : Threads (EventInner W Unit) (Pc W) Unit where
  shared := s
  pc := fun _ => pc

theorem next_single {debug : Bool} {setId : Nat} {s s' : EventInner W Unit} {pc pc' : Pc W}
    {a : Act (Call W)} (h : act debug () pc a s = some (s', pc')) :
    (auto W Unit debug setId).next (single s pc) ((), a) = some (single s' pc') := by
  refine threads_next.mpr ⟨h, fun u hu => absurd rfl hu⟩

theorem finish_reachable {debug : Bool} {setId : Nat} {n : Nat} {s s' : EventInner W Unit}
    {pc : Pc W} {r r' : Option Bool} (h : (auto W Unit debug setId).Reachable (single s pc))
    (hf : finish debug () n s pc r = some (r', s')) :
    (auto W Unit debug setId).Reachable (single s' .idle) := by
  induction n generalizing s pc r with
  | zero =>
    cases pc with
    | idle =>
      cases hf
      exact h
    | _ => cases hf
  | succ n ih =>
    by_cases hpc : pc = .idle
    · subst hpc
      cases hf
      exact h
    · have hstep : finish debug () (n + 1) s pc r =
          (step debug () s pc).bind fun p => finish debug () n p.1 p.2 (pc.result <|> r) := by
        cases pc with
        | idle => exact absurd rfl hpc
        | _ => rfl
      rw [hstep, Option.bind_eq_some_iff] at hf
      obtain ⟨⟨s₁, pc₁⟩, hs, hf⟩ := hf
      have hact : act debug () pc .step s = some (s₁, pc₁) := by
        cases pc with
        | _ => exact hs
      exact ih (h.step (next_single hact)) hf

/-- A completed operation is a run of the concurrent machine. -/
theorem perform_reachable {debug : Bool} {setId : Nat} {s s' : EventInner W Unit} {op : Call W}
    {r : Option Bool} (h : (auto W Unit debug setId).Reachable (single s .idle))
    (hp : perform debug () s op = some (r, s')) :
    (auto W Unit debug setId).Reachable (single s' .idle) := by
  rw [perform, Option.bind_eq_some_iff] at hp
  obtain ⟨⟨s₁, pc₁⟩, hcall, hf⟩ := hp
  exact finish_reachable (h.step (next_single (a := .call op) hcall)) hf

end Auto

namespace LocalAuto

/-- The set of the event and its awaiters; nobody waits while the signal is
stored. -/
def store (c : LocalAuto W) : Store W :=
  match c.state with
  | .unset waiters => { set := waiters, mem := c.mem }
  | .set => { set := AwaiterSet.new c.nextSetId, mem := c.mem }

/-- An operation and what it reports; the task that it wakes is left out. -/
def perform (debug : Bool) (c : LocalAuto W) :
    Auto.Call W → Except Fault (Option Bool × LocalAuto W)
  | .set => (c.set debug).map fun r => (none, r.2)
  | .tryWait => .ok (some c.tryWait.1, c.tryWait.2)
  | .wait f => .ok (none, c.wait f)
  | .poll f w => (c.pollWait debug f w).map fun r => (some r.1, r.2)
  | .drop f => (c.dropWait debug f).map fun r => (none, r.2)

end LocalAuto

/-! ## Two sets with the same queue -/

/-- Two sets, each with its own awaiters, that are the same queue. -/
structure Twin (st₁ st₂ : Store W) (l : List Ptr) : Prop where
  left : Queue st₁ l
  right : Queue st₂ l
  phase : ∀ f, st₁.phase f = st₂.phase f

namespace Twin

variable {st₁ st₂ : Store W} {l : List Ptr}

/-- Frames around the same awaiter keep the phases equal. -/
theorem phase_of_frame {st₁' st₂' : Store W} (h : Twin st₁ st₂ l) {p : Ptr}
    (h₁ : Frame p st₁ st₁') (h₂ : Frame p st₂ st₂') (hp : st₁'.phase p = st₂'.phase p) (f : Ptr) :
    st₁'.phase f = st₂'.phase f := by
  by_cases hf : f = p
  · rw [hf, hp]
  · rw [h₁.phase f hf, h₂.phase f hf, h.phase f]

theorem take (h : Twin st₁ st₂ l) (f : Ptr) :
    Twin (st₁.takeNotification f).2 (st₂.takeNotification f).2 l := by
  refine ⟨h.left.takeNotification f, h.right.takeNotification f, fun g => ?_⟩
  rw [(takeNotification_snd st₁ f).2.2 g, (takeNotification_snd st₂ f).2.2 g, h.phase f, h.phase g]

theorem create (h : Twin st₁ st₂ l) {f : Ptr} (hf : st₁.phase f ≠ .waiting) :
    Twin (st₁.create f) (st₂.create f) l := by
  refine ⟨h.left.create hf, h.right.create (h.phase f ▸ hf), ?_⟩
  exact h.phase_of_frame (create_frame st₁ f) (create_frame st₂ f) (by simp)

/-- Both release builds notify the head. -/
theorem notifyOne (h : Twin st₁ st₂ l) (hl : l ≠ []) :
    ∃ w₁ st₁' w₂ st₂' l', st₁.notifyOne false = .ok (some w₁, st₁') ∧
      st₂.notifyOne false = .ok (some w₂, st₂') ∧ Twin st₁' st₂' l' := by
  obtain ⟨p, -, w₁, st₁', hst₁, -, hq₁, hf₁, hp₁, hhead₁⟩ := h.left.notifyOne_cons hl false
  obtain ⟨q, -, w₂, st₂', hst₂, -, hq₂, hf₂, hp₂, hhead₂⟩ := h.right.notifyOne_cons hl false
  obtain rfl : p = q := Option.some.inj ((hhead₁ rfl).symm.trans (hhead₂ rfl))
  exact ⟨w₁, st₁', w₂, st₂', _, hst₁, hst₂, hq₁, hq₂,
    h.phase_of_frame hf₁ hf₂ (hp₁.trans hp₂.symm)⟩

/-- A registration has the same effect on both queues. -/
theorem register (h : Twin st₁ st₂ l) {f : Ptr} (hf : st₁.phase f ≠ .notified) (w : W) :
    ∃ st₁' st₂' l', st₁.register false f w = .ok st₁' ∧ st₂.register false f w = .ok st₂' ∧
      Twin st₁' st₂' l' := by
  have hwait : ∀ {st : Store W} {l : List Ptr}, Queue st l → f ∈ l → st.phase f = .waiting :=
    fun hq hm => (hq.waiting f).mpr hm
  cases hph : st₁.phase f with
  | idle =>
    obtain ⟨st₁', hst₁, hq₁, hf₁, -⟩ := h.left.register_idle hph false w
    obtain ⟨st₂', hst₂, hq₂, hf₂, -⟩ := h.right.register_idle (h.phase f ▸ hph) false w
    have hm : f ∈ l ++ [f] := List.mem_append_right _ (List.mem_singleton_self f)
    exact ⟨st₁', st₂', _, hst₁, hst₂, hq₁, hq₂,
      h.phase_of_frame hf₁ hf₂ ((hwait hq₁ hm).trans (hwait hq₂ hm).symm)⟩
  | waiting =>
    obtain ⟨st₁', hst₁, hq₁, hf₁, -⟩ := h.left.register_waiting hph false w
    obtain ⟨st₂', hst₂, hq₂, hf₂, -⟩ := h.right.register_waiting (h.phase f ▸ hph) false w
    have hm : f ∈ l := (h.left.waiting f).mp hph
    exact ⟨st₁', st₂', _, hst₁, hst₂, hq₁, hq₂,
      h.phase_of_frame hf₁ hf₂ ((hwait hq₁ hm).trans (hwait hq₂ hm).symm)⟩
  | notified => exact absurd hph hf

/-- A waiting awaiter leaves both queues. -/
theorem unregister (h : Twin st₁ st₂ l) {f : Ptr} (hf : st₁.phase f = .waiting) :
    ∃ st₁' st₂' l', st₁.unregister false f = .ok st₁' ∧ st₂.unregister false f = .ok st₂' ∧
      Twin st₁' st₂' l' := by
  obtain ⟨st₁', hst₁, hq₁, hf₁, hp₁⟩ := h.left.unregister_waiting hf false
  obtain ⟨st₂', hst₂, hq₂, hf₂, hp₂⟩ := h.right.unregister_waiting (h.phase f ▸ hf) false
  exact ⟨st₁', st₂', _, hst₁, hst₂, hq₁, hq₂, h.phase_of_frame hf₁ hf₂ (hp₁.trans hp₂.symm)⟩

/-- An empty set can be replaced by a new one. -/
theorem fresh (h : Twin st₁ st₂ []) (id : Nat) :
    Twin st₁ { set := AwaiterSet.new id, mem := st₂.mem } [] := by
  refine ⟨h.left, ⟨Links.holds_nil rfl rfl, h.right.waiting, nofun, nofun⟩, h.phase⟩

end Twin

/-! ## One operation on both events -/

open Auto

/-- The two events are in corresponding states, with the queue `l`. -/
structure Sim (setId : Nat) (s : EventInner W Unit) (c : LocalAuto W) (l : List Ptr) : Prop where
  reach : (auto W Unit false setId).Reachable (single s .idle)
  slow : s.slow = none
  user : ∀ f, s.user f = none
  twin : Twin s.waiters c.store l
  signal : s.state.signal = true ↔ c.state = .set

namespace Sim

variable {setId : Nat} {s : EventInner W Unit} {c : LocalAuto W} {l : List Ptr}

theorem sound (h : Sim setId s c l) : Sound s := (reachable_local h.reach).1.1

theorem flags (h : Sim setId s c l) : Flags s := (reachable_local h.reach).1.2

theorem phase (h : Sim setId s c l) (f : Ptr) :
    s.waiters.phase f = (c.mem f).lifecycle := by
  rw [h.twin.phase f, Store.phase, LocalAuto.store]
  cases c.state with
  | set => rfl
  | unset ws => rfl

/-- Nobody waits while a signal is stored. -/
theorem nil_of_signal (h : Sim setId s c l) (hsig : s.state.signal = true) : l = [] :=
  h.twin.left.isEmpty_iff.mp (h.flags.signal hsig)

theorem state_ne_idle (h : Sim setId s c l) (hl : l ≠ [] ∨ s.state.signal = true) :
    s.state ≠ IDLE := by
  intro e
  rcases hl with hl | hsig
  · exact hl (h.twin.left.isEmpty_iff.mp (h.flags.waiters (by rw [e]; decide)))
  · rw [e] at hsig
    cases hsig

/-- Without a signal the local event has a set. -/
theorem unset (h : Sim setId s c l) (hsig : s.state.signal = false) :
    ∃ ws, c.state = .unset ws ∧ c.store = { set := ws, mem := c.mem } := by
  cases hc : c.state with
  | set => exact absurd (h.signal.mpr hc) (by rw [hsig]; decide)
  | unset ws => exact ⟨ws, rfl, by rw [LocalAuto.store, hc]⟩

end Sim

/-- The futures that exist after an operation. -/
def liveAfter (live : Ptr → Bool) : Call W → Ptr → Bool
  | .wait f => Function.update live f true
  | .drop f => Function.update live f false
  | _ => live

/-- The outcome of one operation on both events: the same report, in
corresponding states again. -/
def Agree (setId : Nat) (s : EventInner W Unit) (c : LocalAuto W) (op : Call W) : Prop :=
  ∃ r s' c' l', Auto.perform false () s op = some (r, s') ∧ c.perform false op = .ok (r, c') ∧
    Sim setId s' c' l' ∧ s'.live = liveAfter s.live op

section

variable {setId : Nat} {s : EventInner W Unit} {c : LocalAuto W} {l : List Ptr}

attribute [local simp] Auto.perform call finish step

/-- The related states that an operation ends in. -/
theorem Sim.agree (h : Sim setId s c l) {op : Call W} {r : Option Bool} (s' : EventInner W Unit)
    {c' : LocalAuto W} {l' : List Ptr} (hs : Auto.perform false () s op = some (r, s'))
    (hc : c.perform false op = .ok (r, c')) (hslow : s'.slow = none)
    (huser : ∀ f, s'.user f = none) (htwin : Twin s'.waiters c'.store l')
    (hsig : s'.state.signal = true ↔ c'.state = .set) (hlive : s'.live = liveAfter s.live op) :
    Agree setId s c op :=
  ⟨r, s', c', l', hs, hc, ⟨perform_reachable h.reach hs, hslow, huser, htwin, hsig⟩, hlive⟩

theorem agree_set (h : Sim setId s c l) : Agree setId s c .set := by
  cases hsig : s.state.signal with
  | true =>
    have hidle := h.state_ne_idle (Or.inr hsig)
    have hlocal : c.perform false .set = .ok (none, c) := by
      rw [LocalAuto.perform, LocalAuto.set, h.signal.mp hsig]
      rfl
    refine h.agree s ?_ hlocal h.slow h.user h.twin h.signal rfl
    simp [Auto.perform, call, finish, step, hidle, hsig, Pc.result]
  | false =>
    obtain ⟨ws, hc, hstore⟩ := h.unset hsig
    by_cases hl : l = []
    · -- nobody to notify: both store the signal
      subst hl
      have hn := h.twin.left.notifyOne_nil false
      have hn' := h.twin.right.notifyOne_nil false
      rw [hstore] at hn'
      have hlocal : c.perform false .set = .ok (none, { c with state := .set }) := by
        simp only [LocalAuto.perform, LocalAuto.set, hc, LocalAuto.notifyOrStore, hn']
        rfl
      have htwin : Twin s.waiters ({ c with state := .set } : LocalAuto W).store [] := by
        have hf := h.twin.fresh c.nextSetId
        rw [hstore] at hf
        exact hf
      refine h.agree { s with state := SIGNALED } ?_ hlocal h.slow h.user htwin (by simp)
        rfl
      by_cases hidle : s.state = IDLE
      · simp [Auto.perform, call, finish, step, hidle, Pc.result]
      · simp [Auto.perform, call, finish, step, hidle, hsig, Pc.result, EventInner.lock,
          EventInner.unlock, h.slow, hn]
    · obtain ⟨w₁, st₁, w₂, st₂, l', h₁, h₂, htwin⟩ := h.twin.notifyOne hl
      have hidle := h.state_ne_idle (Or.inl hl)
      rw [hstore] at h₂
      have hlocal : c.perform false .set = .ok (none, c.putStore st₂) := by
        simp only [LocalAuto.perform, LocalAuto.set, hc, LocalAuto.notifyOrStore, h₂]
        rfl
      refine h.agree { s with
          state := if st₁.set.isEmpty then s.state &&& ~~~HAS_WAITERS else s.state
          waiters := st₁ } ?_ hlocal h.slow h.user htwin ?_ rfl
      · by_cases he : st₁.set.isEmpty = true
        all_goals simp [Auto.perform, call, finish, step, hidle, hsig, Pc.result, EventInner.lock,
          EventInner.unlock, h.slow, h₁, he]
      · simp only [LocalAuto.putStore, reduceCtorEq, iff_false]
        split
        all_goals simp [hsig]

/-- A signal that is consumed leaves both events without one. -/
theorem Sim.consume (h : Sim setId s c l) (hsig : s.state.signal = true) :
    Twin s.waiters c.consume.store [] := by
  have ht := h.twin
  rw [h.nil_of_signal hsig, LocalAuto.store, h.signal.mp hsig] at ht
  exact ht

theorem agree_tryWait (h : Sim setId s c l) : Agree setId s c .tryWait := by
  have hsync : Auto.perform false () s .tryWait =
      some (some s.state.signal, { s with state := s.state &&& ~~~SIGNALED }) := by
    simp [Auto.perform, call, finish, step, Auto.tryWait, Pc.result]
  cases hsig : s.state.signal with
  | true =>
    rw [hsig] at hsync
    have hc : c.perform false .tryWait = .ok (some true, c.consume) := by
      rw [LocalAuto.perform, LocalAuto.tryWait, h.signal.mp hsig]
    exact h.agree _ hsync hc h.slow h.user (h.consume hsig) (by simp [LocalAuto.consume])
      rfl
  | false =>
    rw [hsig] at hsync
    obtain ⟨ws, hws, -⟩ := h.unset hsig
    have hc : c.perform false .tryWait = .ok (some false, c) := by
      rw [LocalAuto.perform, LocalAuto.tryWait, hws]
    exact h.agree _ hsync hc h.slow h.user h.twin (by simp [hws]) rfl

theorem agree_wait (h : Sim setId s c l) {f : Ptr} (hf : s.live f = false) :
    Agree setId s c (.wait f) := by
  have hne : s.waiters.phase f ≠ .waiting := by
    intro hw
    rw [h.sound.live f hw] at hf
    cases hf
  have hstore : (c.wait f).store = c.store.create f := by
    cases hc : c.state with
    | set => simp [LocalAuto.store, LocalAuto.wait, Store.create, hc]
    | unset ws => simp [LocalAuto.store, LocalAuto.wait, Store.create, hc]
  have hlocal : c.perform false (.wait f) = .ok (none, c.wait f) := rfl
  refine h.agree { s with
      waiters := s.waiters.create f, live := Function.update s.live f true }
    ?_ hlocal h.slow h.user (hstore ▸ h.twin.create hne) h.signal rfl
  simp [Auto.perform, call, EventInner.wait, hf, finish]

/-- A future that is used during an operation is free again after it. -/
theorem Sim.user_update (h : Sim setId s c l) (f g : Ptr) :
    Function.update (Function.update s.user f (some ())) f none g = none := by
  rw [Function.update_idem, Function.update_apply, h.user g, ite_self]

/-- A poll that takes a notification. -/
theorem agree_poll_notified (h : Sim setId s c l) {f : Ptr} (hf : s.live f = true)
    (hph : s.waiters.phase f = .notified) (hsig : s.state.signal = false) (w : W) :
    Agree setId s c (.poll f w) := by
  obtain ⟨ws, hc, hstore⟩ := h.unset hsig
  have htake : (s.waiters.takeNotification f).1 = true := takeNotification_fst.mpr hph
  have htake' : (c.store.takeNotification f).1 = true :=
    takeNotification_fst.mpr ((h.twin.phase f).symm.trans hph)
  have htwin := h.twin.take f
  rw [hstore] at htake' htwin
  have hlocal : c.perform false (.poll f w) =
      .ok (some true, { c with mem := (c.mem.takeNotification f).2 }) := by
    simp only [LocalAuto.perform, LocalAuto.pollWait]
    rw [show (c.mem.takeNotification f).1 = true from htake']
    rfl
  have htaken : Twin (s.waiters.takeNotification f).2
      ({ c with mem := (c.mem.takeNotification f).2 } : LocalAuto W).store l := by
    simp only [LocalAuto.store, hc]
    exact htwin
  refine h.agree { s with
      state := s.state &&& ~~~SIGNALED
      waiters := (s.waiters.takeNotification f).2
      user := Function.update (Function.update s.user f (some ())) f none }
    ?_ hlocal h.slow (h.user_update f) htaken (by simp [hc]) rfl
  simp [Auto.perform, call, finish, step, Auto.tryWait, EventInner.enter, EventInner.leave,
    Pc.result, hf, h.user f, hsig, htake]

/-- A poll without a notification. -/
theorem agree_poll_unnotified (h : Sim setId s c l) {f : Ptr} (hf : s.live f = true)
    (hph : s.waiters.phase f ≠ .notified) (w : W) : Agree setId s c (.poll f w) := by
  have htake : s.waiters.takeNotification f = (false, s.waiters) := by
    rw [Store.takeNotification, takeNotification_ne hph]
  have htake' : c.mem.takeNotification f = (false, c.mem) := by
    refine takeNotification_ne fun hn => hph ?_
    exact (h.phase f).trans hn
  cases hsig : s.state.signal with
  | true =>
    -- the signal is consumed
    have hlocal : c.perform false (.poll f w) = .ok (some true, c.consume) := by
      simp only [LocalAuto.perform, LocalAuto.pollWait, htake', h.signal.mp hsig, debugAssert]
      rfl
    refine h.agree { s with
        state := s.state &&& ~~~SIGNALED
        user := Function.update (Function.update s.user f (some ())) f none }
      ?_ hlocal h.slow (h.user_update f) (h.consume hsig) (by simp [LocalAuto.consume])
      rfl
    simp [Auto.perform, call, finish, step, Auto.tryWait, EventInner.enter, EventInner.leave,
      Pc.result, hf, h.user f, hsig]
  | false =>
    obtain ⟨ws, hc, hstore⟩ := h.unset hsig
    obtain ⟨st₁, st₂, l', h₁, h₂, htwin⟩ := h.twin.register hph w
    rw [hstore] at h₂
    have hlocal : c.perform false (.poll f w) = .ok (some false, c.putStore st₂) := by
      simp only [LocalAuto.perform, LocalAuto.pollWait, htake', hc, h₂]
      rfl
    refine h.agree { s with
        state := ((s.state &&& ~~~SIGNALED &&& ~~~SIGNALED) ||| HAS_WAITERS) &&& ~~~SIGNALED
        waiters := st₁
        user := Function.update (Function.update s.user f (some ())) f none }
      ?_ hlocal h.slow (h.user_update f) htwin (by simp [LocalAuto.putStore]) rfl
    simp [Auto.perform, call, finish, step, Auto.tryWait, EventInner.enter, EventInner.leave,
      EventInner.lock, EventInner.unlock, Pc.result, hf, h.user f, h.slow, hsig, htake, h₁]

/-- The drop of a future that is not registered. -/
theorem agree_drop_idle (h : Sim setId s c l) {f : Ptr} (hf : s.live f = true)
    (hph : s.waiters.phase f = .idle) : Agree setId s c (.drop f) := by
  have hreg : (s.waiters.mem f).isRegistered = false := by
    rw [Bool.eq_false_iff, Ne, isRegistered_iff, hph]
    decide
  have hreg' : (c.mem f).isRegistered = false := by
    rw [Awaiter.isRegistered, ← h.phase f, hph]
    rfl
  have hlocal : c.perform false (.drop f) = .ok (none, c) := by
    simp only [LocalAuto.perform, LocalAuto.dropWait, hreg']
    rfl
  refine h.agree { s with
      user := Function.update (Function.update s.user f (some ())) f none
      live := Function.update s.live f false }
    ?_ hlocal h.slow (h.user_update f) h.twin h.signal rfl
  simp [Auto.perform, call, finish, step, EventInner.enter, EventInner.free, Pc.result, hf,
    h.user f, hreg]

/-- The drop of a future that waits. -/
theorem agree_drop_waiting (h : Sim setId s c l) {f : Ptr} (hf : s.live f = true)
    (hph : s.waiters.phase f = .waiting) : Agree setId s c (.drop f) := by
  have hreg : (s.waiters.mem f).isRegistered = true := by
    rw [isRegistered_iff, hph]
    decide
  have hnot : (s.waiters.mem f).isNotified = false := by
    rw [Bool.eq_false_iff, Ne, isNotified_iff, hph]
    decide
  have hlife : (c.mem f).lifecycle = .waiting := (h.phase f).symm.trans hph
  have hsig : s.state.signal = false := by
    rw [Bool.eq_false_iff]
    intro hsig
    have hm := (h.twin.left.waiting f).mp hph
    rw [h.nil_of_signal hsig] at hm
    exact List.not_mem_nil hm
  obtain ⟨ws, hc, hstore⟩ := h.unset hsig
  obtain ⟨st₁, st₂, l', h₁, h₂, htwin⟩ := h.twin.unregister hph
  rw [hstore] at h₂
  have hlocal : c.perform false (.drop f) = .ok (none, c.putStore st₂) := by
    simp only [LocalAuto.perform, LocalAuto.dropWait, Awaiter.isRegistered, Awaiter.isNotified,
      hlife, hc, h₂]
    rfl
  refine h.agree { s with
      state := if st₁.set.isEmpty then s.state &&& ~~~HAS_WAITERS else s.state
      waiters := st₁
      user := Function.update (Function.update s.user f (some ())) f none
      live := Function.update s.live f false }
    ?_ hlocal h.slow (h.user_update f) htwin ?_ rfl
  · by_cases he : st₁.set.isEmpty = true
    all_goals simp [Auto.perform, call, finish, step, EventInner.enter, EventInner.free,
      EventInner.lock, EventInner.unlock, Pc.result, hf, h.user f, h.slow, hreg, hnot, h₁, he]
  · simp only [LocalAuto.putStore, reduceCtorEq, iff_false]
    split
    all_goals simp [hsig]

/-- The drop of a future whose notification is handed on. -/
theorem agree_drop_notified (h : Sim setId s c l) {f : Ptr} (hf : s.live f = true)
    (hph : s.waiters.phase f = .notified) : Agree setId s c (.drop f) := by
  have hreg : (s.waiters.mem f).isRegistered = true := by
    rw [isRegistered_iff, hph]
    decide
  have hnot : (s.waiters.mem f).isNotified = true := isNotified_iff.mpr hph
  have hlife : (c.mem f).lifecycle = .notified := (h.phase f).symm.trans hph
  -- nobody to hand it to: the signal is stored again
  have hstored : ∀ c' : LocalAuto W, l = [] → c.perform false (.drop f) = .ok (none, c') →
      Twin s.waiters c'.store [] → c'.state = .set → Agree setId s c (.drop f) := by
    rintro c' rfl hlocal htwin hset
    refine h.agree { s with
        state := SIGNALED
        user := Function.update (Function.update s.user f (some ())) f none
        live := Function.update s.live f false }
      ?_ hlocal h.slow (h.user_update f) htwin (by simp [hset]) rfl
    simp [Auto.perform, call, finish, step, EventInner.enter, EventInner.free, EventInner.lock,
      EventInner.unlock, Pc.result, hf, h.user f, h.slow, hreg, hnot,
      h.twin.left.notifyOne_nil false]
  cases hsig : s.state.signal with
  | true =>
    have hl := h.nil_of_signal hsig
    refine hstored c hl ?_ (hl ▸ h.twin) (h.signal.mp hsig)
    simp only [LocalAuto.perform, LocalAuto.dropWait, Awaiter.isRegistered, Awaiter.isNotified,
      hlife, h.signal.mp hsig]
    rfl
  | false =>
    obtain ⟨ws, hc, hstore⟩ := h.unset hsig
    by_cases hl : l = []
    · have ht := h.twin
      rw [hl] at ht
      have hn := ht.right.notifyOne_nil false
      have hfresh := ht.fresh c.nextSetId
      rw [hstore] at hn hfresh
      refine hstored { c with state := .set } hl ?_ hfresh rfl
      simp only [LocalAuto.perform, LocalAuto.dropWait, Awaiter.isRegistered, Awaiter.isNotified,
        hlife, hc, LocalAuto.notifyOrStore, hn]
      rfl
    · obtain ⟨w₁, st₁, w₂, st₂, l', h₁, h₂, htwin⟩ := h.twin.notifyOne hl
      rw [hstore] at h₂
      have hlocal : c.perform false (.drop f) = .ok (none, c.putStore st₂) := by
        simp only [LocalAuto.perform, LocalAuto.dropWait, Awaiter.isRegistered,
          Awaiter.isNotified, hlife, hc, LocalAuto.notifyOrStore, h₂]
        rfl
      refine h.agree { s with
          state := if st₁.set.isEmpty then s.state &&& ~~~HAS_WAITERS else s.state
          waiters := st₁
          user := Function.update (Function.update s.user f (some ())) f none
          live := Function.update s.live f false }
        ?_ hlocal h.slow (h.user_update f) htwin ?_ rfl
      · by_cases he : st₁.set.isEmpty = true
        all_goals simp [Auto.perform, call, finish, step, EventInner.enter, EventInner.free,
          EventInner.lock, EventInner.unlock, Pc.result, hf, h.user f, h.slow, hreg, hnot, h₁, he]
      · simp only [LocalAuto.putStore, reduceCtorEq, iff_false]
        split
        all_goals simp [hsig]

/-- Every operation, except a poll that finds both a notification and a
signal. -/
theorem agree (h : Sim setId s c l) {op : Call W}
    (hlive : ∀ f, (op = .wait f → s.live f = false) ∧
      ((∃ w, op = .poll f w) ∨ op = .drop f → s.live f = true))
    (hone : ∀ f w, op = .poll f w →
      ¬ (s.waiters.phase f = .notified ∧ s.state.signal = true)) : Agree setId s c op := by
  cases op with
  | set => exact agree_set h
  | tryWait => exact agree_tryWait h
  | wait f => exact agree_wait h ((hlive f).1 rfl)
  | poll f w =>
    have hf := (hlive f).2 (Or.inl ⟨w, rfl⟩)
    by_cases hph : s.waiters.phase f = .notified
    · refine agree_poll_notified h hf hph ?_ w
      exact Bool.eq_false_iff.mpr fun hsig => hone f w rfl ⟨hph, hsig⟩
    · exact agree_poll_unnotified h hf hph w
  | drop f =>
    have hf := (hlive f).2 (Or.inr rfl)
    cases hph : s.waiters.phase f with
    | idle => exact agree_drop_idle h hf hph
    | waiting => exact agree_drop_waiting h hf hph
    | notified => exact agree_drop_notified h hf hph

end

/-! ## Whole runs -/

/-- What has become of a wait future. -/
inductive Status
  | absent
  | pending
  | completed
  deriving DecidableEq

/-- The two events, used in the same way. -/
structure Pair (W : Type) where
  sync : EventInner W Unit
  loc : LocalAuto W
  status : Ptr → Status

namespace Pair

/-- Futures are created where there is none, polled until they are completed
and dropped at any time. -/
def Allowed (p : Pair W) : Call W → Prop
  | .wait f => p.status f = .absent
  | .poll f _ => p.status f = .pending
  | .drop f => p.status f ≠ .absent
  | _ => True

instance (p : Pair W) (op : Call W) : Decidable (p.Allowed op) := by
  cases op <;> unfold Allowed <;> infer_instance

/-- The futures after an operation that reported `r`. -/
def statusAfter (status : Ptr → Status) (r : Option Bool) : Call W → Ptr → Status
  | .wait f => Function.update status f .pending
  | .poll f _ => if r = some true then Function.update status f .completed else status
  | .drop f => Function.update status f .absent
  | _ => status

/-- The operation is not a poll of a future that has been notified while a
signal is stored. -/
def OneToken (p : Pair W) : Call W → Prop
  | .poll f _ => ¬ (p.sync.waiters.phase f = .notified ∧ p.sync.state.signal = true)
  | _ => True

instance (p : Pair W) (op : Call W) : Decidable (p.OneToken op) := by
  cases op <;> unfold OneToken <;> infer_instance

end Pair

/-- Both events, in the release build, performing the same operations. -/
def pairs (W : Type) (setId localSetId : Nat) : Machine (Pair W) (Call W) where
  init :=
    { sync := EventInner.boxed W Unit setId
      loc := LocalAuto.boxed W localSetId
      status := fun _ => .absent }
  next p op :=
    if p.Allowed op then
      match Auto.perform false () p.sync op, p.loc.perform false op with
      | some (r, s), .ok (_, c) =>
        some { sync := s, loc := c, status := Pair.statusAfter p.status r op }
      | _, _ => none
    else none

/-- The invariant of the runs. -/
structure PairInv (setId : Nat) (p : Pair W) : Prop where
  sim : ∃ l, Sim setId p.sync p.loc l
  live : ∀ f, p.sync.live f = true ↔ p.status f ≠ .absent

theorem pairInv_agree {setId : Nat} {p : Pair W} (h : PairInv setId p) {op : Call W}
    (hop : p.Allowed op) (hone : p.OneToken op) : Agree setId p.sync p.loc op := by
  obtain ⟨l, hsim⟩ := h.sim
  refine agree hsim (fun f => ⟨?_, ?_⟩) ?_
  · rintro rfl
    exact Bool.eq_false_iff.mpr fun hf => (h.live f).mp hf hop
  · rintro (⟨w, rfl⟩ | rfl)
    · exact (h.live f).mpr (by rw [show p.status f = .pending from hop]; decide)
    · exact (h.live f).mpr hop
  · rintro f w rfl
    exact hone

theorem pairInv_step {setId localSetId : Nat} {p p' : Pair W} {op : Call W}
    (h : PairInv setId p) (hone : p.OneToken op)
    (hnext : (pairs W setId localSetId).next p op = some p') : PairInv setId p' := by
  simp only [pairs] at hnext
  split at hnext
  next hop =>
    obtain ⟨r, s', c', l', hs, hc, hsim, hlive⟩ := pairInv_agree h hop hone
    rw [hs, hc] at hnext
    obtain rfl := Option.some.inj hnext
    refine ⟨⟨l', hsim⟩, fun f => ?_⟩
    simp only [hlive]
    cases op with
    | set => exact h.live f
    | tryWait => exact h.live f
    | wait g | drop g =>
      by_cases hfg : f = g
      · simp [liveAfter, Pair.statusAfter, hfg]
      · simpa [liveAfter, Pair.statusAfter, Function.update_of_ne hfg] using h.live f
    | poll g w =>
      simp only [liveAfter, Pair.statusAfter]
      split
      · by_cases hfg : f = g
        · subst hfg
          have hpend : p.status f = .pending := hop
          simpa [hpend] using h.live f
        · simpa [Function.update_of_ne hfg] using h.live f
      · exact h.live f
  next => cases hnext

theorem pairInv_init (setId localSetId : Nat) : PairInv setId (pairs W setId localSetId).init := by
  refine ⟨⟨[], Machine.Reachable.init _, rfl, fun _ => rfl, ?_, ?_⟩, fun f => ?_⟩
  · exact ⟨queue_new setId, queue_new localSetId, fun _ => rfl⟩
  · exact ⟨fun hsig => absurd (show StateWord.signal IDLE = true from hsig) (by decide), nofun⟩
  · exact ⟨nofun, fun hn => absurd rfl hn⟩

/-- **The two auto-reset events agree**, in every run in which no future is
polled that has been notified while a signal is stored: both complete every
operation and report the same. -/
theorem auto_events_agree {W : Type} {setId localSetId : Nat} {p : Pair W}
    (h : (pairs W setId localSetId).Reach Pair.OneToken p) {op : Call W} (hop : p.Allowed op)
    (hone : p.OneToken op) :
    ∃ r s' c', Auto.perform false () p.sync op = some (r, s') ∧
      p.loc.perform false op = .ok (r, c') := by
  have hinv : PairInv setId p := by
    refine h.invariant (pairInv_init setId localSetId) ?_
    intro q o q' _ hq ho hnext
    exact pairInv_step hq ho hnext
  obtain ⟨r, s', c', -, hs, hc, -⟩ := pairInv_agree hinv hop hone
  exact ⟨r, s', c', hs, hc⟩

/-- A future waits, is notified, a second signal is stored and taken by
`try_wait`; then the future is polled. -/
theorem auto_events_agree_poll :
    ∃ p, (pairs Nat 1 2).Reach Pair.OneToken p ∧ ∃ r s' c',
      Auto.perform false () p.sync (.poll 8 1) = some (r, s') ∧
        p.loc.perform false (.poll 8 1) = .ok (r, c') := by
  obtain ⟨p, hrun, hop, hone⟩ : ∃ p, ((pairs Nat 1 2).restrict Pair.OneToken).run
      [.wait 8, .poll 8 0, .set, .set, .tryWait] = some p ∧
      p.Allowed (.poll 8 1) ∧ p.OneToken (.poll 8 1) := ⟨_, rfl, by decide, by decide⟩
  have hreach := Machine.reach_of_run_restrict hrun
  exact ⟨p, hreach, auto_events_agree hreach hop hone⟩

/-- **The two auto-reset events differ.** A future waits; the first `set`
notifies it and the second stores a signal; then it is polled and is ready.
`AutoResetEvent` has consumed the signal, so `try_wait` is false;
`LocalAutoResetEvent` has consumed the notification, so `try_wait` is true. -/
theorem auto_events_differ :
    ¬ ∀ p, (pairs Nat 1 2).Reachable p → ∀ op, p.Allowed op →
      ∃ r s' c', Auto.perform false () p.sync op = some (r, s') ∧
        p.loc.perform false op = .ok (r, c') := by
  intro hall
  obtain ⟨p, hrun, hs, hc⟩ : ∃ p, (pairs Nat 1 2).run
      [.wait 8, .poll 8 0, .set, .set, .poll 8 1] = some p ∧
      (Auto.perform false () p.sync .tryWait).map Prod.fst = some (some false) ∧
      (p.loc.perform false .tryWait).toOption.map Prod.fst = some (some true) :=
    ⟨_, rfl, rfl, rfl⟩
  obtain ⟨r, s', c', hr, hr'⟩ := hall p (Machine.reachable_of_run hrun) .tryWait trivial
  rw [hr] at hs
  rw [hr'] at hc
  have hf : r = some false := by simpa using hs
  have ht : r = some true := by simpa [Except.toOption] using hc
  rw [hf] at ht
  cases ht

end Folo.Events
