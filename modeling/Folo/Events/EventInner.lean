import Folo.Awaiters.Runs

/-!
# What the two thread-safe events share

`manual.rs` and `auto.rs` have the same `EventInner`: an atomic state word
and a mutex around an `AwaiterSet`, whose awaiters live in the wait futures.
Their operations differ, but not in what a single step of a thread may do:

* change the state word, either under the mutex or in one of the ways that
  the event allows without it (the relation `R` below);
* lock or unlock the mutex;
* call an operation of the set on the future it is polling or dropping, and
  under the mutex, except for `take_notification`;
* create a future, start to poll or drop one, or finish doing so.

`Atomic R debug t s op s'` is this list. An event proves once, by a case split
over its program counters, that each of its steps is on it
(`Manual.act_atomic`, `Auto.act_atomic`). What a step of another thread
leaves alone is then proved here, from the list, and not per step of the
program.
-/

namespace Folo.Events

/-! ## The state word

`ManualResetEvent` and `AutoResetEvent` both pack two independent flags into
one `AtomicU8`. The lowest bit is the signal (`IS_SET` in `manual.rs`,
`SIGNALED` in `auto.rs`), the next one is `HAS_WAITERS`. The lemmas below say
how the atomic read-modify-write operations of the two files act on the two
flags; everything else about the events goes through them.
-/

abbrev StateWord := BitVec 8

def IDLE : StateWord := 0
def IS_SET : StateWord := 0x1
def SIGNALED : StateWord := 0x1
def HAS_WAITERS : StateWord := 0x2

namespace StateWord

/-- The signal bit, `state & IS_SET != 0` or `state & SIGNALED != 0`. -/
def signal (w : StateWord) : Bool := w &&& IS_SET != 0

/-- The waiters bit, `state & HAS_WAITERS != 0`. -/
def waiters (w : StateWord) : Bool := w &&& HAS_WAITERS != 0

@[simp] theorem signal_idle : signal IDLE = false := by decide
@[simp] theorem waiters_idle : waiters IDLE = false := by decide
@[simp] theorem signal_signaled : signal SIGNALED = true := by decide
@[simp] theorem waiters_signaled : waiters SIGNALED = false := by decide

@[simp] theorem signal_or_isSet (w : StateWord) : signal (w ||| IS_SET) = true := by
  revert w; decide

@[simp] theorem waiters_or_isSet (w : StateWord) : waiters (w ||| IS_SET) = waiters w := by
  revert w; decide

@[simp] theorem signal_or_hasWaiters (w : StateWord) :
    signal (w ||| HAS_WAITERS) = signal w := by
  revert w; decide

@[simp] theorem waiters_or_hasWaiters (w : StateWord) : waiters (w ||| HAS_WAITERS) = true := by
  revert w; decide

@[simp] theorem signal_clear_isSet (w : StateWord) : signal (w &&& ~~~IS_SET) = false := by
  revert w; decide

@[simp] theorem waiters_clear_isSet (w : StateWord) :
    waiters (w &&& ~~~IS_SET) = waiters w := by
  revert w; decide

@[simp] theorem signal_clear_signaled (w : StateWord) : signal (w &&& ~~~SIGNALED) = false :=
  signal_clear_isSet w

@[simp] theorem waiters_clear_signaled (w : StateWord) :
    waiters (w &&& ~~~SIGNALED) = waiters w :=
  waiters_clear_isSet w

@[simp] theorem signal_clear_hasWaiters (w : StateWord) :
    signal (w &&& ~~~HAS_WAITERS) = signal w := by
  revert w; decide

@[simp] theorem waiters_clear_hasWaiters (w : StateWord) :
    waiters (w &&& ~~~HAS_WAITERS) = false := by
  revert w; decide

end StateWord

open Folo.Awaiters

variable {W T : Type}

/-- `EventInner`, the futures waiting on it and who is using them. -/
structure EventInner (W T : Type) where
  state : StateWord
  /-- The thread that holds the mutex `slow`. -/
  slow : Option T
  /-- The set inside `slow`, and the awaiters in the futures. -/
  waiters : Store W
  /-- The wait futures that exist. -/
  live : Ptr → Bool
  /-- The thread that is polling or dropping a future: `Future::poll` and
  `Drop::drop` have exclusive access to it. -/
  user : Ptr → Option T

namespace EventInner

/-- `boxed()`: a new event, with no futures yet. -/
def boxed (W T : Type) (setId : Nat) : EventInner W T where
  state := IDLE
  slow := none
  waiters := Store.new setId
  live := fun _ => false
  user := fun _ => none

/-- `wait()` places a new future at address `f`. -/
def wait (s : EventInner W T) (f : Ptr) : Option (EventInner W T) :=
  if s.live f then none
  else some { s with waiters := s.waiters.create f, live := Function.update s.live f true }

/-- A thread starts to poll or drop a future that nobody else is using. -/
def enter (s : EventInner W T) (t : T) (f : Ptr) : Option (EventInner W T) :=
  if s.live f ∧ s.user f = none then some { s with user := Function.update s.user f (some t) }
  else none

/-- A poll returns. -/
def leave (s : EventInner W T) (f : Ptr) : EventInner W T :=
  { s with user := Function.update s.user f none }

/-- A drop returns: the future is gone. -/
def free (s : EventInner W T) (f : Ptr) : EventInner W T :=
  { s with user := Function.update s.user f none, live := Function.update s.live f false }

/-- `slow.lock()` blocks while another thread holds the mutex. -/
def lock (s : EventInner W T) (t : T) : Option (EventInner W T) :=
  if s.slow = none then some { s with slow := some t } else none

/-- The guard is dropped. -/
def unlock (s : EventInner W T) : EventInner W T := { s with slow := none }

variable {P : Type} {s s' : EventInner W T} {t : T} {f : Ptr} {pc pc' : P}

theorem wait_map (h : (s.wait f).map (fun s => (s, pc)) = some (s', pc')) :
    s.live f = false ∧ pc' = pc ∧
      s' = { s with waiters := s.waiters.create f, live := Function.update s.live f true } := by
  rw [wait] at h
  split at h
  next => cases h
  next hf =>
    cases h
    exact ⟨Bool.eq_false_iff.mpr hf, rfl, rfl⟩

theorem enter_map (h : (s.enter t f).map (fun s => (s, pc)) = some (s', pc')) :
    s.live f = true ∧ s.user f = none ∧ pc' = pc ∧
      s' = { s with user := Function.update s.user f (some t) } := by
  rw [enter] at h
  split at h
  next hf =>
    cases h
    exact ⟨hf.1, hf.2, rfl, rfl⟩
  next => cases h

theorem lock_map (h : (s.lock t).map (fun s => (s, pc)) = some (s', pc')) :
    s.slow = none ∧ pc' = pc ∧ s' = { s with slow := some t } := by
  rw [lock] at h
  split at h
  next hf =>
    cases h
    exact ⟨hf, rfl, rfl⟩
  next => cases h

end EventInner

/-- The calls a thread may make on the set: on the future it is using, and
under the mutex unless the call is `take_notification`. -/
def Permitted (t : T) (s : EventInner W T) : Op W → Prop
  | .create _ => False
  | .takeNotification f => s.user f = some t
  | .register f _ | .unregister f => s.slow = some t ∧ s.user f = some t
  | .notifyOne | .notifyOnePriorGeneration | .advanceGeneration => s.slow = some t

/-- What one step of thread `t` may do to the shared state, and the call of
the set that it makes. -/
inductive Atomic (R : StateWord → StateWord → Prop) (debug : Bool) (t : T)
    (s : EventInner W T) : Option (Op W) → EventInner W T → Prop
  | word {w : StateWord} (h : R s.state w ∨ s.slow = some t) :
      Atomic R debug t s none { s with state := w }
  | lock (h : s.slow = none) : Atomic R debug t s none { s with slow := some t }
  | unlock (h : s.slow = some t) : Atomic R debug t s none s.unlock
  | store (op : Op W) {st' : Store W} (hop : op.Allowed s.waiters)
      (happ : op.apply debug s.waiters = .ok st') (hby : Permitted t s op) :
      Atomic R debug t s (some op) { s with waiters := st' }
  | wait {f : Ptr} (h : s.live f = false) :
      Atomic R debug t s none
        { s with waiters := s.waiters.create f, live := Function.update s.live f true }
  | enter {f : Ptr} (hlive : s.live f = true) (huser : s.user f = none) :
      Atomic R debug t s none { s with user := Function.update s.user f (some t) }
  | leave {f : Ptr} (huser : s.user f = some t) : Atomic R debug t s none (s.leave f)
  | free {f : Ptr} (huser : s.user f = some t) (hleft : s.waiters.phase f ≠ .waiting) :
      Atomic R debug t s none (s.free f)

/-- The part of the shared state that every step keeps consistent: the set is
a queue, and only existing futures wait in it or are being used. -/
structure Sound (s : EventInner W T) : Prop where
  queue : ∃ l, Queue s.waiters l
  live : ∀ f, s.waiters.phase f = .waiting → s.live f = true
  used : ∀ f t, s.user f = some t → s.live f = true

theorem sound_boxed (setId : Nat) : Sound (EventInner.boxed W T setId) := by
  refine ⟨⟨[], queue_new setId⟩, fun f hf => ?_, fun f t ht => ?_⟩
  · simp [EventInner.boxed, Store.phase, Store.new, Awaiter.new] at hf
  · simp [EventInner.boxed] at ht

/-- What a step of another thread leaves to thread `u`: its hold on the mutex
and, while it has it, the set and the state word up to the changes `R` that
need no mutex; its exclusive use of a future, whose awaiter can at most be
notified, and not while `u` itself has the mutex. -/
structure Undisturbed (R : StateWord → StateWord → Prop) (u : T) (s s' : EventInner W T) :
    Prop where
  slow : s.slow = some u → s'.slow = some u
  set : s.slow = some u → s'.waiters.set = s.waiters.set
  state : s.slow = some u → R s.state s'.state ∨ s'.state = s.state
  user : ∀ f, s.user f = some u → s'.user f = some u
  phase : ∀ f, s.user f = some u → s'.waiters.phase f = s.waiters.phase f ∨
    s.slow ≠ some u ∧ s.waiters.phase f = .waiting ∧ s'.waiters.phase f = .notified

namespace Atomic

variable {R : StateWord → StateWord → Prop} {debug : Bool} {t u : T} {s s' : EventInner W T}
  {o : Option (Op W)}

/-- The awaiter that a permitted call is made on belongs to a future that its
thread is using. -/
theorem user_subject {op : Op W} (h : Permitted t s op) {f : Ptr} (hf : op.subject = some f) :
    s.user f = some t := by
  cases op with
  | create p => exact h.elim
  | register p w => cases hf; exact h.2
  | unregister p => cases hf; exact h.2
  | takeNotification p => cases hf; exact h
  | notifyOne => cases hf
  | notifyOnePriorGeneration => cases hf
  | advanceGeneration => cases hf

/-- Without the mutex the set itself is not changed. -/
theorem set_unlocked {op : Op W} {st' : Store W} (h : Permitted t s op) (hslow : s.slow ≠ some t)
    (happ : op.apply debug s.waiters = .ok st') : st'.set = s.waiters.set := by
  cases op with
  | takeNotification p =>
    injection happ with happ
    rw [← happ]
    exact (takeNotification_snd s.waiters p).1
  | create p => exact h.elim
  | register p w => exact absurd h.1 hslow
  | unregister p => exact absurd h.1 hslow
  | notifyOne => exact absurd h hslow
  | notifyOnePriorGeneration => exact absurd h hslow
  | advanceGeneration => exact absurd h hslow

/-- A step keeps the shared state consistent. -/
theorem sound (h : Atomic R debug t s o s') (hs : Sound s) : Sound s' := by
  obtain ⟨⟨l, hq⟩, hlive, hused⟩ := hs
  cases h with
  | word => exact ⟨⟨l, hq⟩, hlive, hused⟩
  | lock => exact ⟨⟨l, hq⟩, hlive, hused⟩
  | unlock => exact ⟨⟨l, hq⟩, hlive, hused⟩
  | @store op st' hop happ hby =>
    obtain ⟨st₁, l', he⟩ := op.effect debug hq hop
    obtain rfl : st₁ = st' := Except.ok.inj (he.returns.symm.trans happ)
    refine ⟨⟨l', he.queue⟩, fun f hf => ?_, hused⟩
    by_cases hsub : op.subject = some f
    · exact hused f t (user_subject hby hsub)
    · rcases he.phase f hsub with hsame | ⟨-, -, hn⟩
      · exact hlive f (hsame.symm.trans hf)
      · have hw : st₁.phase f = .waiting := hf
        rw [hn] at hw
        cases hw
  | @wait f hf =>
    have hne : s.waiters.phase f ≠ .waiting := fun hw => by simp [hlive f hw] at hf
    refine ⟨⟨l, hq.create hne⟩, fun g hg => ?_, fun g v hv => ?_⟩
    · by_cases hgf : g = f
      · rw [hgf]
        exact Function.update_self ..
      · refine (Function.update_of_ne hgf ..).trans (hlive g ?_)
        exact ((create_frame s.waiters f).phase g hgf).symm.trans hg
    · by_cases hgf : g = f
      · rw [hgf]
        exact Function.update_self ..
      · exact (Function.update_of_ne hgf ..).trans (hused g v hv)
  | @enter f hf huser =>
    refine ⟨⟨l, hq⟩, hlive, fun g v hv => ?_⟩
    by_cases hgf : g = f
    · rw [hgf]
      exact hf
    · exact hused g v ((Function.update_of_ne hgf ..).symm.trans hv)
  | @leave f huser =>
    refine ⟨⟨l, hq⟩, hlive, fun g v hv => ?_⟩
    by_cases hgf : g = f
    · rw [hgf]
      exact hused f t huser
    · exact hused g v ((Function.update_of_ne hgf ..).symm.trans hv)
  | @free f huser hleft =>
    refine ⟨⟨l, hq⟩, fun g hg => ?_, fun g v hv => ?_⟩
    · have hgf : g ≠ f := fun e => hleft (e ▸ hg)
      exact (Function.update_of_ne hgf ..).trans (hlive g hg)
    · have hgf : g ≠ f := by
        rintro rfl
        have hnone : (s.free g).user g = none := Function.update_self ..
        rw [hnone] at hv
        cases hv
      refine (Function.update_of_ne hgf ..).trans (hused g v ?_)
      exact (Function.update_of_ne hgf ..).symm.trans hv

/-- A step of one thread leaves the others undisturbed. -/
theorem undisturbed (h : Atomic R debug t s o s') (hs : Sound s) (htu : u ≠ t) :
    Undisturbed R u s s' := by
  have hne : ∀ {v : Option T}, v = some t → v ≠ some u := by
    rintro v rfl e
    exact htu (Option.some.inj e).symm
  cases h with
  | @word w hw =>
    refine ⟨id, fun _ => rfl, fun hu => ?_, fun _ => id, fun _ _ => Or.inl rfl⟩
    exact hw.elim Or.inl fun ht => absurd hu (hne ht)
  | lock hfree =>
    refine ⟨fun hu => ?_, fun _ => rfl, fun _ => Or.inr rfl, fun _ => id, fun _ _ => Or.inl rfl⟩
    rw [hfree] at hu
    cases hu
  | unlock ht =>
    exact ⟨fun hu => absurd hu (hne ht), fun _ => rfl, fun _ => Or.inr rfl, fun _ => id,
      fun _ _ => Or.inl rfl⟩
  | @store op st' hop happ hby =>
    obtain ⟨l, hq⟩ := hs.queue
    obtain ⟨st₁, l', he⟩ := op.effect debug hq hop
    obtain rfl : st₁ = st' := Except.ok.inj (he.returns.symm.trans happ)
    refine ⟨id, fun hu => ?_, fun _ => Or.inr rfl, fun _ => id, fun f hf => ?_⟩
    · exact set_unlocked hby (fun ht => hne ht hu) happ
    · have hsub : op.subject ≠ some f := fun e => hne (user_subject hby e) hf
      refine (he.phase f hsub).imp_right fun hn => ⟨?_, hn.2⟩
      cases op with
      | notifyOne => exact hne hby
      | notifyOnePriorGeneration => exact hne hby
      | _ => exact absurd hn.1 Bool.false_ne_true
  | @wait f hf =>
    refine ⟨id, fun _ => rfl, fun _ => Or.inr rfl, fun _ => id, fun g hg => Or.inl ?_⟩
    have hgf : g ≠ f := by
      rintro rfl
      simp [hs.used g u hg] at hf
    exact (create_frame s.waiters f).phase g hgf
  | @enter f hf huser =>
    refine ⟨id, fun _ => rfl, fun _ => Or.inr rfl, fun g hg => ?_, fun _ _ => Or.inl rfl⟩
    have hgf : g ≠ f := by
      rintro rfl
      simp [huser] at hg
    exact (Function.update_of_ne hgf ..).trans hg
  | @leave f huser =>
    refine ⟨id, fun _ => rfl, fun _ => Or.inr rfl, fun g hg => ?_, fun _ _ => Or.inl rfl⟩
    have hgf : g ≠ f := fun e => hne huser (e ▸ hg)
    exact (Function.update_of_ne hgf ..).trans hg
  | @free f huser hleft =>
    refine ⟨id, fun _ => rfl, fun _ => Or.inr rfl, fun g hg => ?_, fun _ _ => Or.inl rfl⟩
    have hgf : g ≠ f := fun e => hne huser (e ▸ hg)
    exact (Function.update_of_ne hgf ..).trans hg

/-- A call of the set other than a registration leaves an empty set empty. -/
theorem isEmpty_store (op : Op W) {st' : Store W} (hs : Sound s) (hop : op.Allowed s.waiters)
    (happ : op.apply debug s.waiters = .ok st') (hreg : ∀ p w, op ≠ .register p w)
    (he : s.waiters.set.isEmpty = true) : st'.set.isEmpty = true := by
  obtain ⟨l, hq⟩ := hs.queue
  obtain ⟨st₁, l', heff⟩ := op.effect debug hq hop
  obtain rfl : st₁ = st' := Except.ok.inj (heff.returns.symm.trans happ)
  exact heff.isEmpty hq hreg he

/-- `notify_one` leaves an awaiter that is already notified as it is. -/
theorem notifyOne_notified {st' : Store W} (hs : Sound s)
    (happ : Op.notifyOne.apply debug s.waiters = .ok st') {f : Ptr}
    (hf : s.waiters.phase f = .notified) : st'.phase f = .notified := by
  obtain ⟨l, hq⟩ := hs.queue
  obtain ⟨st₁, l', heff⟩ := Op.notifyOne.effect debug hq trivial
  obtain rfl : st₁ = st' := Except.ok.inj (heff.returns.symm.trans happ)
  rcases heff.phase f nofun with hsame | ⟨-, -, hn⟩
  · exact hsame.trans hf
  · exact hn

/-- What a step does to the single awaiters. -/
theorem moves (h : Atomic R debug t s o s') (hs : Sound s) : Moves o s.waiters s'.waiters := by
  obtain ⟨l, hq⟩ := hs.queue
  cases h with
  | word | lock | unlock | enter | leave | free => exact .refl s.waiters
  | @store op st' hop happ hby =>
    obtain ⟨st₁, l', he⟩ := op.effect debug hq hop
    obtain rfl : st₁ = st' := Except.ok.inj (he.returns.symm.trans happ)
    exact he.moves hq
  | @wait f hf =>
    have hop : (Op.create f : Op W).Allowed s.waiters := fun hw => by simp [hs.live f hw] at hf
    obtain ⟨st₁, l', he⟩ := Op.effect debug hq hop
    obtain rfl : s.waiters.create f = st₁ := Except.ok.inj he.returns
    -- a creation neither registers nor notifies
    have hm := he.moves hq
    refine ⟨hm.stamp, fun g hn hw => ?_, fun g hn hw => ?_, fun _ => rfl⟩
    · obtain ⟨-, w, hreg⟩ := hm.joined g hn hw
      cases hreg
    · obtain ⟨-, op, hop', hnot, -⟩ := hm.notified g hn hw
      cases hop'
      cases hnot

/-- The queue stays sorted unless the generation wraps while awaiters wait. -/
theorem sorted (h : Atomic R debug t s o s') (hs : Sound s)
    (hsort : ∃ l, Queue s.waiters l ∧ Sorted s.waiters l)
    (hmono : s.waiters.set.isEmpty = false →
      s.waiters.set.generation ≤ s'.waiters.set.generation) :
    ∃ l, Queue s'.waiters l ∧ Sorted s'.waiters l := by
  obtain ⟨l, hq, hl⟩ := hsort
  cases h with
  | word | lock | unlock | enter | leave | free => exact ⟨l, hq, hl⟩
  | @store op st' hop happ hby =>
    obtain ⟨st₁, l', he⟩ := op.effect debug hq hop
    obtain rfl : st₁ = st' := Except.ok.inj (he.returns.symm.trans happ)
    refine ⟨l', he.queue, he.sorted hl fun hne => hmono ?_⟩
    rw [Bool.eq_false_iff]
    exact fun hempty => hne (hq.isEmpty_iff.mp hempty)
  | @wait f hf =>
    have hfr := create_frame s.waiters f
    have hne : s.waiters.phase f ≠ .waiting := fun hw => by simp [hs.live f hw] at hf
    have hstamp : ∀ a ∈ l, (s.waiters.create f).stamp a = s.waiters.stamp a :=
      fun a ha => hfr.stamp a fun e => hne (e ▸ (hq.waiting a).mpr ha)
    refine ⟨l, hq.create hne, hl.stamps.imp_of_mem fun ha hb hab => ?_, fun a ha => ?_⟩
    · rw [hstamp _ ha, hstamp _ hb]
      exact hab
    · rw [hstamp a ha]
      exact hl.bound a ha

end Atomic

end Folo.Events
