import Folo.Events.Auto

/-!
# `AutoResetEvent` loses no wakeup

"`HAS_WAITERS` clear ⇒ `slow` is empty", and a stored signal and a waiting
awaiter never coexist. Both hold in every state, at any program counters
(`Flags`). Unlike in `ManualResetEvent`, a signal is only ever stored where
nobody waits: by `compare_exchange` from `IDLE`, or under the mutex after
`notify_one` found nobody. So the clearing step of `poll_wait`, which is the
same as there, is right here: it has just consumed a signal, hence the set
is empty.
-/

namespace Folo.Events

open Folo.Lib Folo.Awaiters

namespace Auto

variable {W T : Type}

/-! ## What each program counter relies on -/

/-- The points at which the thread holds the mutex. -/
def Pc.locked : Pc W → Bool
  | setNotify | setClear _ | setStore | setUnlock _ => true
  | pollTakeLocked .. | pollTryWaitLocked .. | pollFetchOr .. | pollRecheck .. => true
  | pollClear _ | pollRegister .. | pollUnlock .. => true
  | dropIsNotified _ | dropNotify _ | dropStore _ | dropUnregister _ => true
  | dropClear .. | dropUnlock .. => true
  | _ => false

/-- The future that is being polled or dropped. -/
def Pc.future : Pc W → Option Ptr
  | pollTryWait f _ | pollTake f _ | pollLock f _ | pollTakeLocked f _ => some f
  | pollTryWaitLocked f _ | pollFetchOr f _ | pollRecheck f _ | pollClear f => some f
  | pollRegister f _ | pollUnlock f _ | pollReturn f _ => some f
  | dropIsRegistered f | dropLock f | dropIsNotified f | dropNotify f | dropStore f => some f
  | dropUnregister f | dropClear f _ | dropUnlock f _ | dropWake f _ | dropReturn f => some f
  | _ => none

/-- The phases that the awaiter of that future can be in. -/
def Pc.admits : Pc W → Lifecycle → Prop
  | pollTryWaitLocked .. | pollFetchOr .. | pollRecheck .. | pollRegister .. => (· ≠ .notified)
  | dropLock _ | dropIsNotified _ | dropUnregister _ => (· ≠ .idle)
  | dropNotify _ => (· = .notified)
  | dropStore _ | dropClear .. | dropUnlock .. | dropWake .. | dropReturn _ => (· ≠ .waiting)
  | _ => fun _ => True

/-- The points at which the set is known to be empty. -/
def Pc.emptied : Pc W → Bool
  | setClear _ | setStore | pollClear _ | dropStore _ | dropClear .. => true
  | _ => false

/-- The points at which `HAS_WAITERS` has been set for a registration. -/
def Pc.flagged : Pc W → Bool
  | pollRecheck .. | pollRegister .. => true
  | _ => false

/-- The point at which the signal has been seen to be absent since then. -/
def Pc.quiet : Pc W → Bool
  | pollRegister .. => true
  | _ => false

/-- The call of the set that is made at a point. -/
def Pc.op : Pc W → Option (Op W)
  | setNotify | dropNotify _ => some .notifyOne
  | pollTake f _ | pollTakeLocked f _ => some (.takeNotification f)
  | pollRegister f w => some (.register f w)
  | dropUnregister f => some (.unregister f)
  | _ => none

/-- The assertion of thread `t` at a program counter. -/
structure Local (t : T) (pc : Pc W) (s : EventInner W T) : Prop where
  slow : pc.locked = true → s.slow = some t
  user : ∀ f, pc.future = some f → s.user f = some t
  phase : ∀ f, pc.future = some f → pc.admits (s.waiters.phase f)
  empty : pc.emptied = true → s.waiters.set.isEmpty = true
  flag : pc.flagged = true → s.state.waiters = true
  quiet : pc.quiet = true → s.state.signal = false

/-- Without the mutex the signal is stored in the idle state or removed. -/
def Lockless (w w' : StateWord) : Prop :=
  w = IDLE ∧ w' = SIGNALED ∨ w' = w &&& ~~~SIGNALED ∨ w' = w

/-- A thread that holds the mutex and has set `HAS_WAITERS` sees the bit stay,
and no signal appear. -/
theorem Lockless.flags {w w' : StateWord} (h : Lockless w w') (hw : w.waiters = true) :
    w'.waiters = true ∧ (w.signal = false → w'.signal = false) := by
  rcases h with ⟨rfl, -⟩ | rfl | rfl
  · exact absurd hw (by decide)
  · exact ⟨(StateWord.waiters_clear_signaled w).trans hw, fun _ => StateWord.signal_clear_signaled w⟩
  · exact ⟨hw, id⟩

theorem Pc.locked_of_emptied {pc : Pc W} (h : pc.emptied = true) : pc.locked = true := by
  cases pc <;> simp_all [emptied, locked]

theorem Pc.locked_of_flagged {pc : Pc W} (h : pc.flagged = true) : pc.locked = true := by
  cases pc <;> simp_all [flagged, locked]

theorem Pc.flagged_of_quiet {pc : Pc W} (h : pc.quiet = true) : pc.flagged = true := by
  cases pc <;> simp_all [flagged, quiet]

/-- Without the mutex, an awaiter may be notified at any point. -/
theorem Pc.admits_notified {pc : Pc W} (hpc : pc.locked = false) (h : pc.admits .waiting) :
    pc.admits .notified := by
  cases pc <;> simp_all [admits, locked]

/-- The assertions are not interfered with. -/
theorem Local.stable {t : T} {pc : Pc W} {s s' : EventInner W T} (h : Local t pc s)
    (hu : Undisturbed Lockless t s s') : Local t pc s' := by
  have hflags : pc.flagged = true →
      s'.state.waiters = true ∧ (s.state.signal = false → s'.state.signal = false) := by
    intro hf
    rcases hu.state (h.slow (Pc.locked_of_flagged hf)) with hR | heq
    · exact hR.flags (h.flag hf)
    · rw [heq]
      exact ⟨h.flag hf, id⟩
  refine ⟨fun hl => hu.slow (h.slow hl), fun f hf => hu.user f (h.user f hf), fun f hf => ?_,
    fun he => ?_, fun hf => (hflags hf).1, fun hq => ?_⟩
  · rcases hu.phase f (h.user f hf) with hsame | ⟨hslow, hw, hn⟩
    · rw [hsame]
      exact h.phase f hf
    · have hl : pc.locked = false := Bool.eq_false_iff.mpr fun hl => hslow (h.slow hl)
      rw [hn]
      exact Pc.admits_notified hl (hw ▸ h.phase f hf)
  · rw [hu.set (h.slow (Pc.locked_of_emptied he))]
    exact h.empty he
  · exact (hflags (Pc.flagged_of_quiet hq)).2 (h.quiet hq)

/-- A program counter that relies on nothing. -/
theorem Local.free {t : T} {pc : Pc W} {s : EventInner W T} (hl : pc.locked = false)
    (hf : pc.future = none) (he : pc.emptied = false) (hg : pc.flagged = false)
    (hq : pc.quiet = false) : Local t pc s := by
  refine ⟨fun h => ?_, fun f h => ?_, fun f h => ?_, fun h => ?_, fun h => ?_, fun h => ?_⟩
  all_goals simp_all

/-! ## The two flags -/

/-- "`HAS_WAITERS` clear ⇒ `slow` is empty", and a stored signal finds nobody
waiting. -/
structure Flags (s : EventInner W T) : Prop where
  waiters : s.state.waiters = false → s.waiters.set.isEmpty = true
  signal : s.state.signal = true → s.waiters.set.isEmpty = true

theorem Flags.of_empty {s : EventInner W T} (h : s.waiters.set.isEmpty = true) : Flags s :=
  ⟨fun _ => h, fun _ => h⟩

/-- A step that changes neither the set nor sets or clears a flag against the
invariant. -/
theorem Flags.congr {s s' : EventInner W T} (h : Flags s)
    (hset : s'.waiters.set = s.waiters.set)
    (hw : s'.state.waiters = false → s.state.waiters = false)
    (hs : s'.state.signal = true → s.state.signal = true) : Flags s' :=
  ⟨fun h' => hset ▸ h.waiters (hw h'), fun h' => hset ▸ h.signal (hs h')⟩

/-- `try_wait` only removes the signal. -/
theorem Flags.tryWait {s : EventInner W T} (h : Flags s) : Flags (Auto.tryWait s).2 := by
  refine h.congr rfl (fun hw => ?_) (fun hs => ?_)
  · exact (StateWord.waiters_clear_signaled s.state).symm.trans hw
  · exact absurd ((StateWord.signal_clear_signaled s.state).symm.trans hs) (by decide)

/-- A call of the set that is not a registration. -/
theorem Flags.store {s : EventInner W T} {st' : Store W} (h : Flags s) (debug : Bool)
    (op : Op W) (hs : Sound s) (hop : op.Allowed s.waiters)
    (happ : op.apply debug s.waiters = .ok st') (hreg : ∀ p w, op ≠ .register p w) :
    Flags { s with waiters := st' } :=
  ⟨fun hw => Atomic.isEmpty_store op hs hop happ hreg (h.waiters hw),
    fun hw => Atomic.isEmpty_store op hs hop happ hreg (h.signal hw)⟩

/-! ## The steps -/

/-- A call relies on nothing but the future it is made on. -/
theorem call_atomic {debug : Bool} {t : T} {op : Call W} {pc' : Pc W} {s s' : EventInner W T}
    (hf : Flags s) (hcall : call t s op = some (s', pc')) :
    Atomic Lockless debug t s none s' ∧ Local t pc' s' ∧ Flags s' := by
  have hown : ∀ {f g : Ptr}, some f = some g → Function.update s.user f (some t) g = some t := by
    intro f g h
    cases h
    exact Function.update_self ..
  cases op with
  | set =>
    cases hcall
    exact ⟨.word (Or.inl (Or.inr (Or.inr rfl))), .free rfl rfl rfl rfl rfl, hf⟩
  | tryWait =>
    cases hcall
    exact ⟨.word (Or.inl (Or.inr (Or.inr rfl))), .free rfl rfl rfl rfl rfl, hf⟩
  | wait f =>
    obtain ⟨hlive, rfl, rfl⟩ := EventInner.wait_map hcall
    exact ⟨.wait hlive, .free rfl rfl rfl rfl rfl, hf.congr rfl id id⟩
  | poll f w =>
    obtain ⟨hlive, huser, rfl, rfl⟩ := EventInner.enter_map hcall
    exact ⟨.enter hlive huser, ⟨nofun, fun g => hown, fun _ _ => trivial, nofun, nofun, nofun⟩,
      hf.congr rfl id id⟩
  | drop f =>
    obtain ⟨hlive, huser, rfl, rfl⟩ := EventInner.enter_map hcall
    exact ⟨.enter hlive huser, ⟨nofun, fun g => hown, fun _ _ => trivial, nofun, nofun, nofun⟩,
      hf.congr rfl id id⟩

/-- What `notify_one` does at a point where the mutex is held. -/
theorem notifyOne_atomic {debug : Bool} {t : T} {s : EventInner W T} {waker : Option W}
    {st : Store W} (hs : Sound s) (hf : Flags s) (hslow : s.slow = some t)
    (hok : s.waiters.notifyOne debug = .ok (waker, st)) :
    Atomic Lockless debug t s (some .notifyOne) { s with waiters := st } ∧
      Flags { s with waiters := st } ∧ (waker = none → st.set.isEmpty = true) := by
  have happ : Op.notifyOne.apply debug s.waiters = .ok st := by
    rw [Op.apply, hok]
    rfl
  have hallowed : Op.notifyOne.Allowed s.waiters := trivial
  refine ⟨.store _ hallowed happ hslow, hf.store debug _ hs hallowed happ (by rintro _ _ ⟨⟩), ?_⟩
  rintro rfl
  obtain ⟨l, hq⟩ := hs.queue
  obtain ⟨rfl, rfl⟩ := hq.notifyOne_none hok
  exact hq.isEmpty_iff.mpr rfl

/-- Every step of a thread is one of the steps that the events share,
establishes what its thread relies on next and keeps the flags. -/
theorem step_atomic {debug : Bool} {t : T} {pc pc' : Pc W} {s s' : EventInner W T}
    (hs : Sound s) (hf : Flags s) (h : Local t pc s)
    (hstep : step debug t s pc = some (s', pc')) :
    Atomic Lockless debug t s pc.op s' ∧ Local t pc' s' ∧ Flags s' := by
  have hsame : Lockless s.state s.state := Or.inr (Or.inr rfl)
  have htry : Atomic Lockless debug t s none (tryWait s).2 := .word (Or.inl (Or.inr (Or.inl rfl)))
  have hclear : (s.waiters.set.isEmpty = true) →
      Flags { s with state := s.state &&& ~~~HAS_WAITERS } := fun he => .of_empty he
  cases pc with
  | idle => cases hstep
  | setCas =>
    rw [step] at hstep
    split at hstep
    next hidle =>
      cases hstep
      have hempty : s.waiters.set.isEmpty = true := hf.waiters (by rw [hidle]; decide)
      exact ⟨.word (Or.inl (Or.inl ⟨hidle, rfl⟩)), .free rfl rfl rfl rfl rfl, .of_empty hempty⟩
    next =>
      cases hstep
      exact ⟨.word (Or.inl hsame), .free rfl rfl rfl rfl rfl, hf⟩
  | setLoad =>
    cases hstep
    refine ⟨.word (Or.inl hsame), ?_, hf⟩
    split
    · exact .free rfl rfl rfl rfl rfl
    · exact .free rfl rfl rfl rfl rfl
  | setLock =>
    obtain ⟨hfree, rfl, rfl⟩ := EventInner.lock_map hstep
    exact ⟨.lock hfree, ⟨fun _ => rfl, (by intros; contradiction), (by intros; contradiction), (by intros; contradiction), (by intros; contradiction), (by intros; contradiction)⟩, hf.congr rfl id id⟩
  | setNotify =>
    rw [step] at hstep
    split at hstep
    next => cases hstep
    next st hok =>
      cases hstep
      obtain ⟨ha, hfl, he⟩ := notifyOne_atomic hs hf (h.slow rfl) hok
      exact ⟨ha, ⟨h.slow, (by intros; contradiction), (by intros; contradiction), fun _ => he rfl, (by intros; contradiction), (by intros; contradiction)⟩, hfl⟩
    next w st hok =>
      cases hstep
      obtain ⟨ha, hfl, -⟩ := notifyOne_atomic hs hf (h.slow rfl) hok
      refine ⟨ha, ?_, hfl⟩
      split
      next he => exact ⟨h.slow, (by intros; contradiction), (by intros; contradiction), fun _ => he, (by intros; contradiction), (by intros; contradiction)⟩
      next => exact ⟨h.slow, (by intros; contradiction), (by intros; contradiction), (by intros; contradiction), (by intros; contradiction), (by intros; contradiction)⟩
  | setClear w =>
    cases hstep
    exact ⟨.word (Or.inr (h.slow rfl)), ⟨h.slow, (by intros; contradiction), (by intros; contradiction), (by intros; contradiction), (by intros; contradiction), (by intros; contradiction)⟩,
      hclear (h.empty rfl)⟩
  | setStore =>
    cases hstep
    exact ⟨.word (Or.inr (h.slow rfl)), ⟨h.slow, (by intros; contradiction), (by intros; contradiction), (by intros; contradiction), (by intros; contradiction), (by intros; contradiction)⟩,
      .of_empty (h.empty rfl)⟩
  | setUnlock waker =>
    cases hstep
    refine ⟨.unlock (h.slow rfl), ?_, hf.congr rfl id id⟩
    cases waker with
    | none => exact .free rfl rfl rfl rfl rfl
    | some w => exact .free rfl rfl rfl rfl rfl
  | setWake w =>
    cases hstep
    exact ⟨.word (Or.inl hsame), .free rfl rfl rfl rfl rfl, hf⟩
  | setReturn =>
    cases hstep
    exact ⟨.word (Or.inl hsame), .free rfl rfl rfl rfl rfl, hf⟩
  | tryWaitFetchAnd =>
    cases hstep
    exact ⟨htry, .free rfl rfl rfl rfl rfl, hf.tryWait⟩
  | tryWaitReturn b =>
    cases hstep
    exact ⟨.word (Or.inl hsame), .free rfl rfl rfl rfl rfl, hf⟩
  | pollTryWait f w =>
    cases hstep
    refine ⟨htry, ?_, hf.tryWait⟩
    split
    · exact ⟨(by intros; contradiction), h.user, fun _ _ => trivial, (by intros; contradiction), (by intros; contradiction), (by intros; contradiction)⟩
    · exact ⟨(by intros; contradiction), h.user, fun _ _ => trivial, (by intros; contradiction), (by intros; contradiction), (by intros; contradiction)⟩
  | pollTake f w =>
    cases hstep
    refine ⟨.store (.takeNotification f) trivial rfl (h.user f rfl), ?_,
      hf.store debug (.takeNotification f) hs trivial rfl (by rintro _ _ ⟨⟩)⟩
    split
    · exact ⟨(by intros; contradiction), h.user, fun _ _ => trivial, (by intros; contradiction), (by intros; contradiction), (by intros; contradiction)⟩
    · exact ⟨(by intros; contradiction), h.user, fun _ _ => trivial, (by intros; contradiction), (by intros; contradiction), (by intros; contradiction)⟩
  | pollLock f w =>
    obtain ⟨hfree, rfl, rfl⟩ := EventInner.lock_map hstep
    exact ⟨.lock hfree, ⟨fun _ => rfl, h.user, fun _ _ => trivial, (by intros; contradiction), (by intros; contradiction), (by intros; contradiction)⟩,
      hf.congr rfl id id⟩
  | pollTakeLocked f w =>
    cases hstep
    refine ⟨.store (.takeNotification f) trivial rfl (h.user f rfl), ?_,
      hf.store debug (.takeNotification f) hs trivial rfl (by rintro _ _ ⟨⟩)⟩
    split
    · exact ⟨h.slow, h.user, fun _ _ => trivial, (by intros; contradiction), (by intros; contradiction), (by intros; contradiction)⟩
    · refine ⟨h.slow, h.user, fun g hg => ?_, (by intros; contradiction), (by intros; contradiction), (by intros; contradiction)⟩
      cases hg
      exact takeNotification_phase_ne s.waiters f
  | pollTryWaitLocked f w =>
    cases hstep
    refine ⟨htry, ?_, hf.tryWait⟩
    split
    · exact ⟨h.slow, h.user, fun _ _ => trivial, (by intros; contradiction), (by intros; contradiction), (by intros; contradiction)⟩
    · exact ⟨h.slow, h.user, h.phase, (by intros; contradiction), (by intros; contradiction), (by intros; contradiction)⟩
  | pollFetchOr f w =>
    cases hstep
    have hset := StateWord.waiters_or_hasWaiters s.state
    refine ⟨.word (Or.inr (h.slow rfl)), ⟨h.slow, h.user, h.phase, (by intros; contradiction), fun _ => hset, (by intros; contradiction)⟩,
      hf.congr rfl (fun hw => absurd (hset.symm.trans hw) (by decide)) fun hsig => ?_⟩
    exact (StateWord.signal_or_hasWaiters s.state).symm.trans hsig
  | pollRecheck f w =>
    cases hstep
    refine ⟨htry, ?_, hf.tryWait⟩
    split
    next hsig =>
      -- the signal that was just consumed says that nobody waits
      exact ⟨h.slow, h.user, fun _ _ => trivial, fun _ => hf.signal hsig, (by intros; contradiction), (by intros; contradiction)⟩
    next =>
      exact ⟨h.slow, h.user, h.phase, (by intros; contradiction),
        fun _ => (StateWord.waiters_clear_signaled s.state).trans (h.flag rfl),
        fun _ => StateWord.signal_clear_signaled s.state⟩
  | pollClear f =>
    cases hstep
    exact ⟨.word (Or.inr (h.slow rfl)),
      ⟨h.slow, h.user, fun _ _ => trivial, (by intros; contradiction), (by intros; contradiction), (by intros; contradiction)⟩, hclear (h.empty rfl)⟩
  | pollRegister f w =>
    rw [step] at hstep
    split at hstep
    next => cases hstep
    next st hok =>
      cases hstep
      -- `HAS_WAITERS` is set and there is no signal
      exact ⟨.store (.register f w) (h.phase f rfl) hok ⟨h.slow rfl, h.user f rfl⟩,
        ⟨h.slow, h.user, fun _ _ => trivial, (by intros; contradiction), (by intros; contradiction), (by intros; contradiction)⟩,
        fun hw => absurd ((h.flag rfl).symm.trans hw) (by decide),
        fun hsig => absurd ((h.quiet rfl).symm.trans hsig) (by decide)⟩
  | pollUnlock f ready =>
    cases hstep
    exact ⟨.unlock (h.slow rfl), ⟨(by intros; contradiction), h.user, fun _ _ => trivial, (by intros; contradiction), (by intros; contradiction), (by intros; contradiction)⟩,
      hf.congr rfl id id⟩
  | pollReturn f ready =>
    cases hstep
    exact ⟨.leave (h.user f rfl), .free rfl rfl rfl rfl rfl, hf.congr rfl id id⟩
  | dropIsRegistered f =>
    cases hstep
    refine ⟨.word (Or.inl hsame), ?_, hf⟩
    split
    next hreg =>
      refine ⟨(by intros; contradiction), h.user, fun g hg => ?_, (by intros; contradiction), (by intros; contradiction), (by intros; contradiction)⟩
      cases hg
      exact isRegistered_iff.mp hreg
    next hreg =>
      refine ⟨(by intros; contradiction), h.user, fun g hg => ?_, (by intros; contradiction), (by intros; contradiction), (by intros; contradiction)⟩
      cases hg
      intro hw
      exact hreg (isRegistered_iff.mpr (by rw [hw]; decide))
  | dropLock f =>
    obtain ⟨hfree, rfl, rfl⟩ := EventInner.lock_map hstep
    exact ⟨.lock hfree, ⟨fun _ => rfl, h.user, h.phase, (by intros; contradiction), (by intros; contradiction), (by intros; contradiction)⟩, hf.congr rfl id id⟩
  | dropIsNotified f =>
    cases hstep
    refine ⟨.word (Or.inl hsame), ?_, hf⟩
    split
    next hn =>
      refine ⟨h.slow, h.user, fun g hg => ?_, (by intros; contradiction), (by intros; contradiction), (by intros; contradiction)⟩
      cases hg
      exact isNotified_iff.mp hn
    next => exact ⟨h.slow, h.user, h.phase, (by intros; contradiction), (by intros; contradiction), (by intros; contradiction)⟩
  | dropNotify f =>
    have hleft : ∀ {waker : Option W} {st : Store W},
        s.waiters.notifyOne debug = .ok (waker, st) → st.phase f ≠ .waiting := by
      intro waker st hok
      have happ : Op.notifyOne.apply debug s.waiters = .ok st := by
        rw [Op.apply, hok]
        rfl
      rw [Atomic.notifyOne_notified hs happ (h.phase f rfl)]
      decide
    rw [step] at hstep
    split at hstep
    next => cases hstep
    next st hok =>
      cases hstep
      obtain ⟨ha, hfl, he⟩ := notifyOne_atomic hs hf (h.slow rfl) hok
      refine ⟨ha, ⟨h.slow, h.user, fun g hg => ?_, fun _ => he rfl, (by intros; contradiction), (by intros; contradiction)⟩, hfl⟩
      cases hg
      exact hleft hok
    next w st hok =>
      cases hstep
      obtain ⟨ha, hfl, -⟩ := notifyOne_atomic hs hf (h.slow rfl) hok
      refine ⟨ha, ?_, hfl⟩
      split
      next he =>
        refine ⟨h.slow, h.user, fun g hg => ?_, fun _ => he, (by intros; contradiction), (by intros; contradiction)⟩
        cases hg
        exact hleft hok
      next =>
        refine ⟨h.slow, h.user, fun g hg => ?_, (by intros; contradiction), (by intros; contradiction), (by intros; contradiction)⟩
        cases hg
        exact hleft hok
  | dropStore f =>
    cases hstep
    exact ⟨.word (Or.inr (h.slow rfl)), ⟨h.slow, h.user, h.phase, (by intros; contradiction), (by intros; contradiction), (by intros; contradiction)⟩,
      .of_empty (h.empty rfl)⟩
  | dropUnregister f =>
    rw [step] at hstep
    split at hstep
    next => cases hstep
    next st hok =>
      cases hstep
      obtain ⟨l, hq⟩ := hs.queue
      have hleft : st.phase f ≠ .waiting := hq.unregister_phase (h.phase f rfl) hok
      refine ⟨.store (.unregister f) (h.phase f rfl) hok ⟨h.slow rfl, h.user f rfl⟩, ?_,
        hf.store debug (.unregister f) hs (h.phase f rfl) hok (by rintro _ _ ⟨⟩)⟩
      split
      next he =>
        refine ⟨h.slow, h.user, fun g hg => ?_, fun _ => he, (by intros; contradiction), (by intros; contradiction)⟩
        cases hg
        exact hleft
      next =>
        refine ⟨h.slow, h.user, fun g hg => ?_, (by intros; contradiction), (by intros; contradiction), (by intros; contradiction)⟩
        cases hg
        exact hleft
  | dropClear f waker =>
    cases hstep
    exact ⟨.word (Or.inr (h.slow rfl)), ⟨h.slow, h.user, h.phase, (by intros; contradiction), (by intros; contradiction), (by intros; contradiction)⟩,
      hclear (h.empty rfl)⟩
  | dropUnlock f waker =>
    cases hstep
    refine ⟨.unlock (h.slow rfl), ?_, hf.congr rfl id id⟩
    cases waker with
    | none => exact ⟨(by intros; contradiction), h.user, h.phase, (by intros; contradiction), (by intros; contradiction), (by intros; contradiction)⟩
    | some w => exact ⟨(by intros; contradiction), h.user, h.phase, (by intros; contradiction), (by intros; contradiction), (by intros; contradiction)⟩
  | dropWake f w =>
    cases hstep
    exact ⟨.word (Or.inl hsame), ⟨(by intros; contradiction), h.user, h.phase, (by intros; contradiction), (by intros; contradiction), (by intros; contradiction)⟩, hf⟩
  | dropReturn f =>
    cases hstep
    exact ⟨.free (h.user f rfl) (h.phase f rfl), .free rfl rfl rfl rfl rfl, hf.congr rfl id id⟩

/-- Every action is a call of an idle thread or a step. -/
theorem act_cases {debug : Bool} {t : T} {pc pc' : Pc W} {a : Act (Call W)}
    {s s' : EventInner W T} (hact : act debug t pc a s = some (s', pc')) :
    (∃ op, a = .call op ∧ pc = .idle ∧ call t s op = some (s', pc')) ∨
      a = .step ∧ step debug t s pc = some (s', pc') := by
  cases a with
  | call op =>
    cases pc with
    | idle => exact Or.inl ⟨op, rfl, rfl, hact⟩
    | _ => cases hact
  | step =>
    cases pc with
    | _ => exact Or.inr ⟨rfl, hact⟩

theorem act_atomic {debug : Bool} {t : T} {pc pc' : Pc W} {a : Act (Call W)}
    {s s' : EventInner W T} (hs : Sound s) (hf : Flags s) (h : Local t pc s)
    (hact : act debug t pc a s = some (s', pc')) :
    Atomic Lockless debug t s pc.op s' ∧ Local t pc' s' ∧ Flags s' := by
  rcases act_cases hact with ⟨op, -, rfl, hcall⟩ | ⟨-, hstep⟩
  · exact call_atomic hf hcall
  · exact step_atomic hs hf h hstep

/-- The shared state is consistent, the flags tell the truth and every
thread's assertion holds, in every reachable state. -/
theorem reachable_local [DecidableEq T] {debug : Bool} {setId : Nat}
    {σ : Threads (EventInner W T) (Pc W) T} (h : (auto W T debug setId).Reachable σ) :
    (Sound σ.shared ∧ Flags σ.shared) ∧ ∀ t, Local t (σ.pc t) σ.shared := by
  refine threads_invariant (I := fun s => Sound s ∧ Flags s) (L := Local)
    ⟨sound_boxed setId, .of_empty rfl⟩ (fun t => .free rfl rfl rfl rfl rfl) ?_ h
  intro σ t a s' p' hi hl _ hact
  obtain ⟨hatomic, hown, hflags⟩ := act_atomic hi.1 hi.2 (hl t) hact
  exact ⟨⟨hatomic.sound hi.1, hflags⟩, hown,
    fun u hu => (hl u).stable (hatomic.undisturbed hi.1 hu)⟩

end Auto

open Auto

/-- **No lost wakeup in `AutoResetEvent`**: whenever the mutex is free and
`HAS_WAITERS` is clear, no awaiter is registered; and when no operation is in
progress, a stored signal and a waiting awaiter do not coexist. -/
theorem auto_no_lost_wakeup {W T : Type} [DecidableEq T] {debug : Bool} {setId : Nat}
    {σ : Threads (EventInner W T) (Pc W) T} (h : (auto W T debug setId).Reachable σ) :
    (σ.shared.slow = none → σ.shared.state.waiters = false →
      σ.shared.waiters.set.isEmpty = true ∧ ∀ f, σ.shared.waiters.phase f ≠ .waiting) ∧
    ((∀ t, σ.pc t = .idle) →
      ¬ (σ.shared.state.signal = true ∧ ∃ f, σ.shared.waiters.phase f = .waiting)) := by
  obtain ⟨⟨hs, hf⟩, -⟩ := reachable_local h
  obtain ⟨l, hq⟩ := hs.queue
  have hnobody : σ.shared.waiters.set.isEmpty = true →
      ∀ f, σ.shared.waiters.phase f ≠ .waiting := by
    intro he f hw
    obtain rfl := hq.isEmpty_iff.mp he
    exact List.not_mem_nil ((hq.waiting f).mp hw)
  refine ⟨fun _ hclear => ⟨hf.waiters hclear, hnobody (hf.waiters hclear)⟩, fun _ => ?_⟩
  rintro ⟨hsig, f, hw⟩
  exact hnobody (hf.signal hsig) f hw

/-- A waiter is notified by a first `set`, a second one stores a signal. -/
theorem auto_no_lost_wakeup_stored :
    ∃ σ, (auto Nat Nat false 1).run
        ([(0, Act.call (Call.wait 8)), (0, .call (.poll 8 0))] ++ List.replicate 10 (0, Act.step) ++
          [(2, Act.call Call.set)] ++ List.replicate 8 (2, Act.step) ++ [(2, Act.call Call.set)] ++
          List.replicate 2 (2, Act.step)) = some σ ∧
      σ.shared.state = SIGNALED ∧ σ.shared.waiters.phase 8 = .notified ∧
      (σ.shared.slow = none → σ.shared.state.waiters = false →
        σ.shared.waiters.set.isEmpty = true ∧ ∀ f, σ.shared.waiters.phase f ≠ .waiting) ∧
      ((∀ t, σ.pc t = .idle) →
        ¬ (σ.shared.state.signal = true ∧ ∃ f, σ.shared.waiters.phase f = .waiting)) := by
  obtain ⟨σ, hrun, hstate, hphase⟩ : ∃ σ, (auto Nat Nat false 1).run
      ([(0, Act.call (Call.wait 8)), (0, .call (.poll 8 0))] ++ List.replicate 10 (0, Act.step) ++
        [(2, Act.call Call.set)] ++ List.replicate 8 (2, Act.step) ++ [(2, Act.call Call.set)] ++
        List.replicate 2 (2, Act.step)) = some σ ∧
      σ.shared.state = SIGNALED ∧ σ.shared.waiters.phase 8 = .notified :=
    ⟨_, rfl, by decide, by decide⟩
  exact ⟨σ, hrun, hstate, hphase, auto_no_lost_wakeup (Machine.reachable_of_run hrun)⟩

end Folo.Events
