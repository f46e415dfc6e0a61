import Folo.Events.Manual

/-!
# The key invariant of `ManualResetEvent`

"`HAS_WAITERS` clear ⇒ `slow` is empty." The bit and the set are both
changed under the mutex only, so the invariant is about the threads that
hold it, and one of them breaks it: after `poll_wait` has set `HAS_WAITERS`
and finds `IS_SET`, it clears the bit again without looking at the set. The
comment there argues that whoever set `IS_SET` found the state idle, hence
no waiters. But `set` is a `fetch_or`, which also sets `IS_SET` when there
are waiters, and then has to wait for the mutex to drain them. In that
window a poll clears the bit while another awaiter is registered
(`manual_loses_waiters`).

Where that clearing step is only taken with an empty set, the invariant
holds in every state (`manual_key_invariant`).
-/

namespace Folo.Events

open Folo.Lib Folo.Awaiters

namespace Manual

variable {W T : Type}

/-! ## What each program counter relies on -/

/-- The points at which the thread holds the mutex. -/
def Pc.locked : Pc W → Bool
  | setAdvance | setUnlockAdvance | setNotify | setClear _ | setUnlock _ => true
  | pollTakeLocked .. | pollLoadLocked .. | pollFetchOr .. | pollRecheck .. => true
  | pollClear _ | pollRegister .. | pollUnlock .. => true
  | dropUnregister _ | dropClear _ | dropUnlock _ => true
  | _ => false

/-- The future that is being polled or dropped. -/
def Pc.future : Pc W → Option Ptr
  | pollLoad f _ | pollTake f _ | pollLock f _ | pollTakeLocked f _ => some f
  | pollLoadLocked f _ | pollFetchOr f _ | pollRecheck f _ | pollClear f => some f
  | pollRegister f _ | pollUnlock f _ | pollReturn f _ => some f
  | dropIsRegistered f | dropLock f | dropUnregister f | dropClear f => some f
  | dropUnlock f | dropReturn f => some f
  | _ => none

/-- The phases that the awaiter of that future can be in. -/
def Pc.admits : Pc W → Lifecycle → Prop
  | pollLoadLocked .. | pollFetchOr .. | pollRecheck .. | pollRegister .. => (· ≠ .notified)
  | dropLock _ | dropUnregister _ => (· ≠ .idle)
  | dropClear _ | dropUnlock _ | dropReturn _ => (· ≠ .waiting)
  | _ => fun _ => True

/-- The points at which the set has been seen to be empty. -/
def Pc.emptied : Pc W → Bool
  | setClear _ | dropClear _ => true
  | _ => false

/-- The points at which `HAS_WAITERS` has been set for a registration. -/
def Pc.flagged : Pc W → Bool
  | pollRecheck .. | pollRegister .. => true
  | _ => false

/-- The call of the set that is made at a point. -/
def Pc.op : Pc W → Option (Op W)
  | setAdvance => some .advanceGeneration
  | setNotify => some .notifyOnePriorGeneration
  | pollTake f _ | pollTakeLocked f _ => some (.takeNotification f)
  | pollRegister f w => some (.register f w)
  | dropUnregister f => some (.unregister f)
  | _ => none

/-- Only the drain of `set` notifies, and only awaiters of a prior
generation; only `poll_wait` registers; only `set` advances the generation. -/
theorem Pc.op_cases {pc : Pc W} {op : Op W} (h : pc.op = some op) :
    (op.notifies = true → op = .notifyOnePriorGeneration) ∧
      (∀ f w, op = .register f w → pc = .pollRegister f w) ∧
      (op = .advanceGeneration → pc = .setAdvance) := by
  cases pc with
  | setAdvance =>
    cases h
    exact ⟨nofun, nofun, fun _ => rfl⟩
  | setNotify =>
    cases h
    exact ⟨fun _ => rfl, nofun, nofun⟩
  | pollTake f w | pollTakeLocked f w | dropUnregister f =>
    cases h
    exact ⟨nofun, nofun, nofun⟩
  | pollRegister f w =>
    cases h
    refine ⟨nofun, fun g v hg => ?_, nofun⟩
    cases hg
    rfl
  | _ => cases h

/-- The assertion of thread `t` at a program counter. -/
structure Local (t : T) (pc : Pc W) (s : EventInner W T) : Prop where
  slow : pc.locked = true → s.slow = some t
  user : ∀ f, pc.future = some f → s.user f = some t
  phase : ∀ f, pc.future = some f → pc.admits (s.waiters.phase f)
  empty : pc.emptied = true → s.waiters.set.isEmpty = true
  flag : pc.flagged = true → s.state.waiters = true

/-- Without the mutex, `HAS_WAITERS` is not changed. -/
def KeepsWaiters (w w' : StateWord) : Prop := w'.waiters = w.waiters

theorem Pc.locked_of_emptied {pc : Pc W} (h : pc.emptied = true) : pc.locked = true := by
  cases pc <;> simp_all [emptied, locked]

theorem Pc.locked_of_flagged {pc : Pc W} (h : pc.flagged = true) : pc.locked = true := by
  cases pc <;> simp_all [flagged, locked]

/-- Without the mutex, an awaiter may be notified at any point. -/
theorem Pc.admits_notified {pc : Pc W} (hpc : pc.locked = false) (h : pc.admits .waiting) :
    pc.admits .notified := by
  cases pc <;> simp_all [admits, locked]

/-- The assertions are not interfered with. -/
theorem Local.stable {t : T} {pc : Pc W} {s s' : EventInner W T} (h : Local t pc s)
    (hu : Undisturbed KeepsWaiters t s s') : Local t pc s' := by
  refine ⟨fun hl => hu.slow (h.slow hl), fun f hf => hu.user f (h.user f hf), fun f hf => ?_,
    fun he => ?_, fun hf => ?_⟩
  · rcases hu.phase f (h.user f hf) with hsame | ⟨hslow, hw, hn⟩
    · rw [hsame]
      exact h.phase f hf
    · have hl : pc.locked = false := Bool.eq_false_iff.mpr fun hl => hslow (h.slow hl)
      rw [hn]
      exact Pc.admits_notified hl (hw ▸ h.phase f hf)
  · rw [hu.set (h.slow (Pc.locked_of_emptied he))]
    exact h.empty he
  · rcases hu.state (h.slow (Pc.locked_of_flagged hf)) with hR | heq
    · exact hR.trans (h.flag hf)
    · rw [heq]
      exact h.flag hf

/-- A program counter that relies on nothing. -/
theorem Local.free {t : T} {pc : Pc W} {s : EventInner W T} (hl : pc.locked = false)
    (hf : pc.future = none) (he : pc.emptied = false) (hg : pc.flagged = false) :
    Local t pc s := by
  refine ⟨fun h => ?_, fun f h => ?_, fun f h => ?_, fun h => ?_, fun h => ?_⟩
  all_goals simp_all

/-! ## The steps -/

/-- A call relies on nothing but the future it is made on. -/
theorem call_atomic {debug : Bool} {t : T} {op : Call W} {pc' : Pc W} {s s' : EventInner W T}
    (hcall : call t s op = some (s', pc')) :
    Atomic KeepsWaiters debug t s none s' ∧ Local t pc' s' := by
  have hown : ∀ {f g : Ptr}, some f = some g → Function.update s.user f (some t) g = some t := by
    intro f g h
    cases h
    exact Function.update_self ..
  cases op with
  | set =>
    cases hcall
    exact ⟨.word (Or.inl rfl), .free rfl rfl rfl rfl⟩
  | reset =>
    cases hcall
    exact ⟨.word (Or.inl rfl), .free rfl rfl rfl rfl⟩
  | tryWait =>
    cases hcall
    exact ⟨.word (Or.inl rfl), .free rfl rfl rfl rfl⟩
  | wait f =>
    obtain ⟨hf, rfl, rfl⟩ := EventInner.wait_map hcall
    exact ⟨.wait hf, .free rfl rfl rfl rfl⟩
  | poll f w =>
    obtain ⟨hlive, huser, rfl, rfl⟩ := EventInner.enter_map hcall
    exact ⟨.enter hlive huser, nofun, fun g => hown, fun _ _ => trivial, nofun, nofun⟩
  | drop f =>
    obtain ⟨hlive, huser, rfl, rfl⟩ := EventInner.enter_map hcall
    exact ⟨.enter hlive huser, nofun, fun g => hown, fun _ _ => trivial, nofun, nofun⟩

/-- Every step of a thread is one of the steps that the events share, and
establishes what its thread relies on next. -/
theorem step_atomic {debug : Bool} {t : T} {pc pc' : Pc W} {s s' : EventInner W T}
    (hs : Sound s) (h : Local t pc s) (hstep : step debug t s pc = some (s', pc')) :
    Atomic KeepsWaiters debug t s pc.op s' ∧ Local t pc' s' := by
  cases pc with
  | idle => cases hstep
  | setFetchOr =>
    cases hstep
    refine ⟨.word (Or.inl (StateWord.waiters_or_isSet _)), ?_⟩
    split
    · exact .free rfl rfl rfl rfl
    · exact .free rfl rfl rfl rfl
  | setLockAdvance =>
    obtain ⟨hfree, rfl, rfl⟩ := EventInner.lock_map hstep
    exact ⟨.lock hfree, fun _ => rfl, (by intros; contradiction), (by intros; contradiction), (by intros; contradiction), (by intros; contradiction)⟩
  | setAdvance =>
    cases hstep
    exact ⟨.store .advanceGeneration trivial rfl (h.slow rfl), h.slow, (by intros; contradiction), (by intros; contradiction),
      (by intros; contradiction), (by intros; contradiction)⟩
  | setUnlockAdvance =>
    cases hstep
    exact ⟨.unlock (h.slow rfl), .free rfl rfl rfl rfl⟩
  | setLock =>
    obtain ⟨hfree, rfl, rfl⟩ := EventInner.lock_map hstep
    exact ⟨.lock hfree, fun _ => rfl, (by intros; contradiction), (by intros; contradiction), (by intros; contradiction), (by intros; contradiction)⟩
  | setNotify =>
    rw [step] at hstep
    split at hstep
    next => cases hstep
    next waker st hok =>
      cases hstep
      have happ : Op.notifyOnePriorGeneration.apply debug s.waiters = .ok st := by
        rw [Op.apply, hok]
        rfl
      refine ⟨.store .notifyOnePriorGeneration trivial happ (h.slow rfl), ?_⟩
      split
      next he => exact ⟨h.slow, (by intros; contradiction), (by intros; contradiction), fun _ => he, (by intros; contradiction)⟩
      next => exact ⟨h.slow, (by intros; contradiction), (by intros; contradiction), (by intros; contradiction), (by intros; contradiction)⟩
  | setClear waker =>
    cases hstep
    exact ⟨.word (Or.inr (h.slow rfl)), h.slow, (by intros; contradiction), (by intros; contradiction), (by intros; contradiction), (by intros; contradiction)⟩
  | setUnlock waker =>
    cases hstep
    refine ⟨.unlock (h.slow rfl), ?_⟩
    cases waker with
    | none => exact .free rfl rfl rfl rfl
    | some w => exact .free rfl rfl rfl rfl
  | setWake w =>
    cases hstep
    exact ⟨.word (Or.inl rfl), .free rfl rfl rfl rfl⟩
  | setReturn =>
    cases hstep
    exact ⟨.word (Or.inl rfl), .free rfl rfl rfl rfl⟩
  | resetFetchAnd =>
    cases hstep
    exact ⟨.word (Or.inl (StateWord.waiters_clear_isSet _)), .free rfl rfl rfl rfl⟩
  | tryWaitLoad =>
    cases hstep
    exact ⟨.word (Or.inl rfl), .free rfl rfl rfl rfl⟩
  | tryWaitReturn b =>
    cases hstep
    exact ⟨.word (Or.inl rfl), .free rfl rfl rfl rfl⟩
  | pollLoad f w =>
    cases hstep
    refine ⟨.word (Or.inl rfl), ?_⟩
    split
    · exact ⟨(by intros; contradiction), h.user, fun _ _ => trivial, (by intros; contradiction), (by intros; contradiction)⟩
    · exact ⟨(by intros; contradiction), h.user, fun _ _ => trivial, (by intros; contradiction), (by intros; contradiction)⟩
  | pollTake f w =>
    cases hstep
    refine ⟨.store (.takeNotification f) trivial rfl (h.user f rfl), ?_⟩
    split
    · exact ⟨(by intros; contradiction), h.user, fun _ _ => trivial, (by intros; contradiction), (by intros; contradiction)⟩
    · exact ⟨(by intros; contradiction), h.user, fun _ _ => trivial, (by intros; contradiction), (by intros; contradiction)⟩
  | pollLock f w =>
    obtain ⟨hfree, rfl, rfl⟩ := EventInner.lock_map hstep
    exact ⟨.lock hfree, fun _ => rfl, h.user, fun _ _ => trivial, (by intros; contradiction), (by intros; contradiction)⟩
  | pollTakeLocked f w =>
    cases hstep
    refine ⟨.store (.takeNotification f) trivial rfl (h.user f rfl), ?_⟩
    split
    · exact ⟨h.slow, h.user, fun _ _ => trivial, (by intros; contradiction), (by intros; contradiction)⟩
    · refine ⟨h.slow, h.user, fun g hg => ?_, (by intros; contradiction), (by intros; contradiction)⟩
      cases hg
      exact takeNotification_phase_ne s.waiters f
  | pollLoadLocked f w =>
    cases hstep
    refine ⟨.word (Or.inl rfl), ?_⟩
    split
    · exact ⟨h.slow, h.user, fun _ _ => trivial, (by intros; contradiction), (by intros; contradiction)⟩
    · exact ⟨h.slow, h.user, h.phase, (by intros; contradiction), (by intros; contradiction)⟩
  | pollFetchOr f w =>
    cases hstep
    exact ⟨.word (Or.inr (h.slow rfl)), h.slow, h.user, h.phase, (by intros; contradiction),
      fun _ => StateWord.waiters_or_hasWaiters _⟩
  | pollRecheck f w =>
    cases hstep
    refine ⟨.word (Or.inl rfl), ?_⟩
    split
    · exact ⟨h.slow, h.user, fun _ _ => trivial, (by intros; contradiction), (by intros; contradiction)⟩
    · exact ⟨h.slow, h.user, h.phase, (by intros; contradiction), h.flag⟩
  | pollClear f =>
    cases hstep
    exact ⟨.word (Or.inr (h.slow rfl)), h.slow, h.user, fun _ _ => trivial, (by intros; contradiction), (by intros; contradiction)⟩
  | pollRegister f w =>
    rw [step] at hstep
    split at hstep
    next => cases hstep
    next st hok =>
      cases hstep
      exact ⟨.store (.register f w) (h.phase f rfl) hok ⟨h.slow rfl, h.user f rfl⟩,
        h.slow, h.user, fun _ _ => trivial, (by intros; contradiction), (by intros; contradiction)⟩
  | pollUnlock f ready =>
    cases hstep
    exact ⟨.unlock (h.slow rfl), (by intros; contradiction), h.user, fun _ _ => trivial, (by intros; contradiction), (by intros; contradiction)⟩
  | pollReturn f ready =>
    cases hstep
    exact ⟨.leave (h.user f rfl), .free rfl rfl rfl rfl⟩
  | dropIsRegistered f =>
    cases hstep
    refine ⟨.word (Or.inl rfl), ?_⟩
    split
    next hreg =>
      refine ⟨(by intros; contradiction), h.user, fun g hg => ?_, (by intros; contradiction), (by intros; contradiction)⟩
      cases hg
      exact isRegistered_iff.mp hreg
    next hreg =>
      refine ⟨(by intros; contradiction), h.user, fun g hg => ?_, (by intros; contradiction), (by intros; contradiction)⟩
      cases hg
      intro hw
      exact hreg (isRegistered_iff.mpr (by rw [hw]; decide))
  | dropLock f =>
    obtain ⟨hfree, rfl, rfl⟩ := EventInner.lock_map hstep
    exact ⟨.lock hfree, fun _ => rfl, h.user, h.phase, (by intros; contradiction), (by intros; contradiction)⟩
  | dropUnregister f =>
    rw [step] at hstep
    split at hstep
    next => cases hstep
    next st hok =>
      cases hstep
      obtain ⟨l, hq⟩ := hs.queue
      have hleft : st.phase f ≠ .waiting := hq.unregister_phase (h.phase f rfl) hok
      refine ⟨.store (.unregister f) (h.phase f rfl) hok ⟨h.slow rfl, h.user f rfl⟩, ?_⟩
      split
      next he =>
        refine ⟨h.slow, h.user, fun g hg => ?_, fun _ => he, (by intros; contradiction)⟩
        cases hg
        exact hleft
      next =>
        refine ⟨h.slow, h.user, fun g hg => ?_, (by intros; contradiction), (by intros; contradiction)⟩
        cases hg
        exact hleft
  | dropClear f =>
    cases hstep
    exact ⟨.word (Or.inr (h.slow rfl)), h.slow, h.user, h.phase, (by intros; contradiction), (by intros; contradiction)⟩
  | dropUnlock f =>
    cases hstep
    exact ⟨.unlock (h.slow rfl), (by intros; contradiction), h.user, h.phase, (by intros; contradiction), (by intros; contradiction)⟩
  | dropReturn f =>
    cases hstep
    exact ⟨.free (h.user f rfl) (h.phase f rfl), .free rfl rfl rfl rfl⟩

/-- Every action is a call of an idle thread or a step. -/
theorem act_cases {debug : Bool} {t : T} {pc pc' : Pc W} {a : Act (Call W)}
    {s s' : EventInner W T} (hact : act debug t pc a s = some (s', pc')) :
    (∃ op, a = .call op ∧ pc = .idle ∧ call t s op = some (s', pc')) ∨
      a = .step ∧ step debug t s pc = some (s', pc') := by
  cases a with
  | call op =>
    cases pc with
    | idle => exact Or.inl ⟨op, rfl, rfl, hact⟩
    | _ => cases hact
  | step =>
    cases pc with
    | _ => exact Or.inr ⟨rfl, hact⟩

theorem act_atomic {debug : Bool} {t : T} {pc pc' : Pc W} {a : Act (Call W)}
    {s s' : EventInner W T} (hs : Sound s) (h : Local t pc s)
    (hact : act debug t pc a s = some (s', pc')) :
    Atomic KeepsWaiters debug t s pc.op s' ∧ Local t pc' s' := by
  rcases act_cases hact with ⟨op, -, rfl, hcall⟩ | ⟨-, hstep⟩
  · exact call_atomic hcall
  · exact step_atomic hs h hstep

/-- The shared state is consistent and every thread's assertion holds, in
every state that is reached. -/
theorem reach_local [DecidableEq T] {debug : Bool} {setId : Nat}
    {ok : Threads (EventInner W T) (Pc W) T → T × Act (Call W) → Prop}
    {σ : Threads (EventInner W T) (Pc W) T} (h : (manual W T debug setId).Reach ok σ) :
    Sound σ.shared ∧ ∀ t, Local t (σ.pc t) σ.shared := by
  refine threads_invariant (I := Sound) (L := Local) (sound_boxed setId)
    (fun t => .free rfl rfl rfl rfl) ?_ h
  intro σ t a s' p' hs hl _ hact
  obtain ⟨hatomic, hown⟩ := act_atomic hs (hl t) hact
  exact ⟨hatomic.sound hs, hown, fun u hu => (hl u).stable (hatomic.undisturbed hs hu)⟩

/-! ## The key invariant -/

/-- "`HAS_WAITERS` clear ⇒ `slow` is empty". -/
def KeyInvariant (s : EventInner W T) : Prop :=
  s.state.waiters = false → s.waiters.set.isEmpty = true

/-- The `fetch_and(!HAS_WAITERS)` of `poll_wait`. -/
def Pc.clears : Pc W → Bool
  | pollClear _ => true
  | _ => false

/-- The thread that moves does not take the clearing step of `poll_wait`
while an awaiter is registered. -/
def ClearsAlone (σ : Threads (EventInner W T) (Pc W) T) (l : T × Act (Call W)) : Prop :=
  (σ.pc l.1).clears = true → σ.shared.waiters.set.isEmpty = true

instance (σ : Threads (EventInner W T) (Pc W) T) (l : T × Act (Call W)) :
    Decidable (ClearsAlone σ l) :=
  inferInstanceAs (Decidable (_ → _))

/-- A set whose `HAS_WAITERS` bit is clear has nobody waiting. -/
theorem KeyInvariant.phase {s : EventInner W T} (hk : KeyInvariant s) (hs : Sound s)
    (hw : s.state.waiters = false) (f : Ptr) : s.waiters.phase f ≠ .waiting := by
  intro hf
  obtain ⟨l, hq⟩ := hs.queue
  obtain rfl := hq.isEmpty_iff.mp (hk hw)
  exact absurd ((hq.waiting f).mp hf) List.not_mem_nil

/-- A step that changes neither the set nor `HAS_WAITERS`. -/
theorem KeyInvariant.congr {s s' : EventInner W T} (hk : KeyInvariant s)
    (hset : s'.waiters.set = s.waiters.set) (hstate : KeepsWaiters s.state s'.state) :
    KeyInvariant s' := by
  intro hw
  rw [hset]
  exact hk (hstate.symm.trans hw)

/-- A call of the set that is not a registration. -/
theorem KeyInvariant.store {s : EventInner W T} {st' : Store W} (hk : KeyInvariant s)
    (debug : Bool) (op : Op W) (hs : Sound s) (hop : op.Allowed s.waiters)
    (happ : op.apply debug s.waiters = .ok st') (hreg : ∀ p w, op ≠ .register p w) :
    KeyInvariant { s with waiters := st' } :=
  fun hw => Atomic.isEmpty_store op hs hop happ hreg (hk hw)

theorem call_keyInvariant {t : T} {op : Call W} {pc' : Pc W} {s s' : EventInner W T}
    (hk : KeyInvariant s) (hcall : call t s op = some (s', pc')) : KeyInvariant s' := by
  cases op with
  | set | reset | tryWait =>
    cases hcall
    exact hk
  | wait f =>
    obtain ⟨-, -, rfl⟩ := EventInner.wait_map hcall
    exact hk.congr rfl rfl
  | poll f w | drop f =>
    obtain ⟨-, -, -, rfl⟩ := EventInner.enter_map hcall
    exact hk

/-- One step keeps the key invariant, the clearing step of `poll_wait` if the
set is empty. -/
theorem step_keyInvariant {debug : Bool} {t : T} {pc pc' : Pc W} {s s' : EventInner W T}
    (hk : KeyInvariant s) (hs : Sound s) (h : Local t pc s)
    (hclear : pc.clears = true → s.waiters.set.isEmpty = true)
    (hstep : step debug t s pc = some (s', pc')) : KeyInvariant s' := by
  cases pc with
  | idle => cases hstep
  | setLockAdvance | setLock | pollLock f w | dropLock f =>
    obtain ⟨-, -, rfl⟩ := EventInner.lock_map hstep
    exact hk
  | setFetchOr =>
    cases hstep
    exact hk.congr rfl (StateWord.waiters_or_isSet _)
  | resetFetchAnd =>
    cases hstep
    exact hk.congr rfl (StateWord.waiters_clear_isSet _)
  | setAdvance =>
    cases hstep
    exact hk.store debug .advanceGeneration hs trivial rfl (by rintro _ _ ⟨⟩)
  | setNotify =>
    rw [step] at hstep
    split at hstep
    next => cases hstep
    next waker st hok =>
      cases hstep
      refine hk.store debug .notifyOnePriorGeneration hs trivial ?_ (by rintro _ _ ⟨⟩)
      rw [Op.apply, hok]
      rfl
  | setClear waker =>
    cases hstep
    exact fun _ => h.empty rfl
  | pollTake f w | pollTakeLocked f w =>
    cases hstep
    exact hk.store debug (.takeNotification f) hs trivial rfl (by rintro _ _ ⟨⟩)
  | pollFetchOr f w =>
    cases hstep
    intro hw
    rw [StateWord.waiters_or_hasWaiters] at hw
    cases hw
  | pollClear f =>
    cases hstep
    exact fun _ => hclear rfl
  | pollRegister f w =>
    rw [step] at hstep
    split at hstep
    next => cases hstep
    next st hok =>
      cases hstep
      -- the bit was set before the registration
      intro hw
      have hflag : s.state.waiters = true := h.flag rfl
      exact absurd (hflag.symm.trans hw) (by decide)
  | dropUnregister f =>
    rw [step] at hstep
    split at hstep
    next => cases hstep
    next st hok =>
      cases hstep
      exact hk.store debug (.unregister f) hs (h.phase f rfl) hok (by rintro _ _ ⟨⟩)
  | dropClear f =>
    cases hstep
    exact fun _ => h.empty rfl
  | setUnlockAdvance | setUnlock waker | setWake w | setReturn | tryWaitLoad | tryWaitReturn b
  | pollLoad f w | pollLoadLocked f w | pollRecheck f w | pollUnlock f r | pollReturn f r
  | dropIsRegistered f | dropUnlock f | dropReturn f =>
    cases hstep
    exact hk

theorem reach_keyInvariant [DecidableEq T] {debug : Bool} {setId : Nat}
    {σ : Threads (EventInner W T) (Pc W) T}
    (h : (manual W T debug setId).Reach ClearsAlone σ) : KeyInvariant σ.shared := by
  refine h.invariant (I := fun σ => KeyInvariant σ.shared) (fun _ => rfl) ?_
  rintro σ ⟨t, a⟩ σ' hr hk hok hnext
  obtain ⟨hs, hl⟩ := reach_local hr
  rcases act_cases (threads_next.mp hnext).1 with ⟨op, -, -, hcall⟩ | ⟨-, hstep⟩
  · exact call_keyInvariant hk hcall
  · exact step_keyInvariant hk hs (hl t) hok hstep

end Manual

open Manual

/-- **The key invariant of `ManualResetEvent`**, in every run in which
`poll_wait` clears `HAS_WAITERS` after its re-check only while no awaiter is
registered: whenever the bit is clear, the set is empty and no awaiter
waits, also while the mutex is held. -/
theorem manual_key_invariant {W T : Type} [DecidableEq T] {debug : Bool} {setId : Nat}
    {σ : Threads (EventInner W T) (Pc W) T}
    (h : (manual W T debug setId).Reach ClearsAlone σ)
    (hclear : σ.shared.state.waiters = false) :
    σ.shared.waiters.set.isEmpty = true ∧ ∀ f, σ.shared.waiters.phase f ≠ .waiting := by
  have hk := reach_keyInvariant h
  exact ⟨hk hclear, hk.phase (reach_local h).1 hclear⟩

/-- A run in which an awaiter is registered and the bit is clear again
because a `set` has drained it. -/
theorem manual_key_invariant_drained :
    ∃ σ, (manual Nat Nat false 1).Reach ClearsAlone σ ∧ σ.shared.state.waiters = false ∧
      σ.shared.waiters.set.isEmpty = true ∧ ∀ f, σ.shared.waiters.phase f ≠ .waiting := by
  obtain ⟨σ, hrun, hclear⟩ : ∃ σ, ((manual Nat Nat false 1).restrict ClearsAlone).run
      ([(0, Act.call (Call.wait 8)), (0, .call (.poll 8 0))] ++ List.replicate 10 (0, Act.step) ++
        [(2, Act.call Call.set)] ++ List.replicate 8 (2, Act.step)) = some σ ∧
      σ.shared.state.waiters = false := ⟨_, rfl, by decide⟩
  have hreach := Machine.reach_of_run_restrict hrun
  exact ⟨σ, hreach, hclear, manual_key_invariant hreach hclear⟩

/-- **The invariant fails.** Thread 0 registers the future at 8. Thread 1
polls the future at 16 up to `fetch_or(HAS_WAITERS)`. Thread 2 calls `set`,
sets `IS_SET` and waits for the mutex. Thread 1 finds `IS_SET`, clears
`HAS_WAITERS` and releases the mutex, while the future at 8 waits. -/
theorem manual_loses_waiters :
    ¬ ∀ σ, (manual Nat Nat false 1).Reachable σ → σ.shared.slow = none →
      σ.shared.state.waiters = false → ∀ f, σ.shared.waiters.phase f ≠ .waiting := by
  intro hall
  obtain ⟨σ, hrun, hfree, hclear, hwait⟩ : ∃ σ, (manual Nat Nat false 1).run
      ([(0, Act.call (Call.wait 8)), (0, .call (.wait 16)), (0, .call (.poll 8 0))] ++
        List.replicate 10 (0, Act.step) ++ [(1, Act.call (Call.poll 16 1))] ++
        List.replicate 6 (1, Act.step) ++ [(2, Act.call Call.set), (2, .step)] ++
        List.replicate 3 (1, Act.step)) = some σ ∧
      σ.shared.slow = none ∧ σ.shared.state.waiters = false ∧
      σ.shared.waiters.phase 8 = .waiting := ⟨_, rfl, by decide, by decide, by decide⟩
  exact hall σ (Machine.reachable_of_run hrun) hfree hclear 8 hwait

end Folo.Events
