import Mathlib.Data.Fintype.Basic
import Folo.Events.ManualInv

/-!
# A `ManualResetEvent` wait is only released by an open gate

The `seen` monitor records for each wait future whether it has been polled
and whether `IS_SET` was set at some moment since its first poll. A future
that is ready must have seen the bit.

A future is ready because it loads the bit itself, or because a `set`
notified it. The drain of a `set` is limited to awaiters of a prior
generation, so it is the moment of `advance_generation` that separates the
awaiters it may notify from the others, and not the earlier moment of
`fetch_or(IS_SET)`. An awaiter that registers between the two, after a
`reset`, is notified although the gate was never open in its lifetime
(`manual_releases_unseen`).

Where no such registration takes place, every ready future has seen the bit
(`manual_wait_sound`).
-/

namespace Folo.Events

open Folo.Lib Folo.Awaiters

namespace Manual

variable {W T : Type}

/-- What the wait futures have seen. -/
structure Seen where
  /-- The future has been polled. -/
  polled : Ptr → Bool
  /-- `IS_SET` was set at some moment since its first poll. -/
  opened : Ptr → Bool

/-- Whether future `f` has been polled, after an action. -/
def Seen.polledAfter (m : Seen) (f : Ptr) : Act (Call W) → Bool
  | .call (.wait g) => m.polled f && decide (g ≠ f)
  | .call (.poll g _) => m.polled f || decide (g = f)
  | _ => m.polled f

def seen : Machine.Monitor (Threads (EventInner W T) (Pc W) T) (T × Act (Call W)) Seen where
  start := { polled := fun _ => false, opened := fun _ => false }
  update m _ l σ' :=
    { polled := fun f => m.polledAfter f l.2
      opened := fun f => m.polledAfter f l.2 && (m.opened f || σ'.shared.state.signal) }

/-- The points of `set` between its state update and `advance_generation`. -/
def Pc.publishing : Pc W → Bool
  | setLockAdvance | setAdvance => true
  | _ => false

/-- The future that is about to be registered. -/
def Pc.registering : Pc W → Option Ptr
  | pollRegister f _ => some f
  | _ => none

/-- The future that is being polled. -/
def Pc.polling : Pc W → Option Ptr
  | pollLoad f _ | pollTake f _ | pollLock f _ | pollTakeLocked f _ => some f
  | pollLoadLocked f _ | pollFetchOr f _ | pollRecheck f _ | pollClear f => some f
  | pollRegister f _ | pollUnlock f _ | pollReturn f _ => some f
  | _ => none

/-- The future whose poll is going to return `Ready`. -/
def Pc.ready : Pc W → Option Ptr
  | pollClear f => some f
  | pollUnlock f ready | pollReturn f ready => if ready then some f else none
  | _ => none

/-- The thread that moves does not newly register an awaiter that has not
seen the bit while some `set` is between its state update and
`advance_generation`. -/
def RegistersSettled (p : Threads (EventInner W T) (Pc W) T × Seen) (l : T × Act (Call W)) :
    Prop :=
  ∀ f ∈ (p.1.pc l.1).registering, p.1.shared.waiters.phase f = .waiting ∨ p.2.opened f = true ∨
    ∀ t, (p.1.pc t).publishing = false

instance [Fintype T] (p : Threads (EventInner W T) (Pc W) T × Seen) (l : T × Act (Call W)) :
    Decidable (RegistersSettled p l) :=
  inferInstanceAs (Decidable (∀ f ∈ (p.1.pc l.1).registering, _))

/-! ## The steps -/

theorem Pc.future_of_polling {pc : Pc W} {f : Ptr} (h : pc.polling = some f) :
    pc.future = some f := by
  cases pc <;> simp_all [polling, future]

theorem Pc.polling_of_ready {pc : Pc W} {f : Ptr} (h : pc.ready = some f) :
    pc.polling = some f := by
  cases pc <;> grind [ready, polling]

/-- A call polls the future it is made on, and nothing is ready yet. -/
theorem call_seen {t : T} {op : Call W} {pc' : Pc W} {s s' : EventInner W T}
    (hcall : call t s op = some (s', pc')) :
    pc'.publishing = false ∧ pc'.ready = none ∧
      (∀ f, pc'.polling = some f → ∃ w, op = .poll f w) ∧
      ∀ f, op = .wait f → s.live f = false ∧ s'.waiters.phase f = .idle := by
  cases op with
  | set | reset | tryWait =>
    cases hcall
    exact ⟨rfl, rfl, nofun, nofun⟩
  | wait f =>
    obtain ⟨hlive, rfl, rfl⟩ := EventInner.wait_map hcall
    refine ⟨rfl, rfl, nofun, fun g hg => ?_⟩
    cases hg
    exact ⟨hlive, create_phase ..⟩
  | poll f w =>
    obtain ⟨-, -, rfl, -⟩ := EventInner.enter_map hcall
    refine ⟨rfl, rfl, fun g hg => ?_, nofun⟩
    cases hg
    exact ⟨w, rfl⟩
  | drop f =>
    obtain ⟨-, -, rfl, -⟩ := EventInner.enter_map hcall
    exact ⟨rfl, rfl, nofun, nofun⟩

/-- `set` publishes the bit with its first step. -/
theorem step_publishing {debug : Bool} {t : T} {pc pc' : Pc W} {s s' : EventInner W T}
    (hstep : step debug t s pc = some (s', pc')) (hpc : pc'.publishing = true) :
    s'.waiters = s.waiters ∧ (pc.publishing = true ∨ s'.state.signal = true) := by
  cases pc with
  | setFetchOr =>
    cases hstep
    exact ⟨rfl, Or.inr (StateWord.signal_or_isSet _)⟩
  | setLockAdvance =>
    obtain ⟨-, -, rfl⟩ := EventInner.lock_map hstep
    exact ⟨rfl, Or.inl rfl⟩
  | setUnlock waker => cases waker <;> grind [step, Pc.publishing]
  | _ => grind [step, Pc.publishing, EventInner.lock]

/-- A poll becomes ready by loading the bit or by a notification. -/
theorem step_ready {debug : Bool} {t : T} {pc pc' : Pc W} {s s' : EventInner W T} {f : Ptr}
    (hstep : step debug t s pc = some (s', pc')) (hpc : pc'.ready = some f) :
    pc.ready = some f ∨ pc.polling = some f ∧
      (s'.state.signal = true ∨ s.waiters.phase f = .notified) := by
  cases pc with
  | pollLoad g w | pollLoadLocked g w | pollRecheck g w =>
    cases hstep
    split at hpc
    next hsig =>
      cases hpc
      exact Or.inr ⟨rfl, Or.inl hsig⟩
    next => cases hpc
  | pollTake g w | pollTakeLocked g w =>
    cases hstep
    split at hpc
    next htaken =>
      cases hpc
      exact Or.inr ⟨rfl, Or.inr (takeNotification_fst.mp htaken)⟩
    next => cases hpc
  | setUnlock waker => cases waker <;> grind [step, Pc.ready]
  | _ => grind [step, Pc.ready, EventInner.lock]

/-- A poll goes on with the same future. -/
theorem step_polling {debug : Bool} {t : T} {pc pc' : Pc W} {s s' : EventInner W T} {f : Ptr}
    (hstep : step debug t s pc = some (s', pc')) (hpc : pc'.polling = some f) :
    pc.polling = some f := by
  cases pc with
  | setUnlock waker => cases waker <;> grind [step, Pc.polling]
  | _ => grind [step, Pc.polling, EventInner.lock]

/-! ## Whole runs -/

/-- The invariant of the runs of the observed event. -/
structure SeenInv (p : Threads (EventInner W T) (Pc W) T × Seen) : Prop where
  opened : ∀ f, p.2.opened f = true → p.2.polled f = true
  polling : ∀ t f, (p.1.pc t).polling = some f → p.2.polled f = true
  /-- An awaiter that waits has seen the bit or is of the current
  generation. -/
  waiting : ∀ f, p.1.shared.waiters.phase f = .waiting → p.2.polled f = true ∧
    (p.2.opened f = true ∨ p.1.shared.waiters.stamp f = p.1.shared.waiters.set.generation)
  notified : ∀ f, p.1.shared.waiters.phase f = .notified → p.2.opened f = true
  /-- While a `set` has yet to advance the generation, every awaiter that
  waits has seen the bit. -/
  publishing : ∀ t, (p.1.pc t).publishing = true → ∀ f,
    p.1.shared.waiters.phase f = .waiting → p.2.opened f = true
  ready : ∀ t f, (p.1.pc t).ready = some f → p.2.opened f = true

variable [DecidableEq T]

theorem seenInv_step {debug : Bool} {setId : Nat}
    {p p' : Threads (EventInner W T) (Pc W) T × Seen} {l : T × Act (Call W)}
    (hs : Sound p.1.shared) (hl : ∀ t, Local t (p.1.pc t) p.1.shared) (h : SeenInv p)
    (hok : RegistersSettled p l)
    (hnext : ((manual W T debug setId).observe seen).next p l = some p') : SeenInv p' := by
  obtain ⟨t, a⟩ := l
  obtain ⟨hnext, hmon⟩ := Machine.observe_next.mp hnext
  obtain ⟨hact, hother⟩ := threads_next.mp hnext
  obtain ⟨hatomic, -⟩ := act_atomic hs (hl t) hact
  have hmoves := hatomic.moves hs
  -- the monitor after the step, and the one call that makes it forget
  have hpolled : ∀ f, p'.2.polled f = p.2.polledAfter f a := fun f => by rw [hmon]; rfl
  have hopened : ∀ f, p'.2.opened f =
      (p.2.polledAfter f a && (p.2.opened f || p'.1.shared.state.signal)) :=
    fun f => by rw [hmon]; rfl
  have hafter : ∀ f, p.2.polled f = true → a ≠ .call (.wait f) → p.2.polledAfter f a = true := by
    intro f hf ha
    cases a with
    | step => exact hf
    | call op =>
      cases op with
      | wait g =>
        have hgf : g ≠ f := fun e => ha (by rw [e])
        simp [Seen.polledAfter, hf, hgf]
      | poll g w => simp [Seen.polledAfter, hf]
      | _ => exact hf
  have hkeep : ∀ f, p.2.opened f = true → a ≠ .call (.wait f) → p'.2.opened f = true := by
    intro f hf ha
    rw [hopened, hafter f (h.opened f hf) ha, hf]
    rfl
  have hforget : ∀ f, a = .call (.wait f) →
      p.1.shared.live f = false ∧ p'.1.shared.waiters.phase f = .idle := by
    rintro f rfl
    rcases act_cases hact with ⟨op, hop, -, hcall⟩ | ⟨hstep, -⟩
    · cases hop
      exact (call_seen hcall).2.2.2 f rfl
    · cases hstep
  have hlive : ∀ f, p.1.shared.live f = true → a ≠ .call (.wait f) := by
    intro f hf ha
    have hdead := (hforget f ha).1
    rw [hf] at hdead
    cases hdead
  have hused : ∀ u f, (p.1.pc u).polling = some f → a ≠ .call (.wait f) :=
    fun u f hf => hlive f (hs.used f u ((hl u).user f (Pc.future_of_polling hf)))
  refine ⟨fun f hf => ?_, fun u f hf => ?_, fun f hf => ?_, fun f hf => ?_, fun u hu f hf => ?_,
    fun u f hf => ?_⟩
  · rw [hopened, Bool.and_eq_true] at hf
    rw [hpolled]
    exact hf.1
  · rw [hpolled]
    by_cases hut : u = t
    · subst hut
      rcases act_cases hact with ⟨op, rfl, -, hcall⟩ | ⟨rfl, hstep⟩
      · obtain ⟨w, rfl⟩ := (call_seen hcall).2.2.1 f hf
        simp [Seen.polledAfter]
      · exact h.polling u f (step_polling hstep hf)
    · rw [hother u hut] at hf
      exact hafter f (h.polling u f hf) (hused u f hf)
  · by_cases hw : p.1.shared.waiters.phase f = .waiting
    · have ha := hlive f (hs.live f hw)
      obtain ⟨hp, ho⟩ := h.waiting f hw
      rw [hpolled]
      refine ⟨hafter f hp ha, ?_⟩
      rcases ho with ho | hstamp
      · exact Or.inl (hkeep f ho ha)
      · by_cases hadv : (p.1.pc t).op = some .advanceGeneration
        · exact Or.inl (hkeep f (h.publishing t (by rw [(Pc.op_cases hadv).2.2 rfl]; rfl) f hw) ha)
        · right
          rw [hmoves.stamp f hw hf, hmoves.generation hadv, hstamp]
    · -- a new registration takes the current generation
      obtain ⟨hstamp, w, hop⟩ := hmoves.joined f hw hf
      have hpoll : (p.1.pc t).polling = some f := by
        rw [(Pc.op_cases hop).2.1 f w rfl]
        rfl
      have hadv : (p.1.pc t).op ≠ some .advanceGeneration := by
        rw [hop]
        nofun
      rw [hpolled, hmoves.generation hadv]
      exact ⟨hafter f (h.polling t f hpoll) (hused t f hpoll), Or.inr hstamp⟩
  · by_cases hn : p.1.shared.waiters.phase f = .notified
    · refine hkeep f (h.notified f hn) fun ha => ?_
      rw [(hforget f ha).2] at hf
      cases hf
    · -- the drain takes awaiters of a prior generation only
      obtain ⟨hw, op, hop, hnot, hprior⟩ := hmoves.notified f hn hf
      have hlt := hprior ((Pc.op_cases hop).1 hnot)
      have ho := (h.waiting f hw).2.resolve_right fun he => by
        rw [he] at hlt
        exact absurd hlt (BitVec.lt_irrefl _)
      exact hkeep f ho (hlive f (hs.live f hw))
  · by_cases hw : p.1.shared.waiters.phase f = .waiting
    · have ha := hlive f (hs.live f hw)
      by_cases hut : u = t
      · subst hut
        rcases act_cases hact with ⟨op, -, -, hcall⟩ | ⟨-, hstep⟩
        · rw [(call_seen hcall).1] at hu
          cases hu
        · rcases (step_publishing hstep hu).2 with hpub | hsig
          · exact hkeep f (h.publishing u hpub f hw) ha
          · rw [hopened, hafter f (h.waiting f hw).1 ha, hsig, Bool.or_true]
            rfl
      · rw [hother u hut] at hu
        exact hkeep f (h.publishing u hu f hw) ha
    · obtain ⟨-, w, hop⟩ := hmoves.joined f hw hf
      have hpc := (Pc.op_cases hop).2.1 f w rfl
      have hpoll : (p.1.pc t).polling = some f := by rw [hpc]; rfl
      have hreg : f ∈ (p.1.pc t).registering := by rw [hpc]; rfl
      by_cases hut : u = t
      · subst hut
        rcases act_cases hact with ⟨op, -, -, hcall⟩ | ⟨-, hstep⟩
        · rw [(call_seen hcall).1] at hu
          cases hu
        · rw [(step_publishing hstep hu).1] at hf
          exact absurd hf hw
      · rw [hother u hut] at hu
        rcases hok f hreg with hwait | ho | hnone
        · exact absurd hwait hw
        · exact hkeep f ho (hused t f hpoll)
        · rw [hnone u] at hu
          cases hu
  · by_cases hut : u = t
    · subst hut
      rcases act_cases hact with ⟨op, -, -, hcall⟩ | ⟨rfl, hstep⟩
      · rw [(call_seen hcall).2.1] at hf
        cases hf
      · rcases step_ready hstep hf with hr | ⟨hpoll, hsig | hn⟩
        · exact hkeep f (h.ready u f hr) nofun
        · rw [hopened, hafter f (h.polling u f hpoll) nofun, hsig, Bool.or_true]
          rfl
        · exact hkeep f (h.notified f hn) nofun
    · rw [hother u hut] at hf
      exact hkeep f (h.ready u f hf) (hused u f (Pc.polling_of_ready hf))

theorem reach_seenInv {debug : Bool} {setId : Nat}
    {p : Threads (EventInner W T) (Pc W) T × Seen}
    (h : ((manual W T debug setId).observe seen).Reach RegistersSettled p) : SeenInv p := by
  refine h.invariant (I := SeenInv) ?_ ?_
  · refine ⟨nofun, nofun, fun f hf => ?_, fun f hf => ?_, nofun, nofun⟩
    · cases hf
    · cases hf
  · intro q l q' hr hi hok hnext
    have hreach : (manual W T debug setId).Reachable q.1 :=
      Machine.observe_fst (hr.mono fun _ _ _ => trivial)
    obtain ⟨hs, hl⟩ := reach_local hreach
    exact seenInv_step hs hl hi hok hnext

end Manual

open Manual

/-- **Wait soundness**, in every run in which no awaiter that has not seen
`IS_SET` is newly registered while a `set` is between its state update and
`advance_generation`: a poll that returns `Ready` is the poll of a future
that has seen the bit since it was first polled. -/
theorem manual_wait_sound {W T : Type} [DecidableEq T] {debug : Bool} {setId : Nat}
    {p : Threads (EventInner W T) (Pc W) T × Seen}
    (h : ((manual W T debug setId).observe seen).Reach RegistersSettled p) {t : T} {f : Ptr}
    (ht : p.1.pc t = .pollReturn f true) : p.2.opened f = true :=
  (reach_seenInv h).ready t f (by rw [ht]; rfl)

/-- A run in which a future waits, is notified by a `set` and returns `Ready`
after a `reset`. -/
theorem manual_wait_sound_notified :
    ∃ p, ((manual Nat (Fin 2) false 1).observe seen).Reach RegistersSettled p ∧
      p.1.pc 0 = .pollReturn 8 true ∧ p.2.opened 8 = true := by
  obtain ⟨p, hrun, hpc⟩ : ∃ p,
      (((manual Nat (Fin 2) false 1).observe seen).restrict RegistersSettled).run
      ([(0, Act.call (Call.wait 8)), (0, .call (.poll 8 0))] ++ List.replicate 10 (0, Act.step) ++
        [(1, Act.call Call.set)] ++ List.replicate 14 (1, Act.step) ++
        [(1, Act.call Call.reset), (1, .step), (0, .call (.poll 8 1)), (0, .step), (0, .step)]) =
        some p ∧
      p.1.pc 0 = .pollReturn 8 true := ⟨_, rfl, rfl⟩
  have hreach := Machine.reach_of_run_restrict hrun
  exact ⟨p, hreach, hpc, manual_wait_sound hreach hpc⟩

/-- **A future is released without an open gate.** Thread 0 registers the
future at 8. Thread 1 calls `set`, sets `IS_SET` and is paused. Thread 0
resets the event, and only then polls the future at 16 for the first time.
Thread 1 advances the generation and notifies both. The future at 16 returns
`Ready` although the bit was clear all along since its first poll. -/
theorem manual_releases_unseen :
    ¬ ∀ p, ((manual Nat (Fin 2) false 1).observe seen).Reachable p →
      ∀ t f, p.1.pc t = .pollReturn f true → p.2.opened f = true := by
  intro hall
  obtain ⟨p, hrun, hpc, hseen⟩ : ∃ p, ((manual Nat (Fin 2) false 1).observe seen).run
      ([(0, Act.call (Call.wait 8)), (0, .call (.wait 16)), (0, .call (.poll 8 0))] ++
        List.replicate 10 (0, Act.step) ++ [(1, Act.call Call.set), (1, .step), (0, .call .reset),
          (0, .step), (0, .call (.poll 16 1))] ++ List.replicate 10 (0, Act.step) ++
        List.replicate 12 (1, Act.step) ++
        [(0, Act.call (Call.poll 16 1)), (0, .step), (0, .step)]) = some p ∧
      p.1.pc 0 = .pollReturn 16 true ∧ p.2.opened 16 = false := ⟨_, rfl, rfl, by decide⟩
  exact absurd (hall p (Machine.reachable_of_run hrun) 0 16 hpc) (by rw [hseen]; decide)

end Folo.Events
