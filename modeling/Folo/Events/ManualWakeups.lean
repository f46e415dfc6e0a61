import Folo.Events.ManualInv
import Mathlib.Algebra.Group.Nat.Defs

/-!
# `ManualResetEvent::set` leaves no waiter behind

The `due` monitor remembers, for each thread inside `set`, the awaiters that
were registered when it set `IS_SET` and have been waiting ever since. A
`set` that returns must have none left.

A thread in the drain loop has advanced the generation past the stamp of
every awaiter that is due to it. The queue is sorted, so once the head is not
of a prior generation none of them is left. The fast path is where the key
invariant matters: `HAS_WAITERS` clear means that nobody was registered.
After the clearing step of `poll_wait` that breaks the key invariant, a
second `set` takes the fast path past a registered awaiter
(`manual_loses_wakeup`).
-/

namespace Folo.Events

open Folo.Lib Folo.Awaiters

namespace Manual

variable {W T : Type}

/-- The state update of `set`. -/
def Pc.updates : Pc W → Bool
  | setFetchOr => true
  | _ => false

/-- The points of `set` after `advance_generation` while it drains. -/
def Pc.advanced : Pc W → Bool
  | setUnlockAdvance | setLock | setNotify => true
  | setClear waker | setUnlock waker => waker.isSome
  | setWake _ => true
  | _ => false

/-- The points of `set` at which it is done. -/
def Pc.drained : Pc W → Bool
  | setClear waker | setUnlock waker => waker.isNone
  | setReturn => true
  | _ => false

theorem Pc.updates_eq_false {pc : Pc W} (h : pc.advanced = true ∨ pc.drained = true) :
    pc.updates = false := by
  cases pc with
  | setFetchOr => rcases h with h | h <;> cases h
  | _ => rfl

/-- For each thread, the awaiters that were registered when its last `set`
updated the state and that have been waiting ever since. -/
def due [DecidableEq T] :
    Machine.Monitor (Threads (EventInner W T) (Pc W) T) (T × Act (Call W)) (T → Ptr → Bool) where
  start := fun _ _ => false
  update d σ l σ' := fun t f =>
    (d t f || decide (l.1 = t) && (σ.pc t).updates) &&
      decide (σ'.shared.waiters.phase f = .waiting)

/-- The thread that moves does not wrap the generation while awaiters wait. -/
def KeepsCount (σ : Threads (EventInner W T) (Pc W) T) (l : T × Act (Call W)) : Prop :=
  σ.pc l.1 matches .setAdvance → σ.shared.waiters.set.isEmpty = false →
    σ.shared.waiters.set.generation.toNat + 1 < 2 ^ 64

instance (σ : Threads (EventInner W T) (Pc W) T) (l : T × Act (Call W)) :
    Decidable (KeepsCount σ l) :=
  inferInstanceAs (Decidable (_ → _))

/-! ## The steps of `set` -/

theorem call_pc {t : T} {op : Call W} {pc' : Pc W} {s s' : EventInner W T}
    (hcall : call t s op = some (s', pc')) : pc'.advanced = false ∧ pc'.drained = false := by
  cases op with
  | set | reset | tryWait =>
    cases hcall
    exact ⟨rfl, rfl⟩
  | wait f =>
    obtain ⟨-, rfl, -⟩ := EventInner.wait_map hcall
    exact ⟨rfl, rfl⟩
  | poll f w | drop f =>
    obtain ⟨-, -, rfl, -⟩ := EventInner.enter_map hcall
    exact ⟨rfl, rfl⟩

/-- `set` starts to drain by advancing the generation. -/
theorem step_advanced {debug : Bool} {t : T} {pc pc' : Pc W} {s s' : EventInner W T}
    (hstep : step debug t s pc = some (s', pc')) (hpc : pc'.advanced = true) :
    pc.advanced = true ∨ pc = .setAdvance ∧ s'.waiters = s.waiters.advanceGeneration := by
  cases pc with
  | setAdvance =>
    cases hstep
    exact Or.inr ⟨rfl, rfl⟩
  | setUnlock waker =>
    cases waker with
    | none =>
      cases hstep
      cases hpc
    | some w => exact Or.inl rfl
  | _ => grind [step, Pc.advanced, EventInner.lock]

/-- `set` is done when it sees `HAS_WAITERS` clear, or no awaiter of a prior
generation. -/
theorem step_drained {debug : Bool} {t : T} {pc pc' : Pc W} {s s' : EventInner W T}
    (hstep : step debug t s pc = some (s', pc')) (hpc : pc'.drained = true) :
    pc.drained = true ∨ pc = .setFetchOr ∧ s.state.waiters = false ∧ s'.waiters = s.waiters ∨
      pc = .setNotify ∧ s.waiters.notifyOnePriorGeneration debug = .ok (none, s'.waiters) := by
  cases pc with
  | setFetchOr =>
    cases hstep
    split at hpc
    next => cases hpc
    next hw => exact Or.inr (Or.inl ⟨rfl, Bool.eq_false_iff.mpr hw, rfl⟩)
  | setNotify =>
    rw [step] at hstep
    split at hstep
    next => cases hstep
    next waker st hok =>
      cases hstep
      have hnone : waker = none := by
        split at hpc
        · exact Option.isNone_iff_eq_none.mp hpc
        · exact Option.isNone_iff_eq_none.mp hpc
      exact Or.inr (Or.inr ⟨rfl, hnone ▸ hok⟩)
  | setUnlock waker =>
    cases waker with
    | none => exact Or.inl rfl
    | some w =>
      cases hstep
      cases hpc
  | _ => grind [step, Pc.drained, EventInner.lock]

/-! ## Whole runs -/

/-- The invariant of the runs of the observed event. -/
structure DueInv (p : Threads (EventInner W T) (Pc W) T × (T → Ptr → Bool)) : Prop where
  sorted : ∃ l, Queue p.1.shared.waiters l ∧ Sorted p.1.shared.waiters l
  waiting : ∀ t f, p.2 t f = true → p.1.shared.waiters.phase f = .waiting
  /-- The generation is past the stamp of an awaiter that a draining `set`
  has yet to notify. -/
  advanced : ∀ t, (p.1.pc t).advanced = true → ∀ f, p.2 t f = true →
    p.1.shared.waiters.stamp f < p.1.shared.waiters.set.generation
  drained : ∀ t, (p.1.pc t).drained = true → ∀ f, p.2 t f = false

/-- Only `set` changes the generation, and `KeepsCount` keeps it from
wrapping. -/
theorem act_generation {debug : Bool} {t : T} {a : Act (Call W)}
    {σ : Threads (EventInner W T) (Pc W) T} {s' : EventInner W T} {pc' : Pc W}
    (hs : Sound σ.shared) (hl : Local t (σ.pc t) σ.shared) (hcount : KeepsCount σ (t, a))
    (hact : act debug t (σ.pc t) a σ.shared = some (s', pc'))
    (hne : σ.shared.waiters.set.isEmpty = false) :
    σ.shared.waiters.set.generation ≤ s'.waiters.set.generation ∧
      (σ.pc t = .setAdvance → σ.shared.waiters.set.generation < s'.waiters.set.generation) := by
  by_cases hpc : σ.pc t = .setAdvance
  · have hlt : σ.shared.waiters.set.generation < s'.waiters.set.generation := by
      have hbound := hcount (by rw [hpc]) hne
      rw [hpc] at hact
      rcases act_cases hact with ⟨op, -, hidle, -⟩ | ⟨-, hstep⟩
      · cases hidle
      · cases hstep
        have hone : (1 : BitVec 64).toNat = 1 := rfl
        simp only [Store.advanceGeneration, BitVec.lt_def, BitVec.toNat_add, hone]
        omega
    exact ⟨BitVec.le_of_lt hlt, fun _ => hlt⟩
  · have hop : (σ.pc t).op ≠ some .advanceGeneration := by
      intro h
      cases hp : σ.pc t <;> simp_all [Pc.op]
    have hgen := ((act_atomic hs hl hact).1.moves hs).generation hop
    rw [hgen]
    exact ⟨BitVec.le_refl _, fun h => absurd h hpc⟩

variable [DecidableEq T]

/-- An awaiter that is due waits, and was due before unless its thread has
just updated the state. -/
theorem due_update {d : T → Ptr → Bool} {σ σ' : Threads (EventInner W T) (Pc W) T}
    {l : T × Act (Call W)} {t : T} {f : Ptr} (h : due.update d σ l σ' t f = true) :
    σ'.shared.waiters.phase f = .waiting ∧
      (d t f = true ∨ l.1 = t ∧ (σ.pc t).updates = true) := by
  simpa [due, and_comm] using h

/-- One step of the observed event keeps the invariant. -/
theorem dueInv_step {debug : Bool} {setId : Nat}
    {p p' : Threads (EventInner W T) (Pc W) T × (T → Ptr → Bool)} {l : T × Act (Call W)}
    (hs : Sound p.1.shared) (hl : ∀ t, Local t (p.1.pc t) p.1.shared)
    (hk : KeyInvariant p.1.shared) (h : DueInv p) (hcount : KeepsCount p.1 l)
    (hnext : ((manual W T debug setId).observe due).next p l = some p') : DueInv p' := by
  obtain ⟨t, a⟩ := l
  obtain ⟨hnext, hmon⟩ := Machine.observe_next.mp hnext
  obtain ⟨hact, hother⟩ := threads_next.mp hnext
  obtain ⟨hatomic, -⟩ := act_atomic hs (hl t) hact
  have hmoves := hatomic.moves hs
  obtain ⟨q, hq, hsort⟩ := h.sorted
  -- someone waits, so the set is not empty
  have hnonempty : ∀ f, p.1.shared.waiters.phase f = .waiting →
      p.1.shared.waiters.set.isEmpty = false := by
    intro f hf
    rw [Bool.eq_false_iff]
    intro he
    obtain rfl := hq.isEmpty_iff.mp he
    exact List.not_mem_nil ((hq.waiting f).mp hf)
  have hgen : ∀ f, p.1.shared.waiters.phase f = .waiting → _ :=
    fun f hf => act_generation hs (hl t) hcount hact (hnonempty f hf)
  have hdue : ∀ u f, p'.2 u f = true → p'.1.shared.waiters.phase f = .waiting ∧
      (p.2 u f = true ∨ t = u ∧ (p.1.pc u).updates = true) := by
    intro u f hf
    rw [hmon] at hf
    exact due_update hf
  -- what was due stays ahead of its drain
  have hkept : ∀ u f, p.2 u f = true → p'.1.shared.waiters.phase f = .waiting →
      (p.1.pc u).advanced = true →
      p'.1.shared.waiters.stamp f < p'.1.shared.waiters.set.generation := by
    intro u f hf hw' hadv
    have hw := h.waiting u f hf
    rw [hmoves.stamp f hw hw']
    exact Nat.lt_of_lt_of_le (h.advanced u hadv f hf) (hgen f hw).1
  refine ⟨hatomic.sorted hs ⟨q, hq, hsort⟩ fun hne => ?_, fun u f hf => (hdue u f hf).1,
    fun u hu f hf => ?_, fun u hu f => ?_⟩
  · exact (act_generation hs (hl t) hcount hact hne).1
  · obtain ⟨hw', hold⟩ := hdue u f hf
    by_cases htu : u = t
    · subst htu
      rcases act_cases hact with ⟨op, -, -, hcall⟩ | ⟨-, hstep⟩
      · rw [(call_pc hcall).1] at hu
        cases hu
      · rcases step_advanced hstep hu with hadv | ⟨hpc, hst⟩
        · refine hkept u f (hold.resolve_right fun hup => ?_) hw' hadv
          rw [Pc.updates_eq_false (Or.inl hadv)] at hup
          cases hup.2
        · -- the generation moves past every stamp
          have hupd : (p.1.pc u).updates = false := by rw [hpc]; rfl
          have hw := h.waiting u f (hold.resolve_right fun hup => by simp [hupd] at hup)
          rw [hmoves.stamp f hw hw']
          exact Nat.lt_of_le_of_lt (hsort.bound f ((hq.waiting f).mp hw)) ((hgen f hw).2 hpc)
    · rw [hother u htu] at hu
      exact hkept u f (hold.resolve_right fun hup => htu hup.1.symm) hw' hu
  · rw [Bool.eq_false_iff]
    intro hf
    obtain ⟨hw', hold⟩ := hdue u f hf
    by_cases htu : u = t
    · subst htu
      rcases act_cases hact with ⟨op, -, -, hcall⟩ | ⟨-, hstep⟩
      · rw [(call_pc hcall).2] at hu
        cases hu
      · rcases step_drained hstep hu with hdr | ⟨hpc, hclear, hsame⟩ | ⟨hpc, hnone⟩
        · rw [h.drained u hdr f, Pc.updates_eq_false (Or.inr hdr)] at hold
          simp at hold
        · -- the fast path: nobody was registered
          rw [hsame] at hw'
          exact hk.phase hs hclear f hw'
        · -- the head is current, so nobody is left from a prior generation
          have hupd : (p.1.pc u).updates = false := by rw [hpc]; rfl
          have hold' := hold.resolve_right fun hup => by simp [hupd] at hup
          have hlt := h.advanced u (by rw [hpc]; rfl) f hold'
          have hle := (hsort.notify_none hq hnone).2 f ((hq.waiting f).mp (h.waiting u f hold'))
          exact absurd hlt (BitVec.not_lt.mpr hle)
    · rw [hother u htu] at hu
      have hold' := hold.resolve_right fun hup => htu hup.1.symm
      rw [h.drained u hu f] at hold'
      cases hold'

/-- The condition of the runs below: the clearing step of `poll_wait` is only
taken while no awaiter is registered, and the generation does not wrap while
awaiters wait. -/
def Drains (σ : Threads (EventInner W T) (Pc W) T) (l : T × Act (Call W)) : Prop :=
  ClearsAlone σ l ∧ KeepsCount σ l

instance (σ : Threads (EventInner W T) (Pc W) T) (l : T × Act (Call W)) :
    Decidable (Drains σ l) :=
  inferInstanceAs (Decidable (_ ∧ _))

theorem reach_dueInv {debug : Bool} {setId : Nat}
    {p : Threads (EventInner W T) (Pc W) T × (T → Ptr → Bool)}
    (h : ((manual W T debug setId).observe due).Reach (fun q l => Drains q.1 l) p) :
    DueInv p := by
  refine h.invariant (I := DueInv) ?_ ?_
  · refine ⟨⟨[], queue_new setId, List.Pairwise.nil, fun a ha => ?_⟩, fun t f hf => ?_,
      fun t ht => ?_, fun t ht => ?_⟩
    · exact absurd ha List.not_mem_nil
    · cases hf
    · cases ht
    · cases ht
  · intro q l q' hr hi hok hnext
    have hreach := Machine.observe_fst hr
    obtain ⟨hs, hl⟩ := reach_local hreach
    have hk := reach_keyInvariant (hreach.mono fun _ _ hd => hd.1)
    exact dueInv_step hs hl hk hi hok.2 hnext

end Manual

open Manual

/-- **No lost wakeup**, in every run in which `poll_wait` clears
`HAS_WAITERS` only while no awaiter is registered and the generation does not
wrap while awaiters wait: when a `set` returns, no awaiter that was
registered when it updated the state has been waiting ever since. -/
theorem manual_no_lost_wakeup {W T : Type} [DecidableEq T] {debug : Bool} {setId : Nat}
    {p : Threads (EventInner W T) (Pc W) T × (T → Ptr → Bool)}
    (h : ((manual W T debug setId).observe due).Reach (fun q l => Drains q.1 l) p) {t : T}
    (ht : p.1.pc t = .setReturn) (f : Ptr) : p.2 t f = false :=
  (reach_dueInv h).drained t (by rw [ht]; rfl) f

/-- A run in which a `set` drains a registered awaiter and returns. -/
theorem manual_no_lost_wakeup_one :
    ∃ p, ((manual Nat Nat false 1).observe due).Reach (fun q l => Drains q.1 l) p ∧
      p.1.pc 2 = .setReturn ∧ p.2 2 8 = false := by
  obtain ⟨p, hrun, hpc⟩ : ∃ p,
      (((manual Nat Nat false 1).observe due).restrict fun q l => Drains q.1 l).run
      ([(0, Act.call (Call.wait 8)), (0, .call (.poll 8 0))] ++ List.replicate 10 (0, Act.step) ++
        [(2, Act.call Call.set)] ++ List.replicate 13 (2, Act.step)) = some p ∧
      p.1.pc 2 = .setReturn := ⟨_, rfl, rfl⟩
  have hreach := Machine.reach_of_run_restrict hrun
  exact ⟨p, hreach, hpc, manual_no_lost_wakeup hreach hpc 8⟩

/-- **A wakeup is lost.** As in `manual_loses_waiters`, the bit is clear while
the future at 8 waits. A second `set`, by thread 3, sees it clear and
returns. -/
theorem manual_loses_wakeup :
    ¬ ∀ p, ((manual Nat Nat false 1).observe due).Reachable p → ∀ t, p.1.pc t = .setReturn →
      ∀ f, p.2 t f = false := by
  intro hall
  obtain ⟨p, hrun, hpc, hdue⟩ : ∃ p, ((manual Nat Nat false 1).observe due).run
      ([(0, Act.call (Call.wait 8)), (0, .call (.wait 16)), (0, .call (.poll 8 0))] ++
        List.replicate 10 (0, Act.step) ++ [(1, Act.call (Call.poll 16 1))] ++
        List.replicate 6 (1, Act.step) ++ [(2, Act.call Call.set), (2, .step)] ++
        List.replicate 3 (1, Act.step) ++ [(3, Act.call Call.set), (3, .step)]) = some p ∧
      p.1.pc 3 = .setReturn ∧ p.2 3 8 = true := ⟨_, rfl, rfl, by decide⟩
  exact absurd hdue (by rw [hall p (Machine.reachable_of_run hrun) 3 hpc 8]; decide)

end Folo.Events
