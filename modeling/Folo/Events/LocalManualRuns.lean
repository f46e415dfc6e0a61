import Folo.Events.LocalManual
import Mathlib.Algebra.Group.Nat.Defs

/-!
# The drain of `LocalManualResetEvent` over whole runs

The invariant speaks about every frame of the stack at once. A frame's
awaiters that are still due carry a stamp below the current generation, and
nested calls only raise the generation, so this survives whatever the wakers
do. When a round of the innermost loop finds nothing, the sorted queue has no
such awaiter left.
-/

namespace Folo.Events.LocalManual

open Folo.Lib Folo.Awaiters

variable {W : Type}

/-! ## One step -/

theorem next_cases {debug : Bool} {s s' : State W} {l : Label W}
    (h : next debug s l = some s') :
    (∃ rest waker c, l = .drain ∧ s.stack = .drain :: rest ∧
      s.event.drain debug = .ok (waker, c) ∧ s' = { s with
        event := c
        stack := match waker with | some w => .waking w :: rest | none => rest }) ∨
    (∃ w rest, l = .wakeReturn ∧ s.stack = .waking w :: rest ∧
      s' = { s with stack := .drain :: rest }) ∨
    callNext debug s l = some s' := by
  unfold next at h
  split at h
  next hstack =>
    split at h
    next w c hd =>
      cases h
      exact Or.inl ⟨_, some w, c, rfl, hstack, hd, rfl⟩
    next c hd =>
      cases h
      exact Or.inl ⟨_, none, c, rfl, hstack, hd, rfl⟩
    next => cases h
  next w rest hstack =>
    cases h
    exact Or.inr (Or.inl ⟨w, rest, rfl, hstack, rfl⟩)
  next =>
    split at h
    next => exact Or.inr (Or.inr h)
    next => cases h

/-- Everything a step does: to the awaiters, to the generation, to the queue,
to the futures and to the stack. -/
structure Spec (debug : Bool) (s : State W) (l : Label W) (s' : State W) : Prop where
  moves : ∃ o, Moves o s.event.waiters s'.event.waiters ∧
    (o = some .advanceGeneration ↔ opens s l = true) ∧
    (∀ op, o = some op → op.notifies = true → op = .notifyOnePriorGeneration) ∧
    ∀ f w, o = some (.register f w) → s.live f = true
  generation : s'.event.waiters.set.generation =
    s.event.waiters.set.generation + BitVec.ofNat 64 (if opens s l then 1 else 0)
  queue : ∀ q, Queue s.event.waiters q → ∃ q', Queue s'.event.waiters q' ∧
    (Sorted s.event.waiters q →
      (q ≠ [] → s.event.waiters.set.generation ≤ s'.event.waiters.set.generation) →
      Sorted s'.event.waiters q')
  live : ∀ f, s.live f = true → s'.live f = true ∨ s'.event.waiters.phase f ≠ .waiting
  stack : (opens s l = true ∧ s'.stack.length = s.stack.length + 1) ∨
    (opens s l = false ∧ s'.stack.length = s.stack.length) ∨
    (opens s l = false ∧ s'.stack.length + 1 = s.stack.length ∧
      s.event.waiters.notifyOnePriorGeneration debug = .ok (none, s'.event.waiters))

/-- The part of `Spec` about the set, for a step that makes one call of it. -/
theorem spec_store {st st' : Store W} (debug : Bool) (op : Op W) (hq : ∃ q, Queue st q)
    (hop : op.Allowed st) (happ : op.apply debug st = .ok st') :
    Moves (some op) st st' ∧
      st'.set.generation = st.set.generation + BitVec.ofNat 64 op.advances ∧
      ∀ q, Queue st q → ∃ q', Queue st' q' ∧
        (Sorted st q → (q ≠ [] → st.set.generation ≤ st'.set.generation) → Sorted st' q') := by
  have heff : ∀ q, Queue st q → ∃ q', Effect debug st q op st' q' := by
    intro q hq
    obtain ⟨st₁, q', he⟩ := op.effect debug hq hop
    obtain rfl : st₁ = st' := Except.ok.inj (he.returns.symm.trans happ)
    exact ⟨q', he⟩
  obtain ⟨q, hq⟩ := hq
  obtain ⟨q', he⟩ := heff q hq
  refine ⟨he.moves hq, he.generation, fun q hq => ?_⟩
  obtain ⟨q', he⟩ := heff q hq
  exact ⟨q', he.queue, he.sorted⟩

/-- A step that leaves the set alone. -/
theorem Spec.of_eq {debug : Bool} {s s' : State W} {l : Label W} (hl : opens s l = false)
    (hst : s'.event.waiters = s.event.waiters)
    (hlive : ∀ f, s.live f = true → s'.live f = true ∨ s'.event.waiters.phase f ≠ .waiting)
    (hstack : s'.stack.length = s.stack.length) : Spec debug s l s' where
  moves := ⟨none, hst ▸ .refl _, ⟨nofun, fun h => by rw [hl] at h; cases h⟩, nofun, nofun⟩
  generation := by
    rw [hst, hl]
    exact (BitVec.add_zero _).symm
  queue q hq := ⟨q, hst ▸ hq, fun hs _ => hst ▸ hs⟩
  live := hlive
  stack := Or.inr (Or.inl ⟨hl, hstack⟩)

/-- A step that makes one call of the set, other than `advance_generation`. -/
theorem Spec.of_op {debug : Bool} {s s' : State W} {l : Label W} (op : Op W)
    (hq : ∃ q, Queue s.event.waiters q) (hl : opens s l = false)
    (hop : op.Allowed s.event.waiters)
    (happ : op.apply debug s.event.waiters = .ok s'.event.waiters)
    (hadv : op ≠ .advanceGeneration)
    (hnot : op.notifies = true → op = .notifyOnePriorGeneration)
    (hreg : ∀ f w, op = .register f w → s.live f = true)
    (hlive : ∀ f, s.live f = true → s'.live f = true ∨ s'.event.waiters.phase f ≠ .waiting)
    (hstack : s'.stack.length = s.stack.length ∨ s'.stack.length + 1 = s.stack.length ∧
      s.event.waiters.notifyOnePriorGeneration debug = .ok (none, s'.event.waiters)) :
    Spec debug s l s' := by
  obtain ⟨hm, hg, hqueue⟩ := spec_store debug op hq hop happ
  have h0 : op.advances = 0 := by
    cases op with
    | advanceGeneration => exact absurd rfl hadv
    | _ => rfl
  refine ⟨⟨_, hm, ⟨fun h => absurd (Option.some.inj h) hadv, fun h => by rw [hl] at h; cases h⟩,
    fun op' h => ?_, fun f w h => ?_⟩, ?_, hqueue, hlive, ?_⟩
  · obtain rfl := Option.some.inj h
    exact hnot
  · exact hreg f w (Option.some.inj h)
  · rw [hg, h0, hl]
    rfl
  · rcases hstack with he | ⟨he, hnone⟩
    · exact Or.inr (Or.inl ⟨hl, he⟩)
    · exact Or.inr (Or.inr ⟨hl, he, hnone⟩)

/-- Every call of user code meets the specification. -/
theorem callNext_spec {debug : Bool} {s s' : State W} {l : Label W}
    (hq : ∃ q, Queue s.event.waiters q)
    (hlive : ∀ f, s.event.waiters.phase f = .waiting → s.live f = true)
    (h : callNext debug s l = some s') : Spec debug s l s' := by
  have hkeep : ∀ f, s.live f = true → s.live f = true ∨ s'.event.waiters.phase f ≠ .waiting :=
    fun f hf => Or.inl hf
  cases l with
  | set =>
    rw [callNext, openGate] at h
    by_cases hset : s.event.isSet = true
    · rw [if_pos hset] at h
      cases h
      exact .of_eq (by simp [opens, hset]) rfl hkeep rfl
    · rw [if_neg hset] at h
      cases h
      have hopen : opens s .set = true := by simpa [opens] using hset
      obtain ⟨hm, hg, hqueue⟩ := spec_store debug .advanceGeneration hq trivial rfl
      refine ⟨⟨_, hm, ⟨fun _ => hopen, fun _ => rfl⟩, fun op hop => ?_, nofun⟩, ?_, hqueue, hkeep,
        Or.inl ⟨hopen, rfl⟩⟩
      · cases hop
        nofun
      · rw [hg, hopen]
        rfl
  | reset =>
    cases h
    exact .of_eq rfl rfl hkeep rfl
  | tryWait =>
    cases h
    exact .of_eq rfl rfl hkeep rfl
  | wait f =>
    rw [callNext] at h
    split at h
    next => cases h
    next hf =>
      cases h
      have hop : (Op.create f : Op W).Allowed s.event.waiters := fun hw => hf (hlive f hw)
      refine .of_op _ hq rfl hop rfl nofun nofun nofun (fun g hg => Or.inl ?_) (Or.inl rfl)
      by_cases hgf : g = f
      · rw [hgf]
        exact Function.update_self ..
      · exact (Function.update_of_ne hgf ..).trans hg
  | poll f w =>
    rw [callNext] at h
    split at h
    next hf =>
      split at h
      next ready c hp =>
        cases h
        simp only [pollWait] at hp
        split at hp
        next htaken =>
          cases hp
          exact .of_op (.takeNotification f) hq rfl trivial rfl nofun nofun nofun hkeep
            (Or.inl rfl)
        next htaken =>
          have hne : s.event.waiters.phase f ≠ .notified :=
            fun hn => htaken (takeNotification_fst.mpr hn)
          split at hp
          next =>
            cases hp
            exact .of_eq rfl rfl hkeep rfl
          next =>
            cases hr : s.event.waiters.register debug f w with
            | error e =>
              rw [hr] at hp
              cases hp
            | ok st =>
              rw [hr] at hp
              cases hp
              refine .of_op (.register f w) hq rfl hne hr nofun nofun (fun g v hg => ?_) hkeep
                (Or.inl rfl)
              cases hg
              exact hf
      next => cases h
    next => cases h
  | drop f =>
    rw [callNext] at h
    split at h
    next hf =>
      split at h
      next c hd =>
        cases h
        have hother : c.waiters.phase f ≠ .waiting → ∀ g, s.live g = true →
            Function.update s.live f false g = true ∨ c.waiters.phase g ≠ .waiting := by
          intro hleft g hg
          by_cases hgf : g = f
          · rw [hgf]
            exact Or.inr hleft
          · exact Or.inl ((Function.update_of_ne hgf ..).trans hg)
        simp only [dropWait] at hd
        split at hd
        next hreg =>
          have hne := isRegistered_iff.mp hreg
          cases hu : s.event.waiters.unregister debug f with
          | error e =>
            rw [hu] at hd
            cases hd
          | ok st =>
            rw [hu] at hd
            cases hd
            obtain ⟨q, hqueue⟩ := hq
            exact .of_op (.unregister f) ⟨q, hqueue⟩ rfl hne hu nofun nofun nofun
              (hother (hqueue.unregister_phase hne hu)) (Or.inl rfl)
        next hreg =>
          cases hd
          refine .of_eq rfl rfl (hother fun hw => hreg (isRegistered_iff.mpr ?_)) rfl
          rw [hw]
          decide
      next => cases h
    next => cases h
  | drain => cases h
  | wakeReturn => cases h

theorem next_spec {debug : Bool} {s s' : State W} {l : Label W}
    (hq : ∃ q, Queue s.event.waiters q)
    (hlive : ∀ f, s.event.waiters.phase f = .waiting → s.live f = true)
    (h : next debug s l = some s') : Spec debug s l s' := by
  rcases next_cases h with ⟨rest, waker, c, rfl, hstack, hd, rfl⟩ | ⟨w, rest, rfl, hstack, rfl⟩ |
    hcall
  · simp only [drain] at hd
    cases hn : s.event.waiters.notifyOnePriorGeneration debug with
    | error e =>
      rw [hn] at hd
      cases hd
    | ok r =>
      rw [hn] at hd
      cases hd
      have happ : Op.notifyOnePriorGeneration.apply debug s.event.waiters = .ok r.2 := by
        rw [Op.apply, hn]
        rfl
      refine .of_op .notifyOnePriorGeneration hq rfl trivial happ (by rintro ⟨⟩) (fun _ => rfl)
        (by rintro _ _ ⟨⟩) (fun f hf => Or.inl hf) ?_
      obtain ⟨waker, st⟩ := r
      cases waker with
      | some w => exact Or.inl (by rw [hstack]; rfl)
      | none => exact Or.inr ⟨by rw [hstack]; rfl, hn⟩
  · exact .of_eq rfl rfl (fun f hf => Or.inl hf) (by rw [hstack]; rfl)
  · exact callNext_spec hq hlive hcall

/-! ## Whole runs -/

/-- The invariant of the observed runs. The parts about the order of stamps
hold until the generation wraps. -/
structure RunInv (p : State W × History) : Prop where
  live : ∀ f, p.1.event.waiters.phase f = .waiting → p.1.live f = true
  counter : p.1.event.waiters.set.generation = BitVec.ofNat 64 (1 + p.2.openings)
  queue : ∃ q, Queue p.1.event.waiters q ∧
    (p.2.openings < 2 ^ 64 - 1 → Sorted p.1.event.waiters q)
  due : ∀ d ∈ p.2.due, ∀ f, d f = true → p.1.event.waiters.phase f = .waiting ∧
    (p.2.openings < 2 ^ 64 - 1 →
      p.1.event.waiters.stamp f < p.1.event.waiters.set.generation)
  /-- An awaiter that waits has seen an opening or is of the current
  generation. -/
  waiting : ∀ f, p.1.event.waiters.phase f = .waiting →
    p.2.opened f = true ∨ p.1.event.waiters.stamp f = p.1.event.waiters.set.generation
  notified : ∀ f, p.1.event.waiters.phase f = .notified → p.2.opened f = true

theorem runInv_init (debug : Bool) (setId : Nat) :
    RunInv ((localManual W debug setId).observe history).init := by
  refine ⟨fun f hf => ?_, rfl, ⟨[], queue_new setId, fun _ => ⟨.nil, nofun⟩⟩, nofun,
    fun f hf => ?_, fun f hf => ?_⟩
  · cases hf
  · cases hf
  · cases hf

/-- Until it wraps the generation does not decrease, and it increases with
every opening. -/
theorem generation_mono {g g' : BitVec 64} {n k : Nat} (hg : g = BitVec.ofNat 64 (1 + n))
    (hg' : g' = g + BitVec.ofNat 64 k) (hn : n + k < 2 ^ 64 - 1) : g ≤ g' ∧ (0 < k → g < g') := by
  subst hg'
  rw [hg, ← BitVec.ofNat_add, BitVec.le_def, BitVec.lt_def, BitVec.toNat_ofNat,
    BitVec.toNat_ofNat, Nat.mod_eq_of_lt (by omega), Nat.mod_eq_of_lt (by omega)]
  omega

/-- One step keeps the invariant. -/
theorem runInv_step {debug : Bool} {setId : Nat} {p p' : State W × History} {l : Label W}
    (h : RunInv p) (hs : ((localManual W debug setId).observe history).next p l = some p') :
    RunInv p' := by
  obtain ⟨hnext, hmon⟩ := Machine.observe_next.mp hs
  obtain ⟨q, hq, hsort⟩ := h.queue
  have hspec : Spec debug p.1 l p'.1 := next_spec ⟨q, hq⟩ h.live hnext
  obtain ⟨o, hm, hadv, hnot, hreg⟩ := hspec.moves
  have hcount : p'.2.openings = p.2.openings + if opens p.1 l then 1 else 0 := by rw [hmon]; rfl
  have hmono : p'.2.openings < 2 ^ 64 - 1 → _ := fun hlt =>
    generation_mono h.counter hspec.generation (hcount ▸ hlt)
  have hbefore : p'.2.openings < 2 ^ 64 - 1 → p.2.openings < 2 ^ 64 - 1 := by omega
  have hopened : ∀ f, p'.2.opened f =
      if p.1.event.waiters.phase f ≠ .waiting ∧ p'.1.event.waiters.phase f = .waiting then false
      else p.2.opened f || opens p.1 l := fun f => by rw [hmon]; rfl
  refine ⟨fun f hf => ?_, ?_, ?_, fun d hd f hdf => ?_, fun f hf => ?_, fun f hf => ?_⟩
  · -- whoever waits belongs to a future that exists
    have hlive : p.1.live f = true := by
      by_cases hw : p.1.event.waiters.phase f = .waiting
      · exact h.live f hw
      · obtain ⟨-, w, ho⟩ := hm.joined f hw hf
        exact hreg f w ho
    exact (hspec.live f hlive).resolve_right fun hne => hne hf
  · rw [hspec.generation, h.counter, hcount, ← Nat.add_assoc, ← BitVec.ofNat_add]
  · obtain ⟨q', hq', hs'⟩ := hspec.queue q hq
    exact ⟨q', hq', fun hlt => hs' (hsort (hbefore hlt)) fun _ => (hmono hlt).1⟩
  · rw [hmon] at hd
    simp only [history, List.mem_map] at hd
    obtain ⟨d₀, hd₀, rfl⟩ := hd
    rw [Bool.and_eq_true, decide_eq_true_iff] at hdf
    obtain ⟨hd₀f, hw'⟩ := hdf
    refine ⟨hw', fun hlt => ?_⟩
    have hold : d₀ ∈ p.2.due → p'.1.event.waiters.stamp f < p'.1.event.waiters.set.generation := by
      intro hmem
      obtain ⟨hw, hstamp⟩ := h.due d₀ hmem f hd₀f
      rw [hm.stamp f hw hw']
      exact Nat.lt_of_lt_of_le (hstamp (hbefore hlt)) (hmono hlt).1
    by_cases hopen : opens p.1 l = true
    · rw [if_pos hopen] at hd₀
      rcases List.mem_cons.mp hd₀ with rfl | hmem
      · -- the frame that is new: the generation has just moved past everyone
        have hw : p.1.event.waiters.phase f = .waiting := by
          by_contra hn
          obtain ⟨-, w, ho⟩ := hm.joined f hn hw'
          rw [hadv.mpr hopen] at ho
          cases ho
        rw [hm.stamp f hw hw']
        refine Nat.lt_of_le_of_lt ((hsort (hbefore hlt)).bound f ((hq.waiting f).mp hw)) ?_
        exact (hmono hlt).2 (by rw [if_pos hopen]; exact Nat.one_pos)
      · exact hold hmem
    · rw [if_neg hopen] at hd₀
      split at hd₀
      · exact hold (List.mem_of_mem_tail hd₀)
      · exact hold hd₀
  · by_cases hw : p.1.event.waiters.phase f = .waiting
    · rw [hopened f, if_neg fun hc => hc.1 hw, hm.stamp f hw hf]
      by_cases hopen : opens p.1 l = true
      · exact Or.inl (by rw [hopen, Bool.or_true])
      · rw [hm.generation fun ho => hopen (hadv.mp ho)]
        exact (h.waiting f hw).imp_left fun ho => by rw [ho, Bool.true_or]
    · -- a new registration takes the current generation
      obtain ⟨hstamp, w, ho⟩ := hm.joined f hw hf
      right
      rw [hstamp, hm.generation fun ho' => by rw [ho] at ho'; cases ho']
  · have hnw : ¬ (p.1.event.waiters.phase f ≠ .waiting ∧
        p'.1.event.waiters.phase f = .waiting) := by
      rintro ⟨-, hw⟩
      exact absurd (hf.symm.trans hw) (by decide)
    rw [hopened f, if_neg hnw]
    have hseen : p.2.opened f = true := by
      by_cases hn : p.1.event.waiters.phase f = .notified
      · exact h.notified f hn
      · obtain ⟨hw, op, ho, hop, hprior⟩ := hm.notified f hn hf
        have hlt := hprior (hnot op ho hop)
        refine (h.waiting f hw).resolve_right fun he => ?_
        rw [he] at hlt
        exact absurd hlt (BitVec.lt_irrefl _)
    rw [hseen, Bool.true_or]

theorem reachable_runInv {debug : Bool} {setId : Nat} {p : State W × History}
    (h : ((localManual W debug setId).observe history).Reachable p) : RunInv p :=
  h.invariant (I := RunInv) (runInv_init debug setId) fun _ _ _ _ hi _ hs => runInv_step hi hs

/-- **The drain under re-entrancy.** With fewer than `2 ^ 64 - 1` openings of
the gate, when a round of the innermost `set` finds nothing more and it
returns, no awaiter that was registered when it opened the gate has been
waiting ever since, whatever its wakers did. And an awaiter is only notified
if a `set` has opened the gate since it registered. -/
theorem localManual_drain {debug : Bool} {setId : Nat} {p : State W × History}
    (h : ((localManual W debug setId).observe history).Reachable p) :
    (p.2.openings < 2 ^ 64 - 1 → ∀ s', next debug p.1 .drain = some s' →
      s'.stack.length < p.1.stack.length → ∀ d ∈ p.2.due.head?, ∀ f, d f = false) ∧
    ∀ f, p.1.event.waiters.phase f = .notified → p.2.opened f = true := by
  have hinv := reachable_runInv h
  refine ⟨fun hlt s' hnext hpop d hd f => ?_, hinv.notified⟩
  obtain ⟨q, hq, hsort⟩ := hinv.queue
  have hspec : Spec debug p.1 .drain s' := next_spec ⟨q, hq⟩ hinv.live hnext
  rcases hspec.stack with ⟨-, he⟩ | ⟨-, he⟩ | ⟨-, -, hnone⟩
  · omega
  · omega
  · rw [Bool.eq_false_iff]
    intro hdf
    obtain ⟨hw, hstamp⟩ := hinv.due d (List.mem_of_mem_head? hd) f hdf
    have hle := ((hsort hlt).notify_none hq hnone).2 f ((hq.waiting f).mp hw)
    exact absurd (hstamp hlt) (BitVec.not_lt.mpr hle)

/-- Two futures wait. The waker of the first resets the event, polls a third
future, which registers, and sets the event again: the nested `set` notifies
the second and the third, and both `set` calls return. -/
theorem localManual_drain_nested :
    ∃ p, ((localManual Nat false 1).observe history).run
        [.wait 8, .wait 16, .wait 24, .poll 8 0, .poll 16 1, .set, .drain, .reset, .poll 24 2,
          .set, .drain, .wakeReturn, .drain, .wakeReturn, .drain, .wakeReturn] = some p ∧
      p.1.stack.length = 1 ∧
      (p.2.openings < 2 ^ 64 - 1 → ∀ s', next false p.1 .drain = some s' →
        s'.stack.length < p.1.stack.length → ∀ d ∈ p.2.due.head?, ∀ f, d f = false) ∧
      ∀ f, p.1.event.waiters.phase f = .notified → p.2.opened f = true := by
  obtain ⟨p, hrun, hlen⟩ : ∃ p, ((localManual Nat false 1).observe history).run
      [.wait 8, .wait 16, .wait 24, .poll 8 0, .poll 16 1, .set, .drain, .reset, .poll 24 2,
        .set, .drain, .wakeReturn, .drain, .wakeReturn, .drain, .wakeReturn] = some p ∧
      p.1.stack.length = 1 := ⟨_, rfl, by decide⟩
  exact ⟨p, hrun, hlen, localManual_drain (Machine.reachable_of_run hrun)⟩

/-! ## The generation wraps -/

/-- The gate can be opened and closed any number of times with no awaiters. -/
theorem openings_reachable (n : Nat) :
    ((localManual Nat false 1).observe history).Reachable
      ({ event :=
          { isSet := false
            waiters :=
              { set := { head := none, tail := none, generation := BitVec.ofNat 64 (1 + n),
                         setId := 1 }
                mem := fun _ => Awaiter.new } }
         live := fun _ => false
         stack := [] },
       { due := [], opened := fun _ => decide (0 < n), openings := n }) := by
  induction n with
  | zero => exact Machine.Reachable.init _
  | succ n ih =>
    have hround := ih.runFrom [.set, .drain, .reset] rfl
    rw [← Nat.add_assoc, BitVec.ofNat_add]
    have hopened : (fun _ : Ptr => decide (0 < n + 1)) =
        fun _ => ((decide (0 < n) || true) || false) || false := by
      funext f
      simp
    rw [hopened]
    exact hround

/-- **The bound on the openings is needed.** After `2 ^ 64 - 2` of them a
future registers, and the next opening wraps the generation to 0: the drain
finds no awaiter of a prior generation and leaves the future waiting. -/
theorem localManual_wrap :
    ¬ ∀ p, ((localManual Nat false 1).observe history).Reachable p →
      ∀ s', next false p.1 .drain = some s' → s'.stack.length < p.1.stack.length →
        ∀ d ∈ p.2.due.head?, ∀ f, d f = false := by
  intro hall
  have hreach := openings_reachable (2 ^ 64 - 2)
  obtain ⟨p, hrun, hnext, hlen, hdue⟩ : ∃ p,
      ((localManual Nat false 1).observe history).runFrom
      ({ event :=
          { isSet := false
            waiters :=
              { set := { head := none, tail := none,
                         generation := BitVec.ofNat 64 (1 + (2 ^ 64 - 2)), setId := 1 }
                mem := fun _ => Awaiter.new } }
         live := fun _ => false
         stack := [] },
       { due := [], opened := fun _ => decide (0 < 2 ^ 64 - 2), openings := 2 ^ 64 - 2 })
        [.wait 8, .poll 8 0, .set] = some p ∧
      (next false p.1 .drain).map (fun s => s.stack.length) = some 0 ∧
      p.1.stack.length = 1 ∧ p.2.due.head?.map (fun d => d 8) = some true :=
    ⟨_, rfl, by decide, by decide, by decide⟩
  obtain ⟨s', hs', hzero⟩ := Option.map_eq_some_iff.mp hnext
  obtain ⟨d, hd, htrue⟩ := Option.map_eq_some_iff.mp hdue
  rw [hall p (hreach.runFrom _ hrun) s' hs' (by omega) d hd 8] at htrue
  cases htrue

end Folo.Events.LocalManual
