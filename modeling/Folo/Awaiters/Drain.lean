import Folo.Awaiters.Runs

/-!
# Draining the awaiters of prior generations

A drain starts with `advance_generation` and then calls
`notify_one_prior_generation` until it finds nobody. In between, awaiters are
created, registered, registered again and unregistered, and they consume their
notifications.

The queue falls into those who waited when the drain began and have not had
their turn, in front, and those who joined since, behind them (`Draining`). A
registration appends to the second part, so the first only shrinks: by its
head, when that is notified, or by an awaiter that is unregistered.
-/

namespace Folo.Awaiters

open Folo.Lib

variable {W : Type}

/-- What may happen between two calls of a drain, and the calls themselves. -/
def Op.InDrain : Op W → Prop
  | notifyOne | advanceGeneration => False
  | _ => True

instance : (op : Op W) → Decidable op.InDrain
  | .notifyOne | .advanceGeneration => inferInstanceAs (Decidable False)
  | .create _ | .register _ _ | .unregister _ | .notifyOnePriorGeneration | .takeNotification _ =>
    inferInstanceAs (Decidable True)

/-- Who has been notified by the drain, in that order, and who was unregistered
before that. -/
structure Drained where
  notified : List Ptr
  unregistered : List Ptr

def drained : Machine.Monitor (Store W) (Op W) Drained where
  start := ⟨[], []⟩
  update m st op st' :=
    match op with
    | .notifyOnePriorGeneration =>
      match st.set.head with
      | some p =>
        if st.phase p = .waiting ∧ st'.phase p = .notified then
          { m with notified := m.notified ++ [p] }
        else m
      | none => m
    | .unregister p =>
      if st.phase p = .waiting ∧ p ∉ m.notified then
        { m with unregistered := p :: m.unregistered }
      else m
    | _ => m

/-- The drain of `before` is in order: it has notified the first of those who
were not unregistered before their turn, and the next call notifies the next of
them, with its waker, and nobody else; it returns `none` when there are no more. -/
def InOrder (debug : Bool) (before : List Ptr) (st : Store W) (m : Drained) : Prop :=
  ∃ pending, (before.filter fun p => decide (p ∉ m.unregistered)) = m.notified ++ pending ∧
    ∃ waker st', st.notifyOnePriorGeneration debug = .ok (waker, st') ∧
      (waker = none ↔ pending = []) ∧ waker = pending.head?.bind st.waker ∧
      ∀ p, st.phase p ≠ .notified → (st'.phase p = .notified ↔ pending.head? = some p)

/-- The queue during a drain of `before`, opened with generation `g`. -/
structure Draining (before : List Ptr) (g : BitVec 64) (st : Store W) (m : Drained)
    (pending joined : List Ptr) : Prop where
  queue : Queue st (pending ++ joined)
  generation : st.set.generation = g
  prior : ∀ p ∈ pending, st.stamp p < g
  current : ∀ p ∈ joined, g ≤ st.stamp p
  split : (before.filter fun p => decide (p ∉ m.unregistered)) = m.notified ++ pending
  nodup : before.Nodup

namespace Draining

variable {before pending joined : List Ptr} {g : BitVec 64} {st st' : Store W} {m : Drained}

theorem nodup_split (h : Draining before g st m pending joined) :
    (m.notified ++ pending).Nodup := by
  rw [← h.split]
  exact h.nodup.filter _

/-- A step that moves nobody. -/
theorem stays (h : Draining before g st m pending joined) (hq : Queue st' (pending ++ joined))
    (hg : st'.set.generation = st.set.generation)
    (hstamp : ∀ p ∈ pending ++ joined, st'.stamp p = st.stamp p) :
    Draining before g st' m pending joined := by
  refine ⟨hq, hg.trans h.generation, fun p hp => ?_, fun p hp => ?_, h.split, h.nodup⟩
  · rw [hstamp p (List.mem_append_left _ hp)]
    exact h.prior p hp
  · rw [hstamp p (List.mem_append_right _ hp)]
    exact h.current p hp

/-- Who joins does so behind all others, in the current generation. -/
theorem join (h : Draining before g st m pending joined) {p : Ptr}
    (hq : Queue st' (pending ++ joined ++ [p])) (hf : Frame p st st')
    (hp : p ∉ pending ++ joined) (hstamp : st'.stamp p = st.set.generation) :
    Draining before g st' m pending (joined ++ [p]) := by
  rw [List.append_assoc] at hq
  refine ⟨hq, hf.generation.trans h.generation, fun a ha => ?_, fun a ha => ?_, h.split, h.nodup⟩
  · have hap : a ≠ p := fun e => hp (e ▸ List.mem_append_left _ ha)
    rw [hf.stamp a hap]
    exact h.prior a ha
  · rcases List.mem_append.mp ha with ha | ha
    · have hap : a ≠ p := fun e => hp (e ▸ List.mem_append_right _ ha)
      rw [hf.stamp a hap]
      exact h.current a ha
    · rw [List.mem_singleton.mp ha, hstamp, h.generation]
      exact BitVec.le_refl _

/-- Who is unregistered before its turn is no longer pending; whoever joined
since may leave again. -/
theorem unregister (h : Draining before g st m pending joined) {p : Ptr}
    (hq : Queue st' ((pending ++ joined).erase p))
    (hf : Frame p st st') : ∃ pending' joined', Draining before g st'
      (if p ∉ m.notified then { m with unregistered := p :: m.unregistered } else m)
      pending' joined' := by
  have hstamp : ∀ a ∈ (pending ++ joined).erase p, st'.stamp a = st.stamp a := by
    intro a ha
    refine hf.stamp a fun e => ?_
    rw [e] at ha
    exact h.queue.nodup.not_mem_erase ha
  have hsplit : (before.filter fun a => decide (a ∉ p :: m.unregistered)) =
      (m.notified ++ pending).erase p := by
    rw [h.nodup_split.erase_eq_filter, ← h.split, List.filter_filter]
    refine List.filter_congr fun a _ => ?_
    by_cases hap : a = p <;> simp [hap]
  by_cases hpend : p ∈ pending
  · have hnot : p ∉ m.notified := fun hn => List.disjoint_of_nodup_append h.nodup_split hn hpend
    rw [if_pos hnot]
    rw [List.erase_append_left _ hpend] at hq hstamp
    refine ⟨pending.erase p, joined, hq, hf.generation.trans h.generation, fun a ha => ?_,
      fun a ha => ?_, ?_, h.nodup⟩
    · rw [hstamp a (List.mem_append_left _ ha)]
      exact h.prior a (List.mem_of_mem_erase ha)
    · rw [hstamp a (List.mem_append_right _ ha)]
      exact h.current a ha
    · rw [hsplit, List.erase_append_right _ hnot]
  · rw [List.erase_append_right _ hpend] at hq hstamp
    refine ⟨pending, joined.erase p, hq, hf.generation.trans h.generation, fun a ha => ?_,
      fun a ha => ?_, ?_, h.nodup⟩
    · rw [hstamp a (List.mem_append_left _ ha)]
      exact h.prior a ha
    · rw [hstamp a (List.mem_append_right _ ha)]
      exact h.current a (List.mem_of_mem_erase ha)
    · split
      next hnot => rw [hsplit, List.erase_append_right _ hnot, List.erase_of_not_mem hpend]
      next => exact h.split

/-- The next of those who are pending has its turn. -/
theorem notify_cons {p : Ptr} (h : Draining before g st m (p :: pending) joined) (debug : Bool) :
    ∃ waker st', st.notifyOnePriorGeneration debug = .ok (some waker, st') ∧
      st.waker p = some waker ∧ Frame p st st' ∧ st'.phase p = .notified ∧
      Draining before g st' { m with notified := m.notified ++ [p] } pending joined := by
  have hq := h.queue
  rw [List.cons_append] at hq
  obtain ⟨waker, st', hst, hw, hq', hf, hph⟩ := hq.notifyOnePriorGeneration_prior
    (by rw [h.generation]; exact h.prior p List.mem_cons_self) debug
  have hne : ∀ a ∈ pending ++ joined, st'.stamp a = st.stamp a := by
    intro a ha
    refine hf.stamp a fun e => ?_
    rw [e] at ha
    exact (List.nodup_cons.mp hq.nodup).1 ha
  refine ⟨waker, st', hst, hw, hf, hph, hq', hf.generation.trans h.generation, fun a ha => ?_,
    fun a ha => ?_, ?_, h.nodup⟩
  · rw [hne a (List.mem_append_left _ ha)]
    exact h.prior a (List.mem_cons_of_mem _ ha)
  · rw [hne a (List.mem_append_right _ ha)]
    exact h.current a ha
  · rw [h.split, List.append_assoc]
    rfl

/-- Nobody is pending. -/
theorem notify_nil (h : Draining before g st m [] joined) (debug : Bool) :
    st.notifyOnePriorGeneration debug = .ok (none, st) := by
  have hq := h.queue
  rw [List.nil_append] at hq
  cases joined with
  | nil => exact hq.notifyOnePriorGeneration_nil debug
  | cons p joined =>
    refine hq.notifyOnePriorGeneration_current ?_ debug
    rw [h.generation]
    exact h.current p List.mem_cons_self

theorem inOrder (h : Draining before g st m pending joined) (debug : Bool) :
    InOrder debug before st m := by
  refine ⟨pending, h.split, ?_⟩
  cases pending with
  | nil =>
    refine ⟨none, st, h.notify_nil debug, iff_of_true rfl rfl, rfl, fun p hp => ?_⟩
    exact iff_of_false hp (by simp)
  | cons p pending =>
    obtain ⟨waker, st', hst, hw, hf, hph, -⟩ := h.notify_cons debug
    refine ⟨some waker, st', hst, iff_of_false (by simp) (by simp), hw.symm, fun a ha => ?_⟩
    rw [List.head?_cons, Option.some.injEq]
    constructor
    · intro hn
      by_contra hne
      rw [hf.phase a fun e => hne e.symm] at hn
      exact ha hn
    · rintro rfl
      exact hph

/-- The step lemma: what a drain does between its calls, and its calls. -/
theorem step (h : Draining before g st m pending joined) {debug : Bool} {op : Op W}
    (hop : op.Allowed st) (hin : op.InDrain) (happ : op.apply debug st = .ok st') :
    ∃ pending' joined', Draining before g st' (drained.update m st op st') pending' joined' := by
  cases op with
  | create p =>
    obtain rfl : st.create p = st' := Except.ok.inj happ
    refine ⟨pending, joined, h.stays (h.queue.create hop) rfl fun a ha => ?_⟩
    refine (create_frame st p).stamp a fun e => hop ?_
    rw [← e]
    exact (h.queue.waiting a).mpr ha
  | register p w =>
    cases hph : st.phase p with
    | idle =>
      obtain ⟨st₁, hst, hq, hf, hstamp, -⟩ := h.queue.register_idle hph debug w
      obtain rfl : st₁ = st' := Except.ok.inj (hst.symm.trans happ)
      have hp : p ∉ pending ++ joined := by
        rw [← h.queue.waiting, hph]
        decide
      exact ⟨pending, joined ++ [p], h.join hq hf hp hstamp⟩
    | waiting =>
      obtain ⟨st₁, hst, hq, hf, hstamp, -⟩ := h.queue.register_waiting hph debug w
      obtain rfl : st₁ = st' := Except.ok.inj (hst.symm.trans happ)
      refine ⟨pending, joined, h.stays hq hf.generation fun a _ => ?_⟩
      by_cases hap : a = p
      · rw [hap, hstamp]
      · exact hf.stamp a hap
    | notified => exact absurd hph hop
  | unregister p =>
    cases hph : st.phase p with
    | idle => exact absurd hph hop
    | waiting =>
      obtain ⟨st₁, hst, hq, hf, -⟩ := h.queue.unregister_waiting hph debug
      obtain rfl : st₁ = st' := Except.ok.inj (hst.symm.trans happ)
      obtain ⟨pending', joined', hdraining⟩ :=
        h.unregister hq hf
      refine ⟨pending', joined', ?_⟩
      simpa only [drained, hph, true_and] using hdraining
    | notified =>
      obtain rfl : st = st' := Except.ok.inj ((unregister_notified hph debug).symm.trans happ)
      refine ⟨pending, joined, ?_⟩
      have hsame : drained.update m st (.unregister p) st = m := by simp [drained, hph]
      rw [hsame]
      exact h
  | notifyOne => exact absurd hin id
  | notifyOnePriorGeneration =>
    cases pending with
    | nil =>
      rw [Op.apply, h.notify_nil debug] at happ
      obtain rfl : st = st' := Except.ok.inj happ
      refine ⟨[], joined, ?_⟩
      have hsame : drained.update m st .notifyOnePriorGeneration st = m := by
        cases hhead : st.set.head with
        | none => simp only [drained, hhead]
        | some p =>
          simp only [drained, hhead]
          refine if_neg ?_
          rintro ⟨hw, hn⟩
          rw [hw] at hn
          cases hn
      rw [hsame]
      exact h
    | cons p pending =>
      obtain ⟨waker, st₁, hst, -, -, hph, hdraining⟩ := h.notify_cons debug
      rw [Op.apply, hst] at happ
      obtain rfl : st₁ = st' := Except.ok.inj happ
      have hhead : st.set.head = some p := h.queue.links.head
      have hw : st.phase p = .waiting :=
        (h.queue.waiting p).mpr (List.mem_append_left _ List.mem_cons_self)
      refine ⟨pending, joined, ?_⟩
      simpa only [drained, hhead, hw, hph, and_self, if_true] using hdraining
  | advanceGeneration => exact absurd hin id
  | takeNotification p =>
    obtain rfl : (st.takeNotification p).2 = st' := Except.ok.inj happ
    obtain ⟨hset, hinner, -⟩ := takeNotification_snd st p
    refine ⟨pending, joined, h.stays (h.queue.takeNotification p) (by rw [hset]) fun a _ => ?_⟩
    rw [Store.stamp, Store.stamp, hinner a]

end Draining

/-- The drain that begins in a state of a run. -/
def drain (debug : Bool) (setId : Nat) (st : Store W) : Machine (Store W × Drained) (Op W) :=
  ((setMachine W debug setId).startAt st.advanceGeneration).observe drained

/-- Before the generation wraps, all who wait are of a prior one. -/
theorem RunInv.draining {p : Store W × Joins} {l : List Ptr} (h : RunInv p l)
    (hadv : p.2.advances + 1 < 2 ^ 64 - 1) :
    Draining l (p.1.set.generation + 1) p.1.advanceGeneration
      (⟨[], []⟩ : Drained) l [] := by
  refine ⟨?_, rfl, fun a ha => ?_, fun a ha => absurd ha List.not_mem_nil, ?_, h.queue.nodup⟩
  · rw [List.append_nil]
    exact h.queue.advanceGeneration
  · have hle := (h.sorted (by omega)).bound a ha
    rw [h.counter, BitVec.le_def, BitVec.toNat_ofNat, Nat.mod_eq_of_lt (by omega)] at hle
    rw [h.counter, BitVec.lt_def, BitVec.toNat_add, BitVec.toNat_ofNat]
    show (p.1.stamp a).toNat < ((1 + p.2.advances) % 2 ^ 64 + 1) % 2 ^ 64
    omega
  · exact List.filter_eq_self.mpr fun a _ => decide_eq_true List.not_mem_nil

/-- **The generation-limited drain**: from every state of a run in which the
counter has not wrapped, and whatever is registered, registered again and
unregistered in between, the drain notifies those who waited when it began, in
the order in which they joined, each once, but for those who are unregistered
before their turn. It is over after as many calls at most. -/
theorem drain_in_order {debug : Bool} {setId : Nat} {p : Store W × Joins}
    (h : ((setMachine W debug setId).observe joins).Reachable p)
    (hadv : p.2.advances + 1 < 2 ^ 64 - 1) :
    ∃ before : List Ptr, (∀ a, a ∈ before ↔ p.1.phase a = .waiting) ∧
      before.Pairwise (fun a b => p.2.joinedAt a < p.2.joinedAt b) ∧
      ∀ q, (drain debug setId p.1).Reach (fun _ op => op.InDrain) q →
        InOrder debug before q.1 q.2 ∧ q.2.notified.Nodup ∧
          q.2.notified.length ≤ before.length := by
  obtain ⟨l, hl⟩ := runInv_reachable h
  refine ⟨l, fun a => (hl.queue.waiting a).symm, hl.order, fun q hq => ?_⟩
  have hdraining : ∃ pending joined,
      Draining l (p.1.set.generation + 1) q.1 q.2 pending joined := by
    refine hq.invariant (I := fun q => ∃ pending joined,
      Draining l (p.1.set.generation + 1) q.1 q.2 pending joined) ⟨l, [], hl.draining hadv⟩ ?_
    rintro q op q' - ⟨pending, joined, hinv⟩ hin hnext
    obtain ⟨hmoved, hmon⟩ := Machine.observe_next.mp hnext
    have hset : (setMachine W debug setId).next q.1 op = some q'.1 := hmoved
    obtain ⟨hop, happ⟩ := setMachine_next.mp hset
    rw [hmon]
    exact hinv.step hop hin happ
  obtain ⟨pending, joined, hd⟩ := hdraining
  refine ⟨hd.inOrder debug, hd.nodup_split.of_append_left, ?_⟩
  have hlen := congrArg List.length hd.split
  rw [List.length_append] at hlen
  have hle := List.length_filter_le (fun p => decide (p ∉ q.2.unregistered)) l
  omega

/-- Three awaiters wait. The first has its turn and joins again, the second is
unregistered and joins again, the third has its turn, and nobody else. -/
theorem drain_in_order_rejoined :
    ∃ p q, ((setMachine Nat false 1).observe joins).run
        [.register 8 0, .register 16 1, .register 24 2] = some p ∧
      (drain false 1 p.1).run
        [.notifyOnePriorGeneration, .unregister 16, .register 16 3, .takeNotification 8,
          .register 8 4, .notifyOnePriorGeneration, .notifyOnePriorGeneration] = some q ∧
      q.2.notified = [8, 24] ∧ ∃ before, InOrder false before q.1 q.2 := by
  obtain ⟨p, q, hp, hq, hnotified, hadv⟩ :
      ∃ p q, ((setMachine Nat false 1).observe joins).run
        [.register 8 0, .register 16 1, .register 24 2] = some p ∧
      ((drain false 1 p.1).restrict fun _ op => op.InDrain).run
        [.notifyOnePriorGeneration, .unregister 16, .register 16 3, .takeNotification 8,
          .register 8 4, .notifyOnePriorGeneration, .notifyOnePriorGeneration] = some q ∧
      q.2.notified = [8, 24] ∧ p.2.advances + 1 < 2 ^ 64 - 1 :=
    ⟨_, _, rfl, rfl, by decide, by decide⟩
  obtain ⟨before, -, -, horder⟩ := drain_in_order (Machine.reachable_of_run hp) hadv
  exact ⟨p, q, hp, Machine.run_of_run_restrict hq, hnotified, before,
    (horder q (Machine.reach_of_run_restrict hq)).1⟩

/-- **The counter wraps**: an awaiter that joined in the last generation before
0 is not found by the drain that the wrap begins. -/
theorem drain_wraps : ∃ p, ((setMachine Nat false 1).observe joins).Reachable p ∧
    p.1.phase 8 = .waiting ∧
    (p.1.advanceGeneration.notifyOnePriorGeneration false).map Prod.fst = .ok none := by
  obtain ⟨p, hrun, hwait, hnone⟩ : ∃ p, ((setMachine Nat false 1).observe joins).runFrom
      ({ set := { head := none, tail := none, generation := BitVec.ofNat 64 (1 + (2 ^ 64 - 2)),
                  setId := 1 }
         mem := fun _ => Awaiter.new },
       { clock := 2 ^ 64 - 2, joinedAt := fun _ => 0, advances := 2 ^ 64 - 2 })
      [.register 8 0] = some p ∧ p.1.phase 8 = .waiting ∧
      (p.1.advanceGeneration.notifyOnePriorGeneration false).map Prod.fst = .ok none :=
    ⟨_, rfl, by decide, rfl⟩
  exact ⟨p, (advances_reachable (2 ^ 64 - 2)).runFrom _ hrun, hwait, hnone⟩

end Folo.Awaiters
