import Folo.FutureDeque.Wakes

/-!
# No wake of a pending slot is lost: the runs

The steps of the threads that use wakers keep `WakeInv`, and with the steps
of the owner so does every run (`deque_no_lost_wake`).
-/

namespace Folo.FutureDeque

open Folo.Lib

variable {P V W : Type}

namespace WakeInv

/-! ## Steps of the waker users -/

/-- A step of `w` that leaves the flags and the deque alone. -/
theorem userKeep {σ σ' : Threads (Core P V W) (Pc P V) (Option W)} {μ : Wakes P} {w : W}
    (h : WakeInv (σ, μ)) (hother : ∀ u, u ≠ some w → σ'.pc u = σ.pc u)
    (hslots : σ'.shared.slots = σ.shared.slots)
    (hparent : σ'.shared.sharedParent = σ.shared.sharedParent)
    (hflag : ∀ p ∈ pendings σ.shared.slots,
      σ'.shared.metas.flag p = σ.shared.metas.flag p)
    (htouch : ∀ p, Untouched σ.shared p → Untouched σ'.shared p)
    (hway : ∀ p, (σ.pc (some w)).OnItsWay μ.supplied p →
      (σ'.pc (some w)).OnItsWay μ.supplied p ∨ (σ.pc none).YetToVisit σ.shared.slots p) :
    WakeInv (σ', μ) := by
  have howner : σ'.pc none = σ.pc none := hother none nofun
  refine ⟨by dsimp only; rw [howner, hparent]; exact h.parent, fun p hp => ?_⟩
  dsimp only at hp
  rw [hslots] at hp
  refine (h.heard p hp).keep (hflag p hp) rfl (htouch p) fun _ hn => ?_
  rw [Notified, howner, hslots]
  rcases hn with hn | hn | ⟨u, hn⟩
  · exact Or.inl hn
  · exact Or.inr (Or.inl hn)
  · by_cases hu : u = w
    · subst hu
      rcases hway p hn with hn | hn
      · exact Or.inr (Or.inr ⟨u, hn⟩)
      · exact Or.inr (Or.inl hn)
    · refine Or.inr (Or.inr ⟨u, ?_⟩)
      rw [hother (some u) fun heq => hu (Option.some.inj heq)]
      exact hn

end WakeInv

/-- Nobody can be in a call on a waker that nobody has. -/
theorem Untouched.of_borrow [DecidableEq W] {c c' : Core P V W} {t : Option W} {p q : MetaPtr}
    (h : Untouched c q) (hb : c.borrow t p = some c') : Untouched c' q := by
  rw [Core.borrow] at hb
  split at hb
  next hlent =>
    cases hb
    have hqp : q ≠ p := by
      rintro rfl
      rcases hlent with hlent | hlent
      · rw [h.held] at hlent
        cases hlent
      · exact h.context hlent
    exact ⟨h.held, h.owned, (Function.update_of_ne hqp ..).trans h.borrowed, h.context⟩
  next => cases hb

theorem Untouched.of_own {c c' : Core P V W} {t : Option W} {p q : MetaPtr}
    (h : Untouched c q) (ho : c.own t p = some c') : Untouched c' q := by
  rw [Core.own] at ho
  split at ho
  next hfree =>
    cases ho
    have hqp : q ≠ p := by
      rintro rfl
      have hheld := hfree.1
      rw [h.held] at hheld
      cases hheld
    exact ⟨(Function.update_of_ne hqp ..).trans h.held, (Function.update_of_ne hqp ..).trans h.owned,
      h.borrowed, h.context⟩
  next => cases ho

/-- The end of `wake_by_ref_raw_waker` changes only who borrows a waker. -/
theorem Core.woken_eq [DecidableEq W] (c : Core P V W) (t : Option W) (p : MetaPtr) (mode : Mode) :
    ∃ borrowed, (c.woken t p mode).1 = { c with borrowed := borrowed } ∧
      ∀ q, c.borrowed q = [] → borrowed q = [] := by
  cases mode with
  | byRef =>
    refine ⟨_, rfl, fun q hq => ?_⟩
    rw [Function.update_apply]
    split
    next hqp => rw [← hqp, hq, List.erase_nil]
    next => exact hq
  | byValue => exact ⟨c.borrowed, rfl, fun q hq => hq⟩

/-- A thread in a wake has the waker, borrowed or for itself. -/
theorem Local.not_untouched {w : W} {pc : Pc P V} {c : Core P V W} {p : MetaPtr}
    (hl : Local (some w) pc c) (hpc : pc.owns = some p ∨ pc.borrows = some p) :
    ¬ Untouched c p := by
  intro hu
  rcases hpc with hpc | hpc
  · have hmem := hl.owns p hpc
    rw [hu.owned] at hmem
    cases hmem
  · have hmem := hl.borrows p hpc
    rw [hu.borrowed] at hmem
    cases hmem

namespace WakeInv

variable [DecidableEq W]

theorem callWaker [DecidableEq P] {σ σ' : Threads (Core P V W) (Pc P V) (Option W)}
    {μ : Wakes P} {w : W} (h : WakeInv (σ, μ)) (hother : ∀ u, u ≠ some w → σ'.pc u = σ.pc u)
    {last : Option (Returned V)} {op : Call P V} (hpc : σ.pc (some w) = .idle last)
    (hcall : callWaker (some w) σ.shared op = some (σ'.shared, σ'.pc (some w))) :
    WakeInv (σ', μ.update σ.shared.metas (.idle last) (.call op) (σ'.pc (some w))) := by
  have hway : ∀ p, (σ.pc (some w)).OnItsWay μ.supplied p →
      (σ'.pc (some w)).OnItsWay μ.supplied p ∨ (σ.pc none).YetToVisit σ.shared.slots p := by
    rw [hpc]
    exact fun p hp => hp.elim
  have hborrow : ∀ {p}, σ.shared.borrow (some w) p = some σ'.shared → WakeInv (σ', μ) := by
    intro p hb
    have htouch := fun q (hu : Untouched σ.shared q) => hu.of_borrow hb
    rw [Core.borrow] at hb
    split at hb
    next =>
      have hshared := Option.some.inj hb
      refine h.userKeep hother ?_ ?_ (fun q _ => ?_) htouch hway
      all_goals rw [← hshared]
    next => cases hb
  have hown : ∀ {p}, σ.shared.own (some w) p = some σ'.shared → WakeInv (σ', μ) := by
    intro p ho
    have htouch := fun q (hu : Untouched σ.shared q) => hu.of_own ho
    rw [Core.own] at ho
    split at ho
    next =>
      have hshared := Option.some.inj ho
      refine h.userKeep hother ?_ ?_ (fun q _ => ?_) htouch hway
      all_goals rw [← hshared]
    next => cases ho
  cases op with
  | wake mode p =>
    cases mode with
    | byRef =>
      obtain ⟨c₁, hb, heq⟩ := Option.map_eq_some_iff.mp hcall
      obtain ⟨rfl, -⟩ := Prod.mk.inj heq
      exact hborrow hb
    | byValue =>
      obtain ⟨c₁, ho, heq⟩ := Option.map_eq_some_iff.mp hcall
      obtain ⟨rfl, -⟩ := Prod.mk.inj heq
      exact hown ho
  | cloneWaker p =>
    obtain ⟨c₁, hb, heq⟩ := Option.map_eq_some_iff.mp hcall
    obtain ⟨rfl, -⟩ := Prod.mk.inj heq
    exact hborrow hb
  | dropWaker p =>
    obtain ⟨c₁, ho, heq⟩ := Option.map_eq_some_iff.mp hcall
    obtain ⟨rfl, -⟩ := Prod.mk.inj heq
    exact hown ho
  | push _ _ | pop _ | poll _ | pollNext _ _ | polled _ | drop => cases hcall

/-- The swap of the flag. -/
theorem wakeSwap {σ σ' : Threads (Core P V W) (Pc P V) (Option W)} {μ : Wakes P} {w : W}
    (h : WakeInv (σ, μ)) (hother : ∀ u, u ≠ some w → σ'.pc u = σ.pc u)
    (hlocal : Local (some w) (σ.pc (some w)) σ.shared) {mode : Mode} {p : MetaPtr}
    (hpc : σ.pc (some w) = .wakeSwap mode p)
    (hstep : stepWaker (some w) σ.shared (.wakeSwap mode p) =
      some (σ'.shared, σ'.pc (some w))) :
    WakeInv (σ', μ.wake p (σ.shared.metas.flag p)) := by
  obtain ⟨⟨was, metas⟩, hact, heq⟩ := Option.map_eq_some_iff.mp hstep
  obtain ⟨m, hm, hwas, rfl⟩ := Metas.activate_eq_some hact
  have howner : σ'.pc none = σ.pc none := hother none nofun
  have htouched : ¬ Untouched σ.shared p := by
    refine hlocal.not_untouched ?_
    rw [hpc]
    cases mode with
    | byRef => exact Or.inr rfl
    | byValue => exact Or.inl rfl
  -- The deque is the same, but for the flag and who borrows the waker.
  have hshared : ∃ borrowed, σ'.shared = { σ.shared with
      metas := Function.update σ.shared.metas p (some { m with activated := true })
      borrowed := borrowed } ∧ ∀ q, σ.shared.borrowed q = [] → borrowed q = [] := by
    cases was with
    | true =>
      obtain ⟨borrowed, hb, hempty⟩ := Core.woken_eq { σ.shared with
        metas := Function.update σ.shared.metas p (some { m with activated := true }) }
        (some w) p mode
      exact ⟨borrowed, (congrArg Prod.fst heq).symm.trans hb, hempty⟩
    | false => exact ⟨σ.shared.borrowed, (Prod.mk.inj heq).1.symm, fun q hq => hq⟩
  obtain ⟨borrowed, hshared, hempty⟩ := hshared
  have hflag : ∀ q, σ'.shared.metas.flag q = if q = p then true else σ.shared.metas.flag q := by
    intro q
    rw [hshared]
    exact Metas.flag_update ..
  have hflagp : σ.shared.metas.flag p = was := (Metas.flag_eq hm).trans hwas
  -- A thread that is on its way stays there.
  have hway : ∀ q, (∃ u, (σ.pc (some u)).OnItsWay μ.supplied q) →
      ∃ u, (σ'.pc (some u)).OnItsWay μ.supplied q := by
    rintro q ⟨u, hu⟩
    refine ⟨u, ?_⟩
    rw [hother (some u) ?_]
    · exact hu
    · rintro heq
      rw [heq, hpc] at hu
      exact hu
  refine ⟨by dsimp only; rw [howner, hshared]; exact h.parent, fun q hq => ?_⟩
  dsimp only at hq
  rw [hshared] at hq
  by_cases hqp : q = p
  · subst hqp
    refine ⟨fun _ => Or.inl (Function.update_self ..), fun _ => ?_, fun _ => ?_⟩
    · rw [hflag, if_pos rfl]
    · cases was with
      | true =>
        -- Whoever set the flag has seen to the parent.
        have hwoken : μ.woken q = true :=
          ((h.heard q hq).fresh hflagp).resolve_right htouched
        rcases (h.heard q hq).notified hwoken with hn | hn | hn
        · left
          rw [hflagp]
          exact (Function.update_self ..).trans (by rw [hn]; rfl)
        · right
          left
          rw [howner, hshared]
          exact hn
        · exact Or.inr (Or.inr (hway q hn))
      | false =>
        refine Or.inr (Or.inr ⟨w, ?_⟩)
        rw [← (Prod.mk.inj heq).2]
        rfl
  · refine (h.heard q hq).keep ?_ (Function.update_of_ne hqp ..) ?_ fun _ hn => ?_
    · rw [hflag, if_neg hqp]
    · rw [hshared]
      exact fun hu => ⟨hu.held, hu.owned, hempty q hu.borrowed, hu.context⟩
    · rcases hn with hn | hn | hn
      · exact Or.inl ((Function.update_of_ne hqp ..).trans hn)
      · right
        left
        rw [howner, hshared]
        exact hn
      · exact Or.inr (Or.inr (hway q hn))

/-- The parent is woken: whatever flag is set by now, it will see. -/
theorem wakeParent [DecidableEq P] {σ σ' : Threads (Core P V W) (Pc P V) (Option W)}
    {μ : Wakes P} {w : W} (h : WakeInv (σ, μ)) (hother : ∀ u, u ≠ some w → σ'.pc u = σ.pc u)
    {mode : Mode} {p : MetaPtr} {parent : P} (hpc : σ.pc (some w) = .wakeParent mode p parent)
    (hstep : stepWaker (some w) σ.shared (.wakeParent mode p parent) =
      some (σ'.shared, σ'.pc (some w))) :
    WakeInv (σ', μ.wakeParent σ.shared.metas parent) := by
  obtain ⟨borrowed, hwoken, hempty⟩ := Core.woken_eq σ.shared (some w) p mode
  have hshared : σ'.shared = { σ.shared with borrowed := borrowed } :=
    (congrArg Prod.fst (Option.some.inj hstep)).symm.trans hwoken
  rw [Wakes.wakeParent]
  split
  next =>
    refine ⟨by dsimp only; rw [hother none nofun, hshared]; exact h.parent, fun q hq => ?_⟩
    dsimp only at hq
    rw [hshared] at hq
    refine (h.heard q hq).keep (by rw [hshared]) rfl ?_ fun hf _ => Or.inl ?_
    · rw [hshared]
      exact fun hu => ⟨hu.held, hu.owned, hempty q hu.borrowed, hu.context⟩
    · dsimp only
      rw [hf, Bool.or_true]
  next hne =>
    refine h.userKeep hother ?_ ?_ (fun q _ => ?_) ?_ fun q hq => ?_
    · rw [hshared]
    · rw [hshared]
    · rw [hshared]
    · rw [hshared]
      exact fun q hu => ⟨hu.held, hu.owned, hempty q hu.borrowed, hu.context⟩
    · rw [hpc] at hq
      exact absurd hq.2 hne

theorem stepWaker [DecidableEq P] {σ σ' : Threads (Core P V W) (Pc P V) (Option W)}
    {μ : Wakes P} {w : W} (h : WakeInv (σ, μ)) (hcounted : Counted σ'.shared)
    (hother : ∀ u, u ≠ some w → σ'.pc u = σ.pc u)
    (hlocal : Local (some w) (σ.pc (some w)) σ.shared) {pc : Pc P V} (hpc : σ.pc (some w) = pc)
    (hstep : stepWaker (some w) σ.shared pc = some (σ'.shared, σ'.pc (some w))) :
    WakeInv (σ', μ.update σ.shared.metas pc .step (σ'.pc (some w))) := by
  cases pc with
  | wakeSwap mode p => exact h.wakeSwap hother hlocal hpc hstep
  | wakeParent mode p parent => exact h.wakeParent hother hpc hstep
  | wakeLock mode p =>
    obtain ⟨c₁, hlock, heq⟩ := Option.map_eq_some_iff.mp hstep
    obtain ⟨hshared, hpc'⟩ := Prod.mk.inj heq
    rw [Core.lock] at hlock
    split at hlock
    next =>
      cases hlock
      refine h.userKeep (μ := μ) hother ?_ ?_ (fun q _ => ?_) (fun q hu => ?_) fun q hq => ?_
      · rw [← hshared]
      · rw [← hshared]
      · rw [← hshared]
      · rw [← hshared]
        exact ⟨hu.held, hu.owned, hu.borrowed, hu.context⟩
      · rw [hpc] at hq
        left
        rw [← hpc']
        exact hq
    next => cases hlock
  | wakeClone mode p =>
    obtain ⟨hshared, hpc'⟩ := Prod.mk.inj (Option.some.inj hstep)
    refine h.userKeep (μ := μ) hother ?_ ?_ (fun q _ => ?_) (fun q hu => ?_) fun q hq => ?_
    · rw [← hshared]
    · rw [← hshared]
    · rw [← hshared]
    · rw [← hshared]
      exact ⟨hu.held, hu.owned, hu.borrowed, hu.context⟩
    · rw [hpc] at hq
      -- The parent in the mutex is the last one supplied, or a pass is about
      -- to store the last one and visit all slots.
      have hparent := h.parent
      dsimp only at hparent
      cases howner : σ.pc none with
      | pollLock pass waker | pollUpdate pass waker => exact Or.inr trivial
      | _ =>
        left
        rw [howner] at hparent
        rw [← hpc']
        exact ⟨hq, hparent⟩
  | dropWaker p =>
    obtain ⟨metas, hrelease, heq⟩ := Option.map_eq_some_iff.mp hstep
    obtain ⟨hshared, hpc'⟩ := Prod.mk.inj heq
    refine h.userKeep (μ := μ) hother ?_ ?_ (fun q hq => ?_) (fun q hu => ?_) fun q hq => ?_
    · rw [← hshared]
    · rw [← hshared]
    · have hm := hcounted.pending_allocated (p := q) (by rw [← hshared]; exact hq)
      rw [← hshared] at hm ⊢
      exact Metas.flag_releaseRef hrelease hm
    · rw [← hshared]
      refine ⟨hu.held, ?_, hu.borrowed, hu.context⟩
      dsimp only
      rw [Function.update_apply]
      split
      next hqp => rw [← hqp, hu.owned, List.erase_nil]
      next => exact hu.owned
    · rw [hpc] at hq
      exact hq.elim
  | cloneWaker p =>
    obtain ⟨metas, hadd, heq⟩ := Option.map_eq_some_iff.mp hstep
    obtain ⟨hshared, hpc'⟩ := Prod.mk.inj heq
    refine h.userKeep (μ := μ) hother ?_ ?_ (fun q _ => ?_) (fun q hu => ?_) fun q hq => ?_
    · rw [← hshared]
    · rw [← hshared]
    · rw [← hshared]
      exact Metas.flag_addRef hadd
    · have hqp : q ≠ p := by
        rintro rfl
        exact hlocal.not_untouched (Or.inr (by rw [hpc]; rfl)) hu
      rw [← hshared]
      exact ⟨(Function.update_of_ne hqp ..).trans hu.held, hu.owned,
        (Function.update_of_ne hqp ..).trans hu.borrowed, hu.context⟩
    · rw [hpc] at hq
      exact hq.elim
  | _ => cases hstep

end WakeInv

section Runs

variable [DecidableEq P] [DecidableEq W]

/-- The invariant in every reachable state. -/
theorem reachable_wakeInv {noop : P} {q : Threads (Core P V W) (Pc P V) (Option W) × Wakes P}
    (h : ((futureDeque P V W noop).observe (wakes noop)).Reachable q) : WakeInv q := by
  refine h.invariant ⟨rfl, nofun⟩ ?_
  rintro ⟨σ, μ⟩ ⟨t, a⟩ ⟨σ', μ'⟩ hreach hq - hnext
  obtain ⟨hthread, hhistory⟩ := Machine.observe_next.mp hnext
  dsimp only at hthread hhistory
  subst hhistory
  obtain ⟨hact, hother⟩ := threads_next.mp hthread
  obtain ⟨hcounted, hlocal⟩ := reachable_counted (Machine.observe_fst hreach)
  have hcounted' := (act_atomic hcounted (hlocal t) hact).counted
  simp only [wakes]
  rcases act_cases hact with ⟨rfl, last, op, hpc, rfl, hcall⟩ |
    ⟨rfl, pass, i, p, poll, hpc, rfl, hpolled⟩ | ⟨rfl, rfl, hstep⟩ |
    ⟨w, rfl, last, op, hpc, rfl, hcall⟩ | ⟨w, rfl, rfl, hstep⟩
  · rw [hpc]
    exact hq.callOwner hcounted hother (hlocal none) hpc hcall
  · rw [hpc]
    exact hq.polled hother (hlocal none) hpc hpolled
  · exact hq.stepOwner hcounted' hother (hlocal none) rfl hstep
  · rw [hpc]
    exact hq.callWaker hother hpc hcall
  · exact hq.stepWaker hcounted' hother (hlocal (some w)) rfl hstep

omit [DecidableEq P] [DecidableEq W] in
/-- A call on the deque polls no future yet. -/
theorem callOwner_context {c : Core P V W} {op : Call P V} {r : Core P V W × Pc P V}
    (hcall : callOwner c op = some r) : r.2.context = none := by
  cases op with
  | push side p =>
    obtain ⟨c₁, -, rfl⟩ := Option.map_eq_some_iff.mp hcall
    rfl
  | pop side =>
    have heq : ((c.pop side).2, Pc.idle (some (.popped (c.pop side).1))) = r :=
      Option.some.inj hcall
    rw [← heq]
    rfl
  | poll waker | pollNext side waker | drop =>
    cases hcall
    rfl
  | polled poll | wake mode p | cloneWaker p | dropWaker p => cases hcall

omit [DecidableEq P] [DecidableEq W] in
theorem polled_context {c : Core P V W} {pass : Pass} {i : Nat} {p : MetaPtr} {poll : Poll V}
    {r : Core P V W × Pc P V} (hpolled : polled c pass i p poll = some r) :
    r.2.context = none := by
  unfold polled at hpolled
  split at hpolled
  next => cases poll <;> cases hpolled <;> rfl
  next => cases hpolled

omit [DecidableEq W] in
/-- A pass goes on to poll the slot whose flag it has found set. -/
theorem stepOwner_polling {c : Core P V W} {pc : Pc P V} {r : Core P V W × Pc P V}
    (hstep : stepOwner c pc = some r) {pass : Pass} {i : Nat} {p : MetaPtr}
    (hr : r.2 = .polling pass i p) :
    pc = .pollSlot pass i ∧ (∃ handle, c.slots[i]? = some (.pending handle p)) ∧
      c.metas.flag p = true := by
  cases pc with
  | pollSlot pass' i' =>
    rw [stepOwner] at hstep
    split at hstep
    next =>
      have heq : ((c.finish pass').1, Pc.idle (some (c.finish pass').2)) = r :=
        Option.some.inj hstep
      rw [← heq] at hr
      cases hr
    next =>
      cases hstep
      cases hr
    next handle q hslot =>
      obtain ⟨⟨was, metas⟩, hcheck, rfl⟩ := Option.map_eq_some_iff.mp hstep
      obtain ⟨m, hm, hwas, -⟩ := Metas.checkActivated_eq_some hcheck
      cases was with
      | true =>
        cases hr
        exact ⟨rfl, ⟨handle, hslot⟩, (Metas.flag_eq hm).trans hwas⟩
      | false => cases hr
  | pollLock _ _ | pollRelease _ _ _ | pollDropWaker _ _ _ | dropRelease _ | dropDropWaker _ =>
    obtain ⟨_, -, rfl⟩ := Option.map_eq_some_iff.mp hstep
    cases hr
  | pollUpdate _ _ =>
    cases hstep
    cases hr
  | dropSlot =>
    rw [stepOwner] at hstep
    split at hstep <;> cases hstep <;> cases hr
  | idle _ | polling _ _ _ | dropped | wakeSwap _ _ | wakeLock _ _ | wakeClone _ _
  | wakeParent _ _ _ | dropWaker _ | cloneWaker _ => cases hstep

/-- A future is polled only after its flag was found set. -/
theorem polls_activated {noop : P} {σ σ' : Threads (Core P V W) (Pc P V) (Option W)}
    {l : Option W × Act (Call P V)} (hnext : (futureDeque P V W noop).next σ l = some σ')
    {pass : Pass} {i : Nat} {p : MetaPtr} (hpc : σ'.pc none = .polling pass i p) :
    σ.pc none = .polling pass i p ∨ σ.pc none = .pollSlot pass i ∧
      (∃ handle, σ.shared.slots[i]? = some (.pending handle p)) ∧
      σ.shared.metas.flag p = true := by
  obtain ⟨t, a⟩ := l
  obtain ⟨hact, hother⟩ := threads_next.mp hnext
  cases t with
  | some w => exact Or.inl ((hother none nofun).symm.trans hpc)
  | none =>
    have hcontext : (σ'.pc none).context = some p := by rw [hpc]; rfl
    rcases act_cases hact with ⟨-, last, op, -, -, hcall⟩ | ⟨-, pass', i', p', poll, -, -, hpolled⟩ |
      ⟨-, -, hstep⟩ | ⟨w, hw, -⟩ | ⟨w, hw, -⟩
    · cases (callOwner_context hcall).symm.trans hcontext
    · cases (polled_context hpolled).symm.trans hcontext
    · exact Or.inr (stepOwner_polling hstep hpc)
    · cases hw
    · cases hw

end Runs

/-- What holds of a deque and the history of its wakers. -/
structure NoLostWake {P V W : Type} [DecidableEq P] [DecidableEq W] (noop : P)
    (σ : Threads (Core P V W) (Pc P V) (Option W)) (μ : Wakes P) : Prop where
  /-- A pending slot that has been woken is activated, and the parent knows. -/
  woken : ∀ p ∈ pendings σ.shared.slots, μ.woken p = true →
    σ.shared.metas.flag p = true ∧ Notified σ μ p
  /-- A pass polls only slots that are activated. -/
  polls : ∀ l σ', (futureDeque P V W noop).next σ l = some σ' →
    ∀ pass i p, σ'.pc none = .polling pass i p →
      σ.pc none = .polling pass i p ∨ σ.pc none = .pollSlot pass i ∧
        (∃ handle, σ.shared.slots[i]? = some (.pending handle p)) ∧
        σ.shared.metas.flag p = true

/-- **No wake of a pending slot is lost.** -/
theorem deque_no_lost_wake {P V W : Type} [DecidableEq P] [DecidableEq W] {noop : P}
    {q : Threads (Core P V W) (Pc P V) (Option W) × Wakes P}
    (h : ((futureDeque P V W noop).observe (wakes noop)).Reachable q) :
    NoLostWake noop q.1 q.2 := by
  refine ⟨fun p hp hw => ?_, fun l σ' hnext pass i p => polls_activated hnext⟩
  have hheard := (reachable_wakeInv h).heard p hp
  exact ⟨hheard.flag hw, hheard.notified hw⟩

/-- A future hands two clones of its waker to the threads 1 and 2 and is
pending. Thread 1 wakes it and has just set the flag; thread 2 wakes it too,
finds the flag set and returns. -/
def twoWakes : List (Option Nat × Act (Call Nat Nat)) :=
  [(none, .call (.push .back 10)), (none, .call (.poll 1)), (none, .step), (none, .step),
    (none, .step), (some 1, .call (.cloneWaker 10)), (some 1, .step),
    (some 2, .call (.cloneWaker 10)), (some 2, .step), (none, .call (.polled .pending)),
    (none, .step), (some 1, .call (.wake .byRef 10)), (some 1, .step),
    (some 2, .call (.wake .byRef 10)), (some 2, .step)]

/-- Thread 1 goes on, and wakes the parent. -/
theorem deque_no_lost_wake_parent :
    ∃ q, ((futureDeque Nat Nat Nat 0).observe (wakes 0)).run
        (twoWakes ++ List.replicate 3 (some 1, .step)) = some q ∧
      pendings q.1.shared.slots = [10] ∧ q.2.woken 10 = true ∧ q.2.parentWoken 10 = true ∧
      NoLostWake 0 q.1 q.2 := by
  obtain ⟨q, hrun, hpend, hwoken, hparent⟩ :
      ∃ q, ((futureDeque Nat Nat Nat 0).observe (wakes 0)).run
          (twoWakes ++ List.replicate 3 (some 1, .step)) = some q ∧
        pendings q.1.shared.slots = [10] ∧ q.2.woken 10 = true ∧ q.2.parentWoken 10 = true :=
    ⟨_, rfl, by decide, by decide, by decide⟩
  exact ⟨q, hrun, hpend, hwoken, hparent, deque_no_lost_wake (Machine.reachable_of_run hrun)⟩

/-- A wake can return before the parent has been woken, when another wake is
about to do it. -/
theorem wake_returns_early :
    ∃ q, ((futureDeque Nat Nat Nat 0).observe (wakes 0)).run twoWakes = some q ∧
      10 ∈ pendings q.1.shared.slots ∧ q.2.woken 10 = true ∧
      ¬ (q.1.shared.metas.flag 10 = true ∧
        (q.2.parentWoken 10 = true ∨ (q.1.pc none).YetToVisit q.1.shared.slots 10)) := by
  refine ⟨_, rfl, by decide, by decide, ?_⟩
  rintro ⟨-, hparent | hvisit⟩
  · exact absurd hparent (by decide)
  · exact hvisit

end Folo.FutureDeque
