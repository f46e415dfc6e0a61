import Folo.FutureDeque.CoreInv

/-!
# No wake of a pending slot is lost

`wakes` remembers, for each slot, whether one of its wakers has been woken
since the slot was last polled, and whether the parent waker supplied last
has been woken since the activation flag was set.

A wake sets the flag. Only the wake that finds it clear goes on to the
parent; between its `swap` and the wake of the parent, other wakers of the
slot may be woken and return (`wake_returns_early`). So for a woken slot the
parent has been woken, or a pass in progress has yet to come to the slot, or
the wake that set the flag is still on its way. It cannot be on its way with
an outdated parent: a new parent comes with a new pass, which visits the
slot and clears the flag.
-/

namespace Folo.FutureDeque

open Folo.Lib

variable {P V W : Type}

/-- What happened to the wakers. -/
structure Wakes (P : Type) where
  /-- The parent waker supplied last. -/
  supplied : P
  /-- A waker of the slot has been woken since the slot was last polled. -/
  woken : MetaPtr → Bool
  /-- `supplied` has been woken since the flag was set. -/
  parentWoken : MetaPtr → Bool

namespace Wakes

/-- A poll pass comes with a parent waker. -/
def supply [DecidableEq P] (μ : Wakes P) (waker : P) : Wakes P where
  supplied := waker
  woken := μ.woken
  parentWoken := if waker = μ.supplied then μ.parentWoken else fun _ => false

/-- The slot is new, or it is polled. -/
def forget (μ : Wakes P) (p : MetaPtr) : Wakes P where
  supplied := μ.supplied
  woken := Function.update μ.woken p false
  parentWoken := Function.update μ.parentWoken p false

/-- A waker of the slot is woken; `activated` is the flag it found. -/
def wake (μ : Wakes P) (p : MetaPtr) (activated : Bool) : Wakes P where
  supplied := μ.supplied
  woken := Function.update μ.woken p true
  parentWoken := Function.update μ.parentWoken p (activated && μ.parentWoken p)

/-- A parent waker is woken. -/
def wakeParent [DecidableEq P] (μ : Wakes P) (metas : Metas) (parent : P) : Wakes P :=
  if parent = μ.supplied then
    { μ with parentWoken := fun p => μ.parentWoken p || metas.flag p }
  else μ

/-- What an action of a thread at `pc` adds to the history. -/
def update [DecidableEq P] (μ : Wakes P) (metas : Metas) :
    Pc P V → Act (Call P V) → Pc P V → Wakes P
  | .idle _, .call (.poll waker), _ | .idle _, .call (.pollNext _ waker), _ => μ.supply waker
  | .idle _, .call (.push _ p), _ => μ.forget p
  | .pollSlot .., .step, .polling _ _ p => μ.forget p
  | .wakeSwap _ p, .step, _ => μ.wake p (metas.flag p)
  | .wakeParent _ _ parent, .step, _ => μ.wakeParent metas parent
  | _, _, _ => μ

end Wakes

/-- The history of the wakers. -/
def wakes [DecidableEq P] (noop : P) : Machine.Monitor (Threads (Core P V W) (Pc P V) (Option W))
    (Option W × Act (Call P V)) (Wakes P) where
  start := ⟨noop, fun _ => false, fun _ => false⟩
  update μ σ l σ' := μ.update σ.shared.metas (σ.pc l.1) l.2 (σ'.pc l.1)

/-- A pass in progress has yet to come to the slot of `p`. -/
def Pc.YetToVisit (slots : List (Slot V)) (p : MetaPtr) : Pc P V → Prop
  | pollLock .. | pollUpdate .. => True
  | pollSlot _ i => p ∈ pendings (slots.drop i)
  | polling _ i _ | pollRelease _ i _ | pollDropWaker _ i _ =>
    p ∈ pendings (slots.drop (i + 1))
  | _ => False

/-- The wake that set the flag of `p` is on its way to the parent. -/
def Pc.OnItsWay (supplied : P) (p : MetaPtr) : Pc P V → Prop
  | wakeLock _ q | wakeClone _ q => q = p
  | wakeParent _ q parent => q = p ∧ parent = supplied
  | _ => False

/-- The parent knows, or will come by, or is about to be told. -/
def Notified (σ : Threads (Core P V W) (Pc P V) (Option W)) (μ : Wakes P) (p : MetaPtr) : Prop :=
  μ.parentWoken p = true ∨ (σ.pc none).YetToVisit σ.shared.slots p ∨
    ∃ w, (σ.pc (some w)).OnItsWay μ.supplied p

/-- Nobody outside the deque has a waker for `p`. -/
structure Untouched (c : Core P V W) (p : MetaPtr) : Prop where
  held : c.held p = 0
  owned : c.owned p = []
  borrowed : c.borrowed p = []
  context : c.context ≠ some p

/-- What holds of a pending slot. -/
structure Heard (σ : Threads (Core P V W) (Pc P V) (Option W)) (μ : Wakes P) (p : MetaPtr) :
    Prop where
  /-- Without a wake only a new slot has its flag set. -/
  fresh : σ.shared.metas.flag p = true → μ.woken p = true ∨ Untouched σ.shared p
  flag : μ.woken p = true → σ.shared.metas.flag p = true
  notified : μ.woken p = true → Notified σ μ p

/-- The parent waker that the owner is about to store. -/
def Pc.supplying : Pc P V → Option P
  | pollLock _ waker | pollUpdate _ waker => some waker
  | _ => none

/-- The invariant of the runs of the observed deque. -/
structure WakeInv (q : Threads (Core P V W) (Pc P V) (Option W) × Wakes P) : Prop where
  parent : (q.1.pc none).supplying.getD q.1.shared.sharedParent = q.2.supplied
  heard : ∀ p ∈ pendings q.1.shared.slots, Heard q.1 q.2 p

/-! ## Flags -/

namespace Metas

theorem flag_update (metas : Metas) (p : MetaPtr) (o : Option WakerMeta) (q : MetaPtr) :
    flag (Function.update metas p o) q =
      if q = p then o.elim false WakerMeta.activated else metas.flag q := by
  unfold flag
  by_cases hq : q = p
  · subst hq
    simp
  · simp [hq]

theorem flag_eq {metas : Metas} {p : MetaPtr} {m : WakerMeta} (h : metas p = some m) :
    metas.flag p = m.activated := by
  rw [flag, h, Option.elim_some]

/-- Releasing a reference changes no flag, as long as the cell is there. -/
theorem flag_releaseRef {metas metas' : Metas} {p q : MetaPtr}
    (h : metas.releaseRef p = some metas') (hq : ∃ m, metas' q = some m) :
    metas'.flag q = metas.flag q := by
  obtain ⟨m, hm, rfl⟩ := releaseRef_eq_some h
  obtain ⟨n, hn⟩ := hq
  rw [flag_update]
  by_cases hqp : q = p
  · subst hqp
    rw [Function.update_self] at hn
    rw [if_pos rfl, hn, Option.elim_some, flag_eq hm]
    split at hn
    · cases hn
    · cases hn
      rfl
  · rw [if_neg hqp]

theorem flag_addRef {metas metas' : Metas} {p q : MetaPtr} (h : metas.addRef p = some metas') :
    metas'.flag q = metas.flag q := by
  obtain ⟨m, hm, rfl⟩ := addRef_eq_some h
  rw [flag_update]
  split
  next hq =>
    subst hq
    exact (flag_eq hm).symm
  next => rfl

end Metas

/-- A slot stays in order when nothing happens to it. -/
theorem Heard.keep {σ σ' : Threads (Core P V W) (Pc P V) (Option W)} {μ μ' : Wakes P}
    {p : MetaPtr} (h : Heard σ μ p) (hflag : σ'.shared.metas.flag p = σ.shared.metas.flag p)
    (hwoken : μ'.woken p = μ.woken p) (htouch : Untouched σ.shared p → Untouched σ'.shared p)
    (hnotified : σ.shared.metas.flag p = true → Notified σ μ p → Notified σ' μ' p) :
    Heard σ' μ' p := by
  refine ⟨fun hf => ?_, fun hw => ?_, fun hw => ?_⟩
  · rw [hflag] at hf
    rw [hwoken]
    exact (h.fresh hf).imp_right htouch
  · rw [hflag]
    exact h.flag (hwoken ▸ hw)
  · have hw' := hwoken ▸ hw
    exact hnotified (h.flag hw') (h.notified hw')

/-- A slot that has not been woken. -/
theorem Heard.unwoken {σ : Threads (Core P V W) (Pc P V) (Option W)} {μ : Wakes P} {p : MetaPtr}
    (hwoken : μ.woken p = false)
    (hfresh : σ.shared.metas.flag p = true → Untouched σ.shared p) : Heard σ μ p := by
  refine ⟨fun hf => Or.inr (hfresh hf), fun hw => ?_, fun hw => ?_⟩
  · rw [hwoken] at hw
    cases hw
  · rw [hwoken] at hw
    cases hw

/-! ## Steps of the owner -/

namespace WakeInv

/-- A step of the owner that polls no slot and adds none. -/
theorem ownerKeep {σ σ' : Threads (Core P V W) (Pc P V) (Option W)} {μ : Wakes P}
    (h : WakeInv (σ, μ)) (hother : ∀ u, u ≠ none → σ'.pc u = σ.pc u)
    (hparent : (σ'.pc none).supplying.getD σ'.shared.sharedParent =
      (σ.pc none).supplying.getD σ.shared.sharedParent)
    (hsub : ∀ p ∈ pendings σ'.shared.slots, p ∈ pendings σ.shared.slots)
    (hflag : ∀ p ∈ pendings σ'.shared.slots,
      σ'.shared.metas.flag p = σ.shared.metas.flag p)
    (htouch : ∀ p, Untouched σ.shared p → Untouched σ'.shared p)
    (hvisit : ∀ p ∈ pendings σ'.shared.slots, σ.shared.metas.flag p = true →
      (σ.pc none).YetToVisit σ.shared.slots p → (σ'.pc none).YetToVisit σ'.shared.slots p) :
    WakeInv (σ', μ) := by
  refine ⟨hparent.trans h.parent, fun p hp => ?_⟩
  refine (h.heard p (hsub p hp)).keep (hflag p hp) rfl (htouch p) fun hf hn => ?_
  rcases hn with hn | hn | ⟨w, hn⟩
  · exact Or.inl hn
  · exact Or.inr (Or.inl (hvisit p hp hf hn))
  · refine Or.inr (Or.inr ⟨w, ?_⟩)
    rw [hother (some w) (by rintro ⟨⟩)]
    exact hn

/-- A poll pass begins, with a parent waker. -/
theorem supply [DecidableEq P] {σ σ' : Threads (Core P V W) (Pc P V) (Option W)} {μ : Wakes P}
    (h : WakeInv (σ, μ)) {pass : Pass} {waker : P} (hpc : σ'.pc none = .pollLock pass waker)
    (hshared : σ'.shared = σ.shared) : WakeInv (σ', μ.supply waker) := by
  refine ⟨by rw [hpc]; rfl, fun p hp => ?_⟩
  rw [hshared] at hp
  refine (h.heard p hp).keep (by rw [hshared]) rfl (by rw [hshared]; exact id) fun _ _ => ?_
  exact Or.inr (Or.inl (by rw [hpc]; trivial))

/-- A new slot has no wakers outside the deque. -/
theorem push {σ σ' : Threads (Core P V W) (Pc P V) (Option W)} {μ : Wakes P}
    (h : WakeInv (σ, μ)) (hcounted : Counted σ.shared) (hctx : σ.shared.context = none)
    (hother : ∀ u, u ≠ none → σ'.pc u = σ.pc u) {side : End} {p : MetaPtr}
    {last last' : Option (Returned V)} (hpc : σ.pc none = .idle last)
    (hpc' : σ'.pc none = .idle last') (hpush : σ.shared.push side p = some σ'.shared) :
    WakeInv (σ', μ.forget p) := by
  obtain ⟨c', pcs⟩ := σ'
  dsimp only at hother hpc' hpush
  obtain ⟨metas, hm, rfl⟩ := Option.map_eq_some_iff.mp hpush
  obtain ⟨hnone, rfl⟩ := Metas.create_eq_some hm
  obtain ⟨hheld, howned, hpend, hborrowed⟩ := hcounted.unallocated hnone
  have hperm := Core.pushSlot_pendings σ.shared.slots σ.shared.futures p side
  have hparent := h.parent
  rw [hpc] at hparent
  refine ⟨by dsimp only; rw [hpc']; exact hparent, fun q hq => ?_⟩
  rcases List.mem_cons.mp (hperm.mem_iff.mp hq) with rfl | hq
  · exact .unwoken (Function.update_self ..) fun _ =>
      ⟨hheld, howned, hborrowed, by dsimp only; rw [hctx]; nofun⟩
  · have hne : q ≠ p := ne_of_mem_of_not_mem hq hpend
    refine (h.heard q hq).keep ?_ (Function.update_of_ne hne ..) ?_ fun _ hn => ?_
    · dsimp only
      rw [Metas.flag_update, if_neg hne]
    · exact fun hu => ⟨hu.held, hu.owned, hu.borrowed, hu.context⟩
    · rcases hn with hn | hn | ⟨w, hn⟩
      · exact Or.inl ((Function.update_of_ne hne ..).trans hn)
      · rw [hpc] at hn
        cases hn
      · refine Or.inr (Or.inr ⟨w, ?_⟩)
        dsimp only
        rw [hother (some w) (by rintro ⟨⟩)]
        exact hn

theorem callOwner [DecidableEq P] {σ σ' : Threads (Core P V W) (Pc P V) (Option W)}
    {μ : Wakes P} (h : WakeInv (σ, μ)) (hcounted : Counted σ.shared)
    (hother : ∀ u, u ≠ none → σ'.pc u = σ.pc u) (hlocal : Local none (σ.pc none) σ.shared)
    {last : Option (Returned V)} {op : Call P V} (hpc : σ.pc none = .idle last)
    (hcall : callOwner σ.shared op = some (σ'.shared, σ'.pc none)) :
    WakeInv (σ', μ.update σ.shared.metas (.idle last) (.call op) (σ'.pc none)) := by
  have hctx : σ.shared.context = none := by
    rw [hlocal.context rfl, hpc]
    rfl
  cases op with
  | push side p =>
    obtain ⟨c₁, hpush, heq⟩ := Option.map_eq_some_iff.mp hcall
    obtain ⟨rfl, hpc'⟩ := Prod.mk.inj heq
    exact h.push hcounted hctx hother hpc hpc'.symm hpush
  | pop side =>
    have heq : ((σ.shared.pop side).2, Pc.idle (some (.popped (σ.shared.pop side).1))) =
        (σ'.shared, σ'.pc none) := Option.some.inj hcall
    obtain ⟨hshared, hpc'⟩ := Prod.mk.inj heq
    obtain ⟨slots, hpop, hs⟩ := σ.shared.pop_pendings side
    rw [hpop] at hshared
    have hμ : μ.update σ.shared.metas (.idle last) (.call (.pop side)) (σ'.pc none) = μ := rfl
    rw [hμ]
    refine h.ownerKeep hother ?_ ?_ ?_ ?_ ?_
    · rw [← hpc', hpc, ← hshared]
      rfl
    · rw [← hshared]
      exact fun p hp => hs ▸ hp
    · rw [← hshared]
      exact fun _ _ => rfl
    · rw [← hshared]
      exact fun p hu => ⟨hu.held, hu.owned, hu.borrowed, hu.context⟩
    · rw [hpc]
      exact fun p _ _ hv => hv.elim
  | poll waker | pollNext side waker =>
    obtain ⟨hshared, hpc'⟩ := Prod.mk.inj (Option.some.inj hcall)
    exact h.supply hpc'.symm hshared.symm
  | drop =>
    obtain ⟨hshared, hpc'⟩ := Prod.mk.inj (Option.some.inj hcall)
    have hμ : μ.update σ.shared.metas (.idle last) (.call .drop) (σ'.pc none) = μ := rfl
    rw [hμ]
    refine h.ownerKeep hother ?_ ?_ ?_ ?_ ?_
    · rw [← hpc', hpc, ← hshared]
      rfl
    · rw [← hshared]
      exact fun p hp => hp
    · rw [← hshared]
      exact fun _ _ => rfl
    · rw [← hshared]
      exact fun p hu => hu
    · rw [hpc]
      exact fun p _ _ hv => hv.elim
  | polled poll | wake mode p | cloneWaker p | dropWaker p => cases hcall

/-- The future that was polled has answered. -/
theorem polled {σ σ' : Threads (Core P V W) (Pc P V) (Option W)}
    {μ : Wakes P} (h : WakeInv (σ, μ))
    (hother : ∀ u, u ≠ none → σ'.pc u = σ.pc u) (hlocal : Local none (σ.pc none) σ.shared)
    {pass : Pass} {i : Nat} {p : MetaPtr} {poll : Poll V}
    (hpc : σ.pc none = .polling pass i p)
    (hpolled : polled σ.shared pass i p poll = some (σ'.shared, σ'.pc none)) :
    WakeInv (σ', μ) := by
  obtain ⟨handle, hslot⟩ := hlocal.polling rfl pass i p hpc
  obtain ⟨c', pcs⟩ := σ'
  dsimp only at hother hpolled
  unfold FutureDeque.polled at hpolled
  split at hpolled
  next =>
    cases poll with
    | pending =>
      obtain ⟨rfl, hpc'⟩ := Prod.mk.inj (Option.some.inj hpolled)
      refine h.ownerKeep hother ?_ (fun q hq => hq) (fun _ _ => rfl)
        (fun q hu => ⟨hu.held, hu.owned, hu.borrowed, nofun⟩) fun q _ _ hv => ?_
      · dsimp only
        rw [← hpc', hpc]
        rfl
      · rw [hpc] at hv
        dsimp only
        rw [← hpc']
        exact hv
    | ready value =>
      obtain ⟨rfl, hpc'⟩ := Prod.mk.inj (Option.some.inj hpolled)
      obtain ⟨a, b, hold, hnew⟩ := pendings_set hslot value
      refine h.ownerKeep hother ?_ (fun q hq => ?_) (fun _ _ => rfl)
        (fun q hu => ⟨hu.held, hu.owned, hu.borrowed, nofun⟩) fun q _ _ hv => ?_
      · dsimp only
        rw [← hpc', hpc]
        rfl
      · dsimp only at hq
        rw [hnew] at hq
        rw [hold]
        exact ((List.sublist_cons_self p b).append_left a).mem hq
      · rw [hpc] at hv
        dsimp only
        rw [← hpc']
        simp only [Pc.YetToVisit] at hv ⊢
        rw [List.drop_set_of_lt (Nat.lt_succ_self i)]
        exact hv
  next => cases hpolled

/-- The head of the loop over the slots. -/
theorem pollSlot [DecidableEq P] {σ σ' : Threads (Core P V W) (Pc P V) (Option W)}
    {μ : Wakes P} (h : WakeInv (σ, μ)) (hother : ∀ u, u ≠ none → σ'.pc u = σ.pc u)
    (hlocal : Local none (σ.pc none) σ.shared) {pass : Pass} {i : Nat}
    (hpc : σ.pc none = .pollSlot pass i)
    (hstep : stepOwner σ.shared (.pollSlot pass i) = some (σ'.shared, σ'.pc none)) :
    WakeInv (σ', μ.update σ.shared.metas (.pollSlot pass i) .step (σ'.pc none)) := by
  obtain ⟨c', pcs⟩ := σ'
  dsimp only at hother hstep ⊢
  rw [stepOwner] at hstep
  split at hstep
  next hnone =>
    have heq : ((σ.shared.finish pass).1, Pc.idle (some (σ.shared.finish pass).2)) =
        (c', pcs none) := Option.some.inj hstep
    obtain ⟨rfl, hpc'⟩ := Prod.mk.inj heq
    obtain ⟨slots, hfinish, hs⟩ := σ.shared.finish_pendings pass
    rw [← hpc', hfinish]
    refine h.ownerKeep hother ?_ (fun q hq => hs ▸ hq) (fun _ _ => rfl)
      (fun q hu => ⟨hu.held, hu.owned, hu.borrowed, hu.context⟩) fun q _ _ hv => ?_
    · dsimp only
      rw [← hpc', hpc]
      rfl
    · -- The pass is over: there is no slot left to visit.
      rw [hpc] at hv
      simp only [Pc.YetToVisit] at hv
      rw [List.drop_eq_nil_of_le (List.getElem?_eq_none_iff.mp hnone)] at hv
      cases hv
  next v hslot =>
    obtain ⟨rfl, hpc'⟩ := Prod.mk.inj (Option.some.inj hstep)
    rw [← hpc']
    refine h.ownerKeep hother ?_ (fun q hq => hq) (fun _ _ => rfl) (fun q hu => hu)
      fun q _ _ hv => ?_
    · dsimp only
      rw [← hpc', hpc]
      rfl
    · obtain ⟨hlt, hget⟩ := List.getElem?_eq_some_iff.mp hslot
      rw [hpc] at hv
      dsimp only
      rw [← hpc']
      simp only [Pc.YetToVisit] at hv ⊢
      rwa [List.drop_eq_getElem_cons hlt, hget, pendings_cons_ready] at hv
  next handle p hslot =>
    obtain ⟨⟨was, metas⟩, hcheck, heq⟩ := Option.map_eq_some_iff.mp hstep
    obtain ⟨m, hm, hwas, rfl⟩ := Metas.checkActivated_eq_some hcheck
    have hvisit : ∀ q, q ≠ p → (σ.pc none).YetToVisit σ.shared.slots q →
        q ∈ pendings (σ.shared.slots.drop (i + 1)) := by
      intro q hq hv
      obtain ⟨hlt, hget⟩ := List.getElem?_eq_some_iff.mp hslot
      rw [hpc] at hv
      simp only [Pc.YetToVisit] at hv
      rw [List.drop_eq_getElem_cons hlt, hget, pendings_cons_pending] at hv
      exact (List.mem_cons.mp hv).resolve_left hq
    have hctx : σ.shared.context = none := by
      rw [hlocal.context rfl, hpc]
      rfl
    have hparent := h.parent
    rw [hpc] at hparent
    cases was with
    | true =>
      obtain ⟨rfl, hpc'⟩ := Prod.mk.inj heq
      rw [← hpc']
      refine ⟨by dsimp only; rw [← hpc']; exact hparent, fun q hq => ?_⟩
      by_cases hqp : q = p
      · subst hqp
        refine .unwoken (Function.update_self ..) fun hf => ?_
        dsimp only at hf
        rw [Metas.flag_update, if_pos rfl, Option.elim_some] at hf
        cases hf
      · refine (h.heard q hq).keep ?_ (Function.update_of_ne hqp ..) ?_ fun _ hn => ?_
        · dsimp only
          rw [Metas.flag_update, if_neg hqp]
        · exact fun hu => ⟨hu.held, hu.owned, hu.borrowed, fun hc => hqp (Option.some.inj hc).symm⟩
        · rcases hn with hn | hn | ⟨w, hn⟩
          · exact Or.inl ((Function.update_of_ne hqp ..).trans hn)
          · refine Or.inr (Or.inl ?_)
            dsimp only
            rw [← hpc']
            exact hvisit q hqp hn
          · refine Or.inr (Or.inr ⟨w, ?_⟩)
            dsimp only
            rw [hother (some w) (by rintro ⟨⟩)]
            exact hn
    | false =>
      obtain ⟨rfl, hpc'⟩ := Prod.mk.inj heq
      rw [← hpc']
      refine h.ownerKeep hother ?_ (fun q hq => hq) (fun q _ => ?_)
        (fun q hu => ⟨hu.held, hu.owned, hu.borrowed, hu.context⟩) fun q _ hf hv => ?_
      · dsimp only
        rw [← hpc', hpc]
        rfl
      · dsimp only
        rw [Metas.flag_update]
        split
        next hqp =>
          subst hqp
          rw [Metas.flag_eq hm, hwas]
          rfl
        next => rfl
      · -- The slot that is passed over has not been woken.
        have hqp : q ≠ p := by
          rintro rfl
          rw [Metas.flag_eq hm, hwas] at hf
          cases hf
        dsimp only
        rw [← hpc']
        exact hvisit q hqp hv

/-- A reference of a slot that has been taken out is released. -/
theorem release {σ σ' : Threads (Core P V W) (Pc P V) (Option W)} {μ : Wakes P}
    (h : WakeInv (σ, μ)) (hcounted : Counted σ'.shared)
    (hother : ∀ u, u ≠ none → σ'.pc u = σ.pc u) {p : MetaPtr} {metas : Metas}
    {leaving : List MetaPtr} (hrelease : σ.shared.metas.releaseRef p = some metas)
    (hshared : σ'.shared = { σ.shared with metas := metas, leaving := leaving })
    (hparent : (σ.pc none).supplying = none ∧ (σ'.pc none).supplying = none)
    (hvisit : ∀ q, (σ.pc none).YetToVisit σ.shared.slots q →
      (σ'.pc none).YetToVisit σ.shared.slots q) : WakeInv (σ', μ) := by
  obtain ⟨c', pcs⟩ := σ'
  dsimp only at hcounted hother hshared hparent hvisit
  subst hshared
  refine h.ownerKeep hother ?_ (fun q hq => hq) (fun q hq => ?_)
    (fun q hu => ⟨hu.held, hu.owned, hu.borrowed, hu.context⟩) fun q _ _ hv => hvisit q hv
  · dsimp only
    rw [hparent.1, hparent.2]
  · exact Metas.flag_releaseRef hrelease (hcounted.pending_allocated hq)

/-- A step of the owner that is not the head of the loop over the slots. -/
theorem stepOwner [DecidableEq P] {σ σ' : Threads (Core P V W) (Pc P V) (Option W)}
    {μ : Wakes P} (h : WakeInv (σ, μ)) (hcounted : Counted σ'.shared)
    (hother : ∀ u, u ≠ none → σ'.pc u = σ.pc u)
    (hlocal : Local none (σ.pc none) σ.shared) {pc : Pc P V} (hpc : σ.pc none = pc)
    (hstep : stepOwner σ.shared pc = some (σ'.shared, σ'.pc none)) :
    WakeInv (σ', μ.update σ.shared.metas pc .step (σ'.pc none)) := by
  cases pc with
  | pollSlot pass i => exact h.pollSlot hother hlocal hpc hstep
  | pollLock pass waker =>
    obtain ⟨c₁, hlock, heq⟩ := Option.map_eq_some_iff.mp hstep
    obtain ⟨hshared, hpc'⟩ := Prod.mk.inj heq
    rw [Core.lock] at hlock
    split at hlock
    next =>
      cases hlock
      refine h.ownerKeep (μ := μ) hother ?_ ?_ ?_ ?_ fun p _ _ _ => ?_
      · rw [← hpc', hpc]
        rfl
      · rw [← hshared]
        exact fun p hp => hp
      · rw [← hshared]
        exact fun _ _ => rfl
      · rw [← hshared]
        exact fun p hu => ⟨hu.held, hu.owned, hu.borrowed, hu.context⟩
      · rw [← hpc']
        trivial
    next => cases hlock
  | pollUpdate pass waker =>
    obtain ⟨hshared, hpc'⟩ := Prod.mk.inj (Option.some.inj hstep)
    have hparent : (if σ.shared.sharedParent = waker then σ.shared.sharedParent else waker) =
        waker := by
      split
      next heq => exact heq
      next => rfl
    rw [hparent] at hshared
    refine h.ownerKeep (μ := μ) hother ?_ ?_ ?_ ?_ fun p hp _ _ => ?_
    · rw [← hpc', hpc, ← hshared]
      rfl
    · rw [← hshared]
      exact fun p hp => hp
    · rw [← hshared]
      exact fun _ _ => rfl
    · rw [← hshared]
      exact fun p hu => ⟨hu.held, hu.owned, hu.borrowed, hu.context⟩
    · -- The pass begins with the first slot.
      rw [← hpc']
      exact hp
  | pollRelease pass i p | pollDropWaker pass i p =>
    obtain ⟨metas, hrelease, heq⟩ := Option.map_eq_some_iff.mp hstep
    obtain ⟨hshared, hpc'⟩ := Prod.mk.inj heq
    refine h.release (μ := μ) hcounted hother hrelease hshared.symm ?_ fun q hv => ?_
    · rw [hpc, ← hpc']
      exact ⟨rfl, rfl⟩
    · rw [hpc] at hv
      rw [← hpc']
      exact hv
  | dropRelease p | dropDropWaker p =>
    obtain ⟨metas, hrelease, heq⟩ := Option.map_eq_some_iff.mp hstep
    obtain ⟨hshared, hpc'⟩ := Prod.mk.inj heq
    refine h.release (μ := μ) hcounted hother hrelease hshared.symm ?_ fun q hv => ?_
    · rw [hpc, ← hpc']
      exact ⟨rfl, rfl⟩
    · rw [hpc] at hv
      exact hv.elim
  | dropSlot =>
    have hμ : μ.update σ.shared.metas .dropSlot .step (σ'.pc none) = μ := rfl
    have hvisit : ∀ p, ¬ (σ.pc none).YetToVisit σ.shared.slots p := by
      rw [hpc]
      exact fun p hv => hv
    have hctx : σ.shared.context = none := by
      rw [hlocal.context rfl, hpc]
      rfl
    rw [hμ]
    rw [FutureDeque.stepOwner] at hstep
    split at hstep
    next =>
      obtain ⟨hshared, hpc'⟩ := Prod.mk.inj (Option.some.inj hstep)
      refine h.ownerKeep hother ?_ ?_ ?_ ?_ fun p _ _ hv => (hvisit p hv).elim
      · rw [← hpc', hpc, ← hshared]
        rfl
      · rw [← hshared]
        exact fun p hp => hp
      · rw [← hshared]
        exact fun _ _ => rfl
      · rw [← hshared]
        exact fun p hu => hu
    next v rest hslots =>
      obtain ⟨hshared, hpc'⟩ := Prod.mk.inj (Option.some.inj hstep)
      refine h.ownerKeep hother ?_ ?_ ?_ ?_ fun p _ _ hv => (hvisit p hv).elim
      · rw [← hpc', hpc, ← hshared]
      · rw [← hshared, hslots, pendings_cons_ready]
        exact fun p hp => hp
      · rw [← hshared]
        exact fun _ _ => rfl
      · rw [← hshared]
        exact fun p hu => ⟨hu.held, hu.owned, hu.borrowed, hu.context⟩
    next handle q rest hslots =>
      obtain ⟨hshared, hpc'⟩ := Prod.mk.inj (Option.some.inj hstep)
      refine h.ownerKeep hother ?_ ?_ ?_ ?_ fun p _ _ hv => (hvisit p hv).elim
      · rw [← hpc', hpc, ← hshared]
        rfl
      · rw [← hshared, hslots]
        exact fun p hp => List.mem_cons_of_mem q hp
      · rw [← hshared]
        exact fun _ _ => rfl
      · rw [← hshared]
        exact fun p hu => ⟨hu.held, hu.owned, hu.borrowed, hu.context⟩
  | idle _ | polling _ _ _ | dropped | wakeSwap _ _ | wakeLock _ _ | wakeClone _ _
  | wakeParent _ _ _ | dropWaker _ | cloneWaker _ => cases hstep

end WakeInv

end Folo.FutureDeque
