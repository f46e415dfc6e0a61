import Folo.FutureDeque.CoreInv

/-!
# Who touches the metadata of a slot

What one action does to the cells (`Touched`): a push takes a new one,
`release_ref` gives up one reference, everything else leaves every cell
allocated or not. `Known` is what a thread knows besides `Local`: a slot
that is being taken out is no longer in the deque, and whoever uses a waker
has one. So nobody touches a cell that is not allocated (`Known.refs_pos`).
-/

namespace Folo.FutureDeque

open Folo.Lib

variable {P V W : Type}

namespace Pc

/-- The metadata that `release_ref` is called on at this point. -/
def releases : Pc P V → Option MetaPtr
  | pollRelease _ _ p | pollDropWaker _ _ p | dropRelease p | dropDropWaker p | dropWaker p =>
    some p
  | _ => none

/-- The slot that is being taken out and has not released its reference. -/
def oldSlot : Pc P V → Option MetaPtr
  | pollRelease _ _ p | dropRelease p => some p
  | _ => none

/-- The waker of a slot that is being taken out, until it has been dropped. -/
def oldWaker : Pc P V → Option MetaPtr
  | pollRelease _ _ p | pollDropWaker _ _ p | dropRelease p | dropDropWaker p => some p
  | _ => none

/-- The metadata that the next step reads or writes. -/
def accesses (slots : List (Slot V)) : Pc P V → Option MetaPtr
  | pollSlot _ i => slots[i]?.bind Slot.metaPtr?
  | pollRelease _ _ p | pollDropWaker _ _ p | dropRelease p | dropDropWaker p => some p
  | wakeSwap _ p | wakeLock _ p | wakeClone _ p | dropWaker p | cloneWaker p => some p
  | _ => none

theorem leaving_count (pc : Pc P V) (p : MetaPtr) : pc.leaving.count p =
    (if pc.oldWaker = some p then 1 else 0) + (if pc.oldSlot = some p then 1 else 0) := by
  cases pc <;> simp [leaving, oldWaker, oldSlot, List.count_cons]

/-- Every access is by a call that has a waker. -/
def Entitled (pc : Pc P V) : Prop :=
  ∀ slots p, pc.accesses slots = some p → pc.owns = some p ∨ pc.borrows = some p

end Pc

/-- The metadata that the pool gives out for this action. -/
def creates : Act (Call P V) → Option MetaPtr
  | .call (.push _ p) => some p
  | _ => none

/-! ## What an action does to the cells -/

/-- The three things an action can do to the cells. -/
inductive Touched (a : Act (Call P V)) (pc : Pc P V) (metas metas' : Metas) : Prop
  | created (p : MetaPtr) (ha : creates a = some p) (hpc : pc.releases = none)
      (hp : metas.refs p = 0) (hnew : metas'.refs = Function.update metas.refs p 2)
  | released (p : MetaPtr) (ha : creates a = none) (hpc : pc.releases = some p)
      (hp : 0 < metas.refs p) (hnew : metas'.refs = Function.update metas.refs p (metas.refs p - 1))
  | kept (ha : creates a = none) (hpc : pc.releases = none)
      (hsome : ∀ p, 0 < metas'.refs p ↔ 0 < metas.refs p)

theorem Touched.of_update {a : Act (Call P V)} {pc : Pc P V} {metas : Metas} {p : MetaPtr}
    {m m' : WakerMeta} (ha : creates a = none) (hpc : pc.releases = none)
    (hp : metas p = some m) (hm : 0 < m.refCount) (hm' : 0 < m'.refCount) :
    Touched a pc metas (Function.update metas p (some m')) := by
  refine .kept ha hpc fun q => ?_
  rw [Metas.refs_update]
  split
  next hq =>
    rw [hq, Metas.refs, hp]
    exact ⟨fun _ => hm, fun _ => hm'⟩
  next => exact Iff.rfl

theorem Touched.of_release {a : Act (Call P V)} {pc : Pc P V} {metas metas' : Metas}
    {p : MetaPtr} (ha : creates a = none) (hpc : pc.releases = some p)
    (halive : ∀ m, metas p = some m → 0 < m.refCount)
    (hrelease : metas.releaseRef p = some metas') : Touched a pc metas metas' := by
  obtain ⟨m, hm, rfl⟩ := Metas.releaseRef_eq_some hrelease
  have hrefs : metas.refs p = m.refCount := by rw [Metas.refs, hm, Option.elim_some]
  have hpos := halive m hm
  refine .released p ha hpc (by omega) (funext fun q => ?_)
  rw [Metas.refs_update, Function.update_apply, hrefs]
  split
  · split
    next h1 => rw [h1, Option.elim_none]
    next => rfl
  · rfl

theorem Touched.refl {a : Act (Call P V)} {pc : Pc P V} (metas : Metas) (ha : creates a = none)
    (hpc : pc.releases = none) : Touched a pc metas metas :=
  .kept ha hpc fun _ => Iff.rfl

theorem Touched.gone_iff {a : Act (Call P V)} {pc : Pc P V} {metas metas' : Metas}
    (h : Touched a pc metas metas') (p : MetaPtr) :
    0 < metas.refs p ∧ metas'.refs p = 0 ↔ pc.releases = some p ∧ metas.refs p = 1 := by
  cases h with
  | created q ha hpc hq hrefs =>
    rw [hrefs, hpc, Function.update_apply]
    split
    next heq =>
      subst heq
      simp
    next =>
      constructor
      · rintro ⟨hpos, hzero⟩
        omega
      · rintro ⟨hnone, -⟩
        cases hnone
  | released q ha hpc hq hrefs =>
    rw [hrefs, hpc, Function.update_apply, Option.some.injEq]
    split
    next heq =>
      subst heq
      constructor
      · rintro ⟨-, hzero⟩
        exact ⟨rfl, by omega⟩
      · rintro ⟨-, hone⟩
        exact ⟨hq, by omega⟩
    next hne =>
      constructor
      · rintro ⟨hpos, hzero⟩
        omega
      · rintro ⟨heq, -⟩
        exact absurd heq.symm hne
  | kept ha hpc hsome =>
    have hp := hsome p
    rw [hpc]
    constructor
    · rintro ⟨hpos, hzero⟩
      omega
    · rintro ⟨hnone, -⟩
      cases hnone

theorem callOwner_touched {c c' : Core P V W} {last : Option (Returned V)} {op : Call P V}
    {pc' : Pc P V} (h : callOwner c op = some (c', pc')) :
    Touched (.call op) (.idle last : Pc P V) c.metas c'.metas := by
  cases op with
  | push side p =>
    obtain ⟨c₁, hpush, heq⟩ := Option.map_eq_some_iff.mp h
    cases heq
    obtain ⟨metas, hm, rfl⟩ := Option.map_eq_some_iff.mp hpush
    obtain ⟨hp, rfl⟩ := Metas.create_eq_some hm
    refine .created p rfl rfl (by rw [Metas.refs, hp, Option.elim_none]) (funext fun q => ?_)
    rw [Metas.refs_update, Function.update_apply, Option.elim_some]
  | pop side =>
    have heq : ((c.pop side).2, Pc.idle (some (.popped (c.pop side).1))) = (c', pc') :=
      Option.some.inj h
    obtain ⟨rfl, -⟩ := Prod.mk.inj heq
    obtain ⟨slots, hpop, -⟩ := c.pop_pendings side
    rw [hpop]
    exact .refl _ rfl rfl
  | poll waker | pollNext side waker | drop =>
    cases h
    exact .refl _ rfl rfl
  | polled poll | wake mode p | cloneWaker p | dropWaker p => cases h

theorem polled_touched {c c' : Core P V W} {pass : Pass} {i : Nat} {p : MetaPtr} {poll : Poll V}
    {pc' : Pc P V} (h : polled c pass i p poll = some (c', pc')) :
    Touched (.call (.polled poll)) (.polling pass i p : Pc P V) c.metas c'.metas := by
  unfold polled at h
  split at h
  next =>
    cases poll with
    | pending | ready value =>
      cases h
      exact .refl _ rfl rfl
  next => cases h

theorem stepOwner_touched [DecidableEq P] {c c' : Core P V W} {pc pc' : Pc P V}
    (halive : ∀ p m, c.metas p = some m → 0 < m.refCount)
    (h : stepOwner c pc = some (c', pc')) : Touched .step pc c.metas c'.metas := by
  cases pc with
  | pollLock pass waker =>
    obtain ⟨c₁, hlock, heq⟩ := Option.map_eq_some_iff.mp h
    cases heq
    rw [Core.lock] at hlock
    split at hlock
    · cases hlock
      exact .refl _ rfl rfl
    · cases hlock
  | pollUpdate pass waker =>
    cases h
    exact .refl _ rfl rfl
  | pollSlot pass i =>
    rw [stepOwner] at h
    split at h
    next =>
      have heq : ((c.finish pass).1, Pc.idle (some (c.finish pass).2)) = (c', pc') :=
        Option.some.inj h
      obtain ⟨rfl, -⟩ := Prod.mk.inj heq
      obtain ⟨slots, hfinish, -⟩ := c.finish_pendings pass
      rw [hfinish]
      exact .refl _ rfl rfl
    next =>
      cases h
      exact .refl _ rfl rfl
    next k p hslot =>
      obtain ⟨⟨was, metas⟩, hcheck, heq⟩ := Option.map_eq_some_iff.mp h
      obtain ⟨m, hm, -, rfl⟩ := Metas.checkActivated_eq_some hcheck
      have hpos := halive p m hm
      cases was with
      | true | false =>
        cases heq
        exact .of_update rfl rfl hm hpos hpos
  | pollRelease pass i p | pollDropWaker pass i p | dropRelease p | dropDropWaker p =>
    obtain ⟨metas, hrelease, heq⟩ := Option.map_eq_some_iff.mp h
    cases heq
    exact .of_release rfl rfl (halive p) hrelease
  | dropSlot =>
    rw [stepOwner] at h
    split at h <;>
    · cases h
      exact .refl _ rfl rfl
  | idle _ | polling _ _ _ | dropped | wakeSwap _ _ | wakeLock _ _ | wakeClone _ _
  | wakeParent _ _ _ | dropWaker _ | cloneWaker _ => cases h

theorem callWaker_touched [DecidableEq W] {t : Option W} {c c' : Core P V W}
    {last : Option (Returned V)} {op : Call P V} {pc' : Pc P V}
    (h : callWaker t c op = some (c', pc')) :
    Touched (.call op) (.idle last : Pc P V) c.metas c'.metas := by
  have hborrow : ∀ {p c₁}, c.borrow t p = some c₁ → c₁.metas = c.metas := by
    intro p c₁ hb
    rw [Core.borrow] at hb
    split at hb
    · cases hb
      rfl
    · cases hb
  have hown : ∀ {p c₁}, c.own t p = some c₁ → c₁.metas = c.metas := by
    intro p c₁ ho
    rw [Core.own] at ho
    split at ho
    · cases ho
      rfl
    · cases ho
  have hkept : ∀ {c₁ : Core P V W}, creates (.call op) = none → c₁.metas = c.metas →
      Touched (.call op) (.idle last : Pc P V) c.metas c₁.metas := by
    intro c₁ ha hm
    rw [hm]
    exact .refl _ ha rfl
  cases op with
  | wake mode p =>
    cases mode with
    | byRef =>
      obtain ⟨c₁, hb, heq⟩ := Option.map_eq_some_iff.mp h
      cases heq
      exact hkept rfl (hborrow hb)
    | byValue =>
      obtain ⟨c₁, ho, heq⟩ := Option.map_eq_some_iff.mp h
      cases heq
      exact hkept rfl (hown ho)
  | cloneWaker p =>
    obtain ⟨c₁, hb, heq⟩ := Option.map_eq_some_iff.mp h
    cases heq
    exact hkept rfl (hborrow hb)
  | dropWaker p =>
    obtain ⟨c₁, ho, heq⟩ := Option.map_eq_some_iff.mp h
    cases heq
    exact hkept rfl (hown ho)
  | push _ _ | pop _ | poll _ | pollNext _ _ | polled _ | drop => cases h

theorem stepWaker_touched [DecidableEq W] {t : Option W} {c c' : Core P V W} {pc pc' : Pc P V}
    (halive : ∀ p m, c.metas p = some m → 0 < m.refCount)
    (h : stepWaker t c pc = some (c', pc')) : Touched .step pc c.metas c'.metas := by
  have hwoken : ∀ {c₁ : Core P V W} {p mode}, c₁.woken t p mode = (c', pc') →
      c'.metas = c₁.metas := by
    intro c₁ p mode heq
    cases mode <;>
    · cases heq
      rfl
  cases pc with
  | wakeSwap mode p =>
    obtain ⟨⟨was, metas⟩, hact, heq⟩ := Option.map_eq_some_iff.mp h
    obtain ⟨m, hm, -, rfl⟩ := Metas.activate_eq_some hact
    have hpos := halive p m hm
    cases was with
    | true =>
      rw [hwoken heq]
      exact .of_update rfl rfl hm hpos hpos
    | false =>
      cases heq
      exact .of_update rfl rfl hm hpos hpos
  | wakeLock mode p =>
    obtain ⟨c₁, hlock, heq⟩ := Option.map_eq_some_iff.mp h
    cases heq
    rw [Core.lock] at hlock
    split at hlock
    · cases hlock
      exact .refl _ rfl rfl
    · cases hlock
  | wakeClone mode p =>
    cases h
    exact .refl _ rfl rfl
  | wakeParent mode p parent =>
    rw [hwoken (Option.some.inj h)]
    exact .refl _ rfl rfl
  | dropWaker p =>
    obtain ⟨metas, hrelease, heq⟩ := Option.map_eq_some_iff.mp h
    cases heq
    exact .of_release rfl rfl (halive p) hrelease
  | cloneWaker p =>
    obtain ⟨metas, hadd, heq⟩ := Option.map_eq_some_iff.mp h
    cases heq
    obtain ⟨m, hm, rfl⟩ := Metas.addRef_eq_some hadd
    exact .of_update rfl rfl hm (halive p m hm) (Nat.succ_pos _)
  | _ => cases h

theorem act_touched [DecidableEq P] [DecidableEq W] {t : Option W} {pc pc' : Pc P V}
    {a : Act (Call P V)} {c c' : Core P V W}
    (halive : ∀ p m, c.metas p = some m → 0 < m.refCount)
    (h : act t pc a c = some (c', pc')) : Touched a pc c.metas c'.metas := by
  rcases act_cases h with ⟨-, last, op, rfl, rfl, hcall⟩ |
    ⟨-, pass, i, p, poll, rfl, rfl, hpolled⟩ | ⟨-, rfl, hstep⟩ |
    ⟨w, -, last, op, rfl, rfl, hcall⟩ | ⟨w, -, rfl, hstep⟩
  · exact callOwner_touched hcall
  · exact polled_touched hpolled
  · exact stepOwner_touched halive hstep
  · exact callWaker_touched hcall
  · exact stepWaker_touched halive hstep

/-! ## The reference of the slot -/

section Runs

variable [DecidableEq P] [DecidableEq W]

omit [DecidableEq W] in
theorem stepOwner_oldSlot {c c' : Core P V W} {pc pc' : Pc P V} {p : MetaPtr} (h : Counted c)
    (hstep : stepOwner c pc = some (c', pc')) (hp : pc'.oldSlot = some p) :
    p ∉ pendings c'.slots := by
  cases pc with
  | dropSlot =>
    rw [stepOwner] at hstep
    split at hstep
    next =>
      cases hstep
      cases hp
    next =>
      cases hstep
      cases hp
    next k q rest hs =>
      cases hstep
      cases hp
      have hdistinct := h.distinct
      rw [hs, pendings_cons_pending] at hdistinct
      exact (List.nodup_cons.mp hdistinct).1
  | pollSlot pass i =>
    rw [stepOwner] at hstep
    split at hstep
    next =>
      have heq : ((c.finish pass).1, Pc.idle (some (c.finish pass).2)) = (c', pc') :=
        Option.some.inj hstep
      obtain ⟨-, rfl⟩ := Prod.mk.inj heq
      cases hp
    next =>
      cases hstep
      cases hp
    next =>
      obtain ⟨⟨was, metas⟩, -, heq⟩ := Option.map_eq_some_iff.mp hstep
      cases was <;>
      · cases heq
        cases hp
  | pollLock _ _ | pollRelease _ _ _ | pollDropWaker _ _ _ | dropRelease _ | dropDropWaker _ =>
    obtain ⟨_, -, heq⟩ := Option.map_eq_some_iff.mp hstep
    cases heq
    cases hp
  | pollUpdate _ _ =>
    cases hstep
    cases hp
  | idle _ | polling _ _ _ | dropped | wakeSwap _ _ | wakeLock _ _ | wakeClone _ _
  | wakeParent _ _ _ | dropWaker _ | cloneWaker _ => cases hstep

/-- A slot that has been taken out is not in the deque. -/
theorem owner_oldSlot {c c' : Core P V W} {pc pc' : Pc P V} {a : Act (Call P V)} {p : MetaPtr}
    (h : Counted c) (hl : Local none pc c) (hact : act none pc a c = some (c', pc'))
    (hp : pc'.oldSlot = some p) : p ∉ pendings c'.slots := by
  rcases act_cases hact with ⟨-, last, op, rfl, -, hcall⟩ |
    ⟨-, pass, i, q, poll, rfl, -, hpolled⟩ | ⟨-, -, hstep⟩ | ⟨w, ht, -⟩ | ⟨w, ht, -⟩
  · cases op with
    | push _ _ =>
      obtain ⟨_, -, heq⟩ := Option.map_eq_some_iff.mp hcall
      cases heq
      cases hp
    | pop _ =>
      have heq : ((c.pop _).2, Pc.idle (some (.popped (c.pop _).1))) = (c', pc') :=
        Option.some.inj hcall
      obtain ⟨-, rfl⟩ := Prod.mk.inj heq
      cases hp
    | poll _ | pollNext _ _ | drop =>
      cases hcall
      cases hp
    | polled _ | wake _ _ | cloneWaker _ | dropWaker _ => cases hcall
  · obtain ⟨k, hslot⟩ := hl.polling rfl pass i q rfl
    unfold polled at hpolled
    split at hpolled
    next =>
      cases poll with
      | pending =>
        cases hpolled
        cases hp
      | ready value =>
        cases hpolled
        cases hp
        obtain ⟨x, y, hold, hnew⟩ := pendings_set hslot value
        have hdistinct := h.distinct
        rw [hold] at hdistinct
        dsimp only
        rw [hnew]
        exact (List.nodup_cons.mp (List.perm_middle.nodup_iff.mp hdistinct)).1
    next => cases hpolled
  · exact stepOwner_oldSlot h hstep hp
  · cases ht
  · cases ht

omit [DecidableEq P] in
theorem woken_entitled {t : Option W} {c c' : Core P V W} {p : MetaPtr} {mode : Mode}
    {pc' : Pc P V} (h : c.woken t p mode = (c', pc')) : pc'.Entitled := by
  cases mode with
  | byRef =>
    cases h
    exact nofun
  | byValue =>
    cases h
    exact fun _ q hq => Or.inl hq

omit [DecidableEq P] in
theorem callWaker_entitled {t : Option W} {c c' : Core P V W} {op : Call P V} {pc' : Pc P V}
    (h : callWaker t c op = some (c', pc')) : pc'.Entitled := by
  cases op with
  | wake mode p =>
    cases mode with
    | byRef =>
      obtain ⟨_, -, heq⟩ := Option.map_eq_some_iff.mp h
      cases heq
      exact fun _ q hq => Or.inr hq
    | byValue =>
      obtain ⟨_, -, heq⟩ := Option.map_eq_some_iff.mp h
      cases heq
      exact fun _ q hq => Or.inl hq
  | cloneWaker p =>
    obtain ⟨_, -, heq⟩ := Option.map_eq_some_iff.mp h
    cases heq
    exact fun _ q hq => Or.inr hq
  | dropWaker p =>
    obtain ⟨_, -, heq⟩ := Option.map_eq_some_iff.mp h
    cases heq
    exact fun _ q hq => Or.inl hq
  | push _ _ | pop _ | poll _ | pollNext _ _ | polled _ | drop => cases h

omit [DecidableEq P] in
theorem stepWaker_entitled {t : Option W} {c c' : Core P V W} {pc pc' : Pc P V}
    (h : stepWaker t c pc = some (c', pc')) : pc'.Entitled := by
  cases pc with
  | wakeSwap mode p =>
    obtain ⟨⟨was, metas⟩, -, heq⟩ := Option.map_eq_some_iff.mp h
    cases was with
    | true => exact woken_entitled heq
    | false =>
      cases heq
      cases mode with
      | byRef => exact fun _ q hq => Or.inr hq
      | byValue => exact fun _ q hq => Or.inl hq
  | wakeLock mode p =>
    obtain ⟨_, -, heq⟩ := Option.map_eq_some_iff.mp h
    cases heq
    cases mode with
    | byRef => exact fun _ q hq => Or.inr hq
    | byValue => exact fun _ q hq => Or.inl hq
  | wakeClone mode p =>
    cases h
    exact nofun
  | wakeParent mode p parent => exact woken_entitled (Option.some.inj h)
  | dropWaker p | cloneWaker p =>
    obtain ⟨_, -, heq⟩ := Option.map_eq_some_iff.mp h
    cases heq
    exact nofun
  | _ => cases h

/-- What the owner and the threads that use wakers know besides. -/
structure Known (t : Option W) (pc : Pc P V) (c : Core P V W) : Prop where
  known : Local t pc c
  oldSlot : t = none → ∀ p, pc.oldSlot = some p → p ∉ pendings c.slots
  entitled : t ≠ none → pc.Entitled

/-- In every reachable state of the deque. -/
theorem reachable_known {noop : P} {σ : Threads (Core P V W) (Pc P V) (Option W)}
    (h : (futureDeque P V W noop).Reachable σ) :
    Counted σ.shared ∧ ∀ t, Known t (σ.pc t) σ.shared := by
  refine threads_invariant (I := Counted) (L := Known) (Counted.new noop) (fun t => ?_) ?_ h
  · exact ⟨⟨fun _ => rfl, fun _ => rfl, nofun, nofun, nofun⟩, nofun, fun _ => nofun⟩
  intro σ t a c' pc' hi hl _ hact
  have hatomic := act_atomic hi (hl t).known hact
  refine ⟨hatomic.counted, ⟨hatomic.local', ?_, fun ht => ?_⟩, fun u hu =>
    ⟨(hl u).known.stable hatomic.frame hu, ?_, (hl u).entitled⟩⟩
  · rintro rfl p hp
    exact owner_oldSlot hi (hl none).known hact hp
  · rcases act_cases hact with ⟨hn, -⟩ | ⟨hn, -⟩ | ⟨hn, -⟩ | ⟨w, -, _, op, -, -, hcall⟩ |
      ⟨w, -, -, hstep⟩
    · exact absurd hn ht
    · exact absurd hn ht
    · exact absurd hn ht
    · exact callWaker_entitled hcall
    · exact stepWaker_entitled hstep
  · rintro rfl p hp
    -- Only the owner changes the slots.
    rw [(hatomic.frame.deque (Ne.symm hu)).2.2.1]
    exact (hl none).oldSlot rfl p hp

omit [DecidableEq P] [DecidableEq W] in
/-- Who is about to read or write a cell has a reference to it, or was lent
a waker for it. -/
theorem Known.refs_pos {t : Option W} {pc : Pc P V} {c : Core P V W} {p : MetaPtr}
    (hl : Known t pc c) (h : Counted c) (hp : pc.accesses c.slots = some p) :
    0 < c.metas.refs p := by
  have hpos : ∀ {m}, c.metas p = some m → 0 < c.metas.refs p := by
    intro m hm
    rw [Metas.refs, hm]
    exact h.alive p m hm
  cases ht : t with
  | some w =>
    rcases hl.entitled (by rw [ht]; rintro ⟨⟩) c.slots p hp with howns | hborrows
    · have hlen := List.length_pos_of_mem (hl.known.owns p howns)
      rw [h.count p]
      omega
    · have hmem := hl.known.borrows p hborrows
      obtain ⟨m, hm⟩ := h.borrowed_allocated (List.ne_nil_of_mem hmem)
      exact hpos hm
  | none =>
    have hleaving := hl.known.leaving ht
    cases pc with
    | pollSlot pass i =>
      obtain ⟨slot, hslot, hmeta⟩ := Option.bind_eq_some_iff.mp hp
      have hmem : p ∈ pendings c.slots :=
        List.mem_filterMap.mpr ⟨slot, List.mem_of_getElem? hslot, hmeta⟩
      obtain ⟨m, hm⟩ := h.pending_allocated hmem
      exact hpos hm
    | pollRelease _ _ q | pollDropWaker _ _ q | dropRelease q | dropDropWaker q =>
      cases hp
      rw [h.count p, hleaving, Pc.leaving, List.count_cons_self]
      omega
    | wakeSwap mode q | wakeLock mode q | wakeClone mode q =>
      cases hp
      cases mode with
      | byRef =>
        obtain ⟨m, hm⟩ := h.borrowed_allocated (List.ne_nil_of_mem (hl.known.borrows p rfl))
        exact hpos hm
      | byValue =>
        have hlen := List.length_pos_of_mem (hl.known.owns p rfl)
        rw [h.count p]
        omega
    | dropWaker q =>
      cases hp
      have hlen := List.length_pos_of_mem (hl.known.owns p rfl)
      rw [h.count p]
      omega
    | cloneWaker q =>
      cases hp
      obtain ⟨m, hm⟩ := h.borrowed_allocated (List.ne_nil_of_mem (hl.known.borrows p rfl))
      exact hpos hm
    | idle _ | pollLock _ _ | pollUpdate _ _ | polling _ _ _ | dropSlot | dropped
    | wakeParent _ _ _ => cases hp

end Runs

end Folo.FutureDeque
