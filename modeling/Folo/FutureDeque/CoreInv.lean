import Folo.FutureDeque.Core

/-!
# Who holds a reference to the metadata of a slot

`Counted` is the invariant of the shared state: the reference count of a cell
is the number of wakers for it outside the deque, those being used up, two
for a pending slot, and those of a slot that is being taken out. So whoever
holds a reference can rely on the cell, and the metadata of different slots
are different. `Local` is what a thread knows at its program counter, and
`reachable_counted` is both for every interleaving.
-/

namespace Folo.FutureDeque

open Folo.Lib

variable {P V W : Type}

/-- The metadata of the pending slots, from front to back. -/
def pendings (slots : List (Slot V)) : List MetaPtr := slots.filterMap Slot.metaPtr?

/-! ## Pending slots and the changes of the deque -/

theorem pendings_append (a b : List (Slot V)) : pendings (a ++ b) = pendings a ++ pendings b :=
  List.filterMap_append

theorem pendings_cons_pending (h : Nat) (p : MetaPtr) (slots : List (Slot V)) :
    pendings (.pending h p :: slots) = p :: pendings slots := rfl

theorem pendings_cons_ready (v : V) (slots : List (Slot V)) :
    pendings (.ready v :: slots) = pendings slots := rfl

/-- The slots around slot `i`. -/
theorem slots_split {slots : List (Slot V)} {i : Nat} {slot : Slot V} (hi : slots[i]? = some slot) :
    slots = slots.take i ++ slot :: slots.drop (i + 1) := by
  obtain ⟨hlt, rfl⟩ := List.getElem?_eq_some_iff.mp hi
  rw [← List.drop_eq_getElem_cons hlt, List.take_append_drop]

theorem mem_pendings {slots : List (Slot V)} {p : MetaPtr} :
    p ∈ pendings slots ↔ ∃ (i h : Nat), slots[i]? = some (.pending h p) := by
  rw [pendings, List.mem_filterMap]
  simp only [List.mem_iff_getElem?]
  constructor
  · rintro ⟨slot, ⟨i, hi⟩, hp⟩
    cases slot with
    | ready v => cases hp
    | pending h q =>
      cases hp
      exact ⟨i, h, hi⟩
  · rintro ⟨i, h, hi⟩
    exact ⟨_, ⟨i, hi⟩, rfl⟩

/-- A slot that becomes ready leaves the pending ones. -/
theorem pendings_set {slots : List (Slot V)} {i h : Nat} {p : MetaPtr}
    (hi : slots[i]? = some (.pending h p)) (v : V) :
    ∃ a b, pendings slots = a ++ p :: b ∧ pendings (slots.set i (.ready v)) = a ++ b := by
  have hlt := (List.getElem?_eq_some_iff.mp hi).1
  refine ⟨pendings (slots.take i), pendings (slots.drop (i + 1)), ?_, ?_⟩
  · conv_lhs => rw [slots_split hi]
    rw [pendings_append, pendings_cons_pending]
  · rw [List.set_eq_take_append_cons_drop, if_pos hlt, pendings_append, pendings_cons_ready]

namespace Core

/-- A new slot is one more pending one. -/
theorem pushSlot_pendings (slots : List (Slot V)) (h : Nat) (p : MetaPtr) (side : End) :
    (pendings (pushSlot slots (.pending h p) side)).Perm (p :: pendings slots) := by
  cases side with
  | front => exact List.Perm.refl _
  | back =>
    rw [pushSlot, pendings_append]
    exact List.perm_append_singleton p _

/-- Popping takes out a slot that is not pending, or nothing. -/
theorem pop_pendings (c : Core P V W) (side : End) : ∃ slots,
    (c.pop side).2 = { c with slots := slots } ∧ pendings slots = pendings c.slots := by
  rw [pop]
  split
  next => exact ⟨c.slots, rfl, rfl⟩
  next slot hs =>
    split
    next hr =>
      obtain ⟨v, rfl⟩ : ∃ v, slot = .ready v := by
        cases slot with
        | ready v => exact ⟨v, rfl⟩
        | pending h p => cases hr
      refine ⟨withoutEnd c.slots side, rfl, ?_⟩
      cases side with
      | front =>
        obtain ⟨rest, hrest⟩ := List.head?_eq_some_iff.mp hs
        rw [hrest]
        rfl
      | back =>
        conv_rhs => rw [← List.dropLast_append_getLast? _ hs]
        rw [pendings_append]
        exact (List.append_nil _).symm
    next => exact ⟨c.slots, rfl, rfl⟩

theorem finish_pendings (c : Core P V W) (pass : Pass) : ∃ slots,
    (c.finish pass).1 = { c with slots := slots } ∧ pendings slots = pendings c.slots := by
  cases pass with
  | poll => exact ⟨c.slots, rfl, rfl⟩
  | next side =>
    have hpop := c.pop_pendings side
    rw [finish]
    generalize c.pop side = res at hpop
    obtain ⟨_ | v, c'⟩ := res
    · exact hpop
    · exact hpop

end Core

namespace Metas

theorem refs_update (metas : Metas) (p : MetaPtr) (o : Option WakerMeta) (q : MetaPtr) :
    refs (Function.update metas p o) q =
      if q = p then o.elim 0 WakerMeta.refCount else metas.refs q := by
  unfold refs
  by_cases hq : q = p
  · subst hq
    simp
  · simp [hq]

end Metas

/-- The invariant of the shared state. -/
structure Counted (c : Core P V W) : Prop where
  count : ∀ p, c.metas.refs p =
    c.held p + (c.owned p).length + 2 * (pendings c.slots).count p + c.leaving.count p
  alive : ∀ p m, c.metas p = some m → 0 < m.refCount
  distinct : (pendings c.slots).Nodup
  lent : ∀ p, c.Free p (c.held p) c.context
  context : ∀ p, c.context = some p → p ∈ pendings c.slots

namespace Counted

/-- Who holds a reference finds the cell allocated. -/
theorem allocated {c : Core P V W} (h : Counted c) {p : MetaPtr}
    (hp : 0 < c.held p + (c.owned p).length + 2 * (pendings c.slots).count p +
      c.leaving.count p) : ∃ m, c.metas p = some m := by
  rw [← h.count] at hp
  cases hm : c.metas p with
  | some m => exact ⟨m, rfl⟩
  | none => simp [Metas.refs, hm] at hp

theorem pending_allocated {c : Core P V W} (h : Counted c) {p : MetaPtr}
    (hp : p ∈ pendings c.slots) : ∃ m, c.metas p = some m := by
  have hpos := List.count_pos_iff.mpr hp
  exact h.allocated (by omega)

/-- So does a call on a borrowed waker. -/
theorem borrowed_allocated {c : Core P V W} (h : Counted c) {p : MetaPtr}
    (hp : c.borrowed p ≠ []) : ∃ m, c.metas p = some m := by
  rcases h.lent p with hb | hb | hb
  · exact absurd hb hp
  · exact h.allocated (by omega)
  · exact h.pending_allocated (h.context p hb)

theorem unallocated {c : Core P V W} (h : Counted c) {p : MetaPtr} (hp : c.metas p = none) :
    c.held p = 0 ∧ c.owned p = [] ∧ p ∉ pendings c.slots ∧ c.borrowed p = [] := by
  have hcount := h.count p
  rw [Metas.refs, hp, Option.elim_none] at hcount
  have hpend : p ∉ pendings c.slots := List.count_eq_zero.mp (by omega)
  refine ⟨by omega, List.length_eq_zero_iff.mp (by omega), hpend, ?_⟩
  rcases h.lent p with hb | hb | hb
  · exact hb
  · omega
  · exact absurd (h.context p hb) hpend

theorem new (noop : P) : Counted (Core.new P V W noop) where
  count p := rfl
  alive p m hm := by cases hm
  distinct := List.nodup_nil
  lent p := Or.inl rfl
  context p hp := by cases hp

/-- Exchanging the flag of a cell leaves the counts alone. -/
theorem setFlag {c : Core P V W} (h : Counted c) {p : MetaPtr} {m : WakerMeta}
    (hm : c.metas p = some m) (b : Bool) :
    Counted { c with metas := Function.update c.metas p (some { m with activated := b }) } := by
  refine ⟨fun q => ?_, fun q n hn => ?_, h.distinct, h.lent, h.context⟩
  · rw [Metas.refs_update, ← h.count q]
    split
    next hq =>
      subst hq
      rw [Metas.refs, hm]
      rfl
    next => rfl
  · dsimp only at hn
    rw [Function.update_apply] at hn
    split at hn
    next =>
      cases hn
      exact h.alive p m hm
    next => exact h.alive q n hn

/-- A slot that is taken out takes its two references along. -/
theorem takeOut {c : Core P V W} (h : Counted c) {slots : List (Slot V)} {a b : List MetaPtr}
    {p : MetaPtr} (hold : pendings c.slots = a ++ p :: b) (hnew : pendings slots = a ++ b)
    (hl : c.leaving = []) (hb : c.Free p (c.held p) none)
    (hc : ∀ q, c.context = some q → q = p) :
    Counted { c with slots := slots, context := none, leaving := [p, p] } := by
  refine ⟨fun q => ?_, h.alive, ?_, fun q => ?_, fun q hq => by cases hq⟩
  · have hcount := h.count q
    rw [hold, hl] at hcount
    dsimp only
    rw [hcount, hnew]
    simp only [List.count_append, List.count_cons, List.count_nil]
    omega
  · have hd := h.distinct
    rw [hold] at hd
    rw [hnew]
    exact hd.sublist (List.Sublist.append_left (List.sublist_cons_self p b) a)
  · by_cases hq : q = p
    · subst hq
      exact hb
    · rcases h.lent q with hl | hl | hl
      · exact Or.inl hl
      · exact Or.inr (Or.inl hl)
      · exact absurd (hc q hl) hq

/-- One reference of a slot that has been taken out is released. -/
theorem release {c : Core P V W} (h : Counted c) {p : MetaPtr} {rest : List MetaPtr}
    (hl : c.leaving = p :: rest) {metas : Metas} (hm : c.metas.releaseRef p = some metas) :
    Counted { c with metas := metas, leaving := rest } := by
  obtain ⟨m, hp, rfl⟩ := Metas.releaseRef_eq_some hm
  have hpos := h.alive p m hp
  refine ⟨fun q => ?_, fun q n hn => ?_, h.distinct, h.lent, h.context⟩
  · have hcount := h.count q
    rw [hl, List.count_cons] at hcount
    dsimp only
    rw [Metas.refs_update]
    by_cases hq : q = p
    · subst hq
      rw [Metas.refs, hp, Option.elim_some] at hcount
      rw [if_pos rfl]
      simp only [beq_self_eq_true, if_true] at hcount
      split
      next h1 =>
        rw [Option.elim_none]
        omega
      next h1 =>
        rw [Option.elim_some]
        dsimp only
        omega
    · rw [if_neg hq, hcount]
      simp [Ne.symm hq]
  · dsimp only at hn
    rw [Function.update_apply] at hn
    split at hn
    next =>
      split at hn
      next => cases hn
      next h1 =>
        cases hn
        dsimp only
        omega
    next => exact h.alive q n hn

/-- A new slot comes with the two references its metadata starts with. -/
theorem push {c c' : Core P V W} (h : Counted c) {side : End} {p : MetaPtr}
    (hpush : c.push side p = some c') : Counted c' := by
  obtain ⟨metas, hm, rfl⟩ := Option.map_eq_some_iff.mp hpush
  obtain ⟨hp, rfl⟩ := Metas.create_eq_some hm
  obtain ⟨hheld, howned, hpend, hborrowed⟩ := h.unallocated hp
  have hperm := Core.pushSlot_pendings c.slots c.futures p side
  refine ⟨fun q => ?_, fun q n hn => ?_, ?_, h.lent, fun q hq => ?_⟩
  · have hcount := h.count q
    dsimp only
    rw [Metas.refs_update, hperm.count_eq, List.count_cons]
    by_cases hq : q = p
    · subst hq
      rw [Metas.refs, hp, Option.elim_none] at hcount
      simp only [if_true, Option.elim_some, beq_self_eq_true]
      omega
    · rw [if_neg hq, hcount]
      simp [Ne.symm hq]
  · dsimp only at hn
    rw [Function.update_apply] at hn
    split at hn
    next =>
      cases hn
      decide
    next => exact h.alive q n hn
  · exact hperm.nodup_iff.mpr (List.nodup_cons.mpr ⟨hpend, h.distinct⟩)
  · exact hperm.mem_iff.mpr (List.mem_cons_of_mem _ (h.context q hq))

/-- Only the pending slots hold references. -/
theorem setSlots {c : Core P V W} (h : Counted c) {slots : List (Slot V)}
    (hs : pendings slots = pendings c.slots) : Counted { c with slots := slots } :=
  ⟨fun q => by dsimp only; rw [hs]; exact h.count q, h.alive,
    by dsimp only; rw [hs]; exact h.distinct, h.lent,
    fun q hq => by dsimp only; rw [hs]; exact h.context q hq⟩

/-- The waker of a pending slot is lent to its future. -/
theorem lend {c : Core P V W} (h : Counted c) {p : MetaPtr} (hp : p ∈ pendings c.slots)
    (hc : c.context = none) : Counted { c with context := some p } := by
  refine ⟨h.count, h.alive, h.distinct, fun q => ?_, fun q hq => ?_⟩
  · rcases h.lent q with hl | hl | hl
    · exact Or.inl hl
    · exact Or.inr (Or.inl hl)
    · rw [hc] at hl
      cases hl
  · cases hq
    exact hp

/-- The future returns its borrowed waker. -/
theorem giveBack {c : Core P V W} (h : Counted c) {p : MetaPtr} (hb : c.Free p (c.held p) none)
    (hc : c.context = some p) : Counted { c with context := none } := by
  refine ⟨h.count, h.alive, h.distinct, fun q => ?_, fun q hq => by cases hq⟩
  by_cases hq : q = p
  · subst hq
    exact hb
  · rcases h.lent q with hl | hl | hl
    · exact Or.inl hl
    · exact Or.inr (Or.inl hl)
    · rw [hc] at hl
      exact absurd (Option.some.inj hl).symm hq

theorem lock {c c' : Core P V W} (h : Counted c) {t : Option W} (hl : c.lock t = some c') :
    Counted c' := by
  rw [Core.lock] at hl
  split at hl
  next =>
    cases hl
    exact ⟨h.count, h.alive, h.distinct, h.lent, h.context⟩
  next => cases hl

theorem own {c c' : Core P V W} (h : Counted c) {t : Option W} {p : MetaPtr}
    (ho : c.own t p = some c') : Counted c' := by
  rw [Core.own] at ho
  split at ho
  next hfree =>
    cases ho
    refine ⟨fun q => ?_, h.alive, h.distinct, fun q => ?_, h.context⟩
    · have hcount := h.count q
      dsimp only
      rw [hcount]
      by_cases hq : q = p
      · subst hq
        rw [Function.update_self, Function.update_self, List.length_cons]
        omega
      · rw [Function.update_of_ne hq, Function.update_of_ne hq]
    · dsimp only
      by_cases hq : q = p
      · subst hq
        rw [Function.update_self]
        exact hfree.2
      · rw [Function.update_of_ne hq]
        exact h.lent q
  next => cases ho

variable [DecidableEq W]

theorem borrow {c c' : Core P V W} (h : Counted c) {t : Option W} {p : MetaPtr}
    (hb : c.borrow t p = some c') : Counted c' := by
  rw [Core.borrow] at hb
  split at hb
  next hfree =>
    cases hb
    refine ⟨h.count, h.alive, h.distinct, fun q => ?_, h.context⟩
    by_cases hq : q = p
    · subst hq
      exact Or.inr hfree
    · rcases h.lent q with hl | hl
      · left
        dsimp only
        rw [Function.update_of_ne hq, hl]
      · exact Or.inr hl
  next => cases hb

/-- A borrowed waker is returned. -/
theorem unborrow {c : Core P V W} (h : Counted c) (t : Option W) (p : MetaPtr) :
    Counted { c with borrowed := Function.update c.borrowed p ((c.borrowed p).erase t) } := by
  refine ⟨h.count, h.alive, h.distinct, fun q => ?_, h.context⟩
  rcases h.lent q with hl | hl
  · left
    dsimp only
    rw [Function.update_apply]
    split
    next hq =>
      subst hq
      rw [hl, List.erase_nil]
    next => exact hl
  · exact Or.inr hl

/-- A waker that is being used up releases its reference. -/
theorem dropWaker {c : Core P V W} (h : Counted c) {t : Option W} {p : MetaPtr}
    (ht : t ∈ c.owned p) {metas : Metas} (hm : c.metas.releaseRef p = some metas) :
    Counted { c with
      metas := metas
      owned := Function.update c.owned p ((c.owned p).erase t) } := by
  obtain ⟨m, hp, rfl⟩ := Metas.releaseRef_eq_some hm
  have hpos := h.alive p m hp
  have hlen := List.length_erase_of_mem ht
  have hlt := List.length_pos_of_mem ht
  refine ⟨fun q => ?_, fun q n hn => ?_, h.distinct, h.lent, h.context⟩
  · have hcount := h.count q
    dsimp only
    rw [Metas.refs_update]
    by_cases hq : q = p
    · subst hq
      rw [Metas.refs, hp, Option.elim_some] at hcount
      rw [if_pos rfl, Function.update_self, hlen]
      split
      next h1 =>
        rw [Option.elim_none]
        omega
      next h1 =>
        rw [Option.elim_some]
        dsimp only
        omega
    · rw [if_neg hq, hcount, Function.update_of_ne hq]
  · dsimp only at hn
    rw [Function.update_apply] at hn
    split at hn
    next =>
      split at hn
      next => cases hn
      next h1 =>
        cases hn
        dsimp only
        omega
    next => exact h.alive q n hn

/-- A clone adds a waker and its reference. -/
theorem cloneWaker {c : Core P V W} (h : Counted c) (t : Option W) {p : MetaPtr}
    {metas : Metas} (hm : c.metas.addRef p = some metas) :
    Counted { c with
      metas := metas
      held := Function.update c.held p (c.held p + 1)
      borrowed := Function.update c.borrowed p ((c.borrowed p).erase t) } := by
  obtain ⟨m, hp, rfl⟩ := Metas.addRef_eq_some hm
  have hunborrowed := h.unborrow t p
  refine ⟨fun q => ?_, fun q n hn => ?_, h.distinct, fun q => ?_, h.context⟩
  · have hcount := h.count q
    dsimp only
    rw [Metas.refs_update]
    by_cases hq : q = p
    · subst hq
      rw [Metas.refs, hp, Option.elim_some] at hcount
      rw [if_pos rfl, Function.update_self, Option.elim_some]
      dsimp only
      omega
    · rw [if_neg hq, hcount, Function.update_of_ne hq]
  · dsimp only at hn
    rw [Function.update_apply] at hn
    split at hn
    next =>
      cases hn
      exact Nat.succ_pos _
    next => exact h.alive q n hn
  · rcases hunborrowed.lent q with hl | hl | hl
    · exact Or.inl hl
    · right
      left
      dsimp only at hl ⊢
      rw [Function.update_apply]
      split
      next => exact Nat.succ_pos _
      next => exact hl
    · exact Or.inr (Or.inr hl)

end Counted

/-! ## What a thread knows -/

namespace Pc

/-- The metadata whose waker is lent out at this point. -/
def context : Pc P V → Option MetaPtr
  | polling _ _ p => some p
  | _ => none

/-- The references still to be released at this point. -/
def leaving : Pc P V → List MetaPtr
  | pollRelease _ _ p | dropRelease p => [p, p]
  | pollDropWaker _ _ p | dropDropWaker p => [p]
  | _ => []

/-- The metadata whose waker is being used up. -/
def owns : Pc P V → Option MetaPtr
  | wakeSwap .byValue p | wakeLock .byValue p | wakeClone .byValue p | wakeParent .byValue p _
  | dropWaker p => some p
  | _ => none

/-- The metadata whose waker is borrowed. -/
def borrows : Pc P V → Option MetaPtr
  | wakeSwap .byRef p | wakeLock .byRef p | wakeClone .byRef p | wakeParent .byRef p _
  | cloneWaker p => some p
  | _ => none

end Pc

/-- What thread `t` knows of the shared state. -/
structure Local (t : Option W) (pc : Pc P V) (c : Core P V W) : Prop where
  context : t = none → c.context = pc.context
  leaving : t = none → c.leaving = pc.leaving
  polling : t = none → ∀ pass i p, pc = .polling pass i p →
    ∃ h, c.slots[i]? = some (.pending h p)
  owns : ∀ p, pc.owns = some p → t ∈ c.owned p
  borrows : ∀ p, pc.borrows = some p → t ∈ c.borrowed p

/-- What a step of `t` leaves alone. -/
structure Frame (t : Option W) (c c' : Core P V W) : Prop where
  owned : ∀ u, u ≠ t → ∀ p, u ∈ c.owned p → u ∈ c'.owned p
  borrowed : ∀ u, u ≠ t → ∀ p, u ∈ c.borrowed p → u ∈ c'.borrowed p
  deque : t ≠ none → c'.context = c.context ∧ c'.leaving = c.leaving ∧ c'.slots = c.slots ∧
    c'.futures = c.futures

theorem Local.stable {t u : Option W} {pc : Pc P V} {c c' : Core P V W} (h : Local u pc c)
    (hf : Frame t c c') (hu : u ≠ t) : Local u pc c' := by
  have hdeque : u = none → c'.context = c.context ∧ c'.leaving = c.leaving ∧
      c'.slots = c.slots ∧ c'.futures = c.futures :=
    fun hn => hf.deque fun ht => hu (hn.trans ht.symm)
  refine ⟨fun hn => ?_, fun hn => ?_, fun hn pass i p hpc => ?_, fun p hp => ?_, fun p hp => ?_⟩
  · rw [(hdeque hn).1]
    exact h.context hn
  · rw [(hdeque hn).2.1]
    exact h.leaving hn
  · rw [(hdeque hn).2.2.1]
    exact h.polling hn pass i p hpc
  · exact hf.owned u hu p (h.owns p hp)
  · exact hf.borrowed u hu p (h.borrows p hp)

/-- At a point of the owner that lends no waker out. -/
theorem Local.owner {pc : Pc P V} {c : Core P V W} (hc : c.context = none)
    (hl : c.leaving = pc.leaving) (hpc : pc.context = none ∧ pc.owns = none ∧ pc.borrows = none) :
    Local none pc c := by
  obtain ⟨hcontext, howns, hborrows⟩ := hpc
  refine ⟨fun _ => hc.trans hcontext.symm, fun _ => hl, fun _ pass i p heq => ?_,
    fun p hp => ?_, fun p hp => ?_⟩
  · rw [heq] at hcontext
    cases hcontext
  · rw [howns] at hp
    cases hp
  · rw [hborrows] at hp
    cases hp

/-- At a point of a call on a waker. -/
theorem Local.user {w : W} {pc : Pc P V} {c : Core P V W}
    (howns : ∀ p, pc.owns = some p → some w ∈ c.owned p)
    (hborrows : ∀ p, pc.borrows = some p → some w ∈ c.borrowed p) : Local (some w) pc c :=
  ⟨nofun, nofun, nofun, howns, hborrows⟩

theorem Frame.owner {c c' : Core P V W} (ho : c'.owned = c.owned)
    (hb : c'.borrowed = c.borrowed) : Frame none c c' :=
  ⟨fun u _ p hu => by rw [ho]; exact hu, fun u _ p hu => by rw [hb]; exact hu,
    fun hn => absurd rfl hn⟩

section Steps

variable [DecidableEq P] [DecidableEq W]

/-- The five kinds of steps. -/
theorem act_cases {t : Option W} {pc : Pc P V} {a : Act (Call P V)} {c : Core P V W}
    {r : Core P V W × Pc P V} (h : act t pc a c = some r) :
    (t = none ∧ ∃ last op, pc = .idle last ∧ a = .call op ∧ callOwner c op = some r) ∨
    (t = none ∧ ∃ pass i p poll, pc = .polling pass i p ∧ a = .call (.polled poll) ∧
      polled c pass i p poll = some r) ∨
    (t = none ∧ a = .step ∧ stepOwner c pc = some r) ∨
    (∃ w, t = some w ∧ ∃ last op, pc = .idle last ∧ a = .call op ∧ callWaker t c op = some r) ∨
    (∃ w, t = some w ∧ a = .step ∧ stepWaker t c pc = some r) := by
  unfold act at h
  split at h
  · exact Or.inl ⟨rfl, _, _, rfl, rfl, h⟩
  · exact Or.inr (Or.inl ⟨rfl, _, _, _, _, rfl, rfl, h⟩)
  · exact Or.inr (Or.inr (Or.inl ⟨rfl, rfl, h⟩))
  · exact Or.inr (Or.inr (Or.inr (Or.inl ⟨_, rfl, _, _, rfl, rfl, h⟩)))
  · exact Or.inr (Or.inr (Or.inr (Or.inr ⟨_, rfl, rfl, h⟩)))
  · cases h

/-- What a step of `t` to `pc'` and `c'` has to keep. -/
structure Atomic (t : Option W) (pc' : Pc P V) (c c' : Core P V W) : Prop where
  counted : Counted c'
  local' : Local t pc' c'
  frame : Frame t c c'

omit [DecidableEq P] [DecidableEq W] in
theorem callOwner_atomic {last : Option (Returned V)} {op : Call P V} {c c' : Core P V W}
    {pc' : Pc P V} (h : Counted c) (hl : Local none (.idle last) c)
    (hcall : callOwner c op = some (c', pc')) : Atomic none pc' c c' := by
  have hc := hl.context rfl
  have hleaving := hl.leaving rfl
  cases op with
  | push side p =>
    obtain ⟨c₁, hpush, heq⟩ := Option.map_eq_some_iff.mp hcall
    cases heq
    have hcounted := h.push hpush
    obtain ⟨metas, -, rfl⟩ := Option.map_eq_some_iff.mp hpush
    exact ⟨hcounted, .owner hc hleaving ⟨rfl, rfl, rfl⟩, .owner rfl rfl⟩
  | pop side =>
    obtain ⟨slots, hpop, hs⟩ := c.pop_pendings side
    have heq : ((c.pop side).2, Pc.idle (some (.popped (c.pop side).1))) = (c', pc') :=
      Option.some.inj hcall
    obtain ⟨rfl, rfl⟩ := Prod.mk.inj heq
    rw [hpop]
    exact ⟨h.setSlots hs, .owner hc hleaving ⟨rfl, rfl, rfl⟩, .owner rfl rfl⟩
  | poll waker | pollNext side waker | drop =>
    cases hcall
    exact ⟨h, .owner hc hleaving ⟨rfl, rfl, rfl⟩, .owner rfl rfl⟩
  | polled poll | wake mode p | cloneWaker p | dropWaker p => cases hcall

omit [DecidableEq P] [DecidableEq W] in
theorem polled_atomic {pass : Pass} {i : Nat} {p : MetaPtr} {poll : Poll V} {c c' : Core P V W}
    {pc' : Pc P V} (h : Counted c) (hl : Local none (.polling pass i p) c)
    (hpolled : polled c pass i p poll = some (c', pc')) : Atomic none pc' c c' := by
  have hc := hl.context rfl
  have hleaving := hl.leaving rfl
  obtain ⟨k, hslot⟩ := hl.polling rfl pass i p rfl
  unfold polled at hpolled
  split at hpolled
  next hfree =>
    cases poll with
    | pending =>
      cases hpolled
      exact ⟨h.giveBack hfree hc, .owner rfl hleaving ⟨rfl, rfl, rfl⟩, .owner rfl rfl⟩
    | ready value =>
      cases hpolled
      obtain ⟨a, b, hold, hnew⟩ := pendings_set hslot value
      refine ⟨h.takeOut hold hnew hleaving hfree fun q hq => ?_,
        .owner rfl rfl ⟨rfl, rfl, rfl⟩, .owner rfl rfl⟩
      rw [hc] at hq
      exact (Option.some.inj hq).symm
  next => cases hpolled

omit [DecidableEq W] in
theorem stepOwner_atomic {pc pc' : Pc P V} {c c' : Core P V W} (h : Counted c)
    (hl : Local none pc c) (hstep : stepOwner c pc = some (c', pc')) :
    Atomic none pc' c c' := by
  have hc := hl.context rfl
  have hleaving := hl.leaving rfl
  cases pc with
  | pollLock pass waker =>
    obtain ⟨c₁, hlock, heq⟩ := Option.map_eq_some_iff.mp hstep
    cases heq
    have hcounted := h.lock hlock
    rw [Core.lock] at hlock
    split at hlock
    · cases hlock
      exact ⟨hcounted, .owner hc hleaving ⟨rfl, rfl, rfl⟩, .owner rfl rfl⟩
    · cases hlock
  | pollUpdate pass waker =>
    cases hstep
    exact ⟨⟨h.count, h.alive, h.distinct, h.lent, h.context⟩,
      .owner hc hleaving ⟨rfl, rfl, rfl⟩, .owner rfl rfl⟩
  | pollSlot pass i =>
    rw [stepOwner] at hstep
    split at hstep
    next =>
      obtain ⟨slots, hfinish, hs⟩ := c.finish_pendings pass
      have heq : ((c.finish pass).1, Pc.idle (some (c.finish pass).2)) = (c', pc') :=
        Option.some.inj hstep
      obtain ⟨rfl, rfl⟩ := Prod.mk.inj heq
      rw [hfinish]
      exact ⟨h.setSlots hs, .owner hc hleaving ⟨rfl, rfl, rfl⟩, .owner rfl rfl⟩
    next =>
      cases hstep
      exact ⟨h, .owner hc hleaving ⟨rfl, rfl, rfl⟩, .owner rfl rfl⟩
    next k p hslot =>
      obtain ⟨⟨was, metas⟩, hcheck, heq⟩ := Option.map_eq_some_iff.mp hstep
      obtain ⟨m, hm, -, rfl⟩ := Metas.checkActivated_eq_some hcheck
      have hcounted := h.setFlag hm false
      cases was with
      | true =>
        cases heq
        refine ⟨hcounted.lend (mem_pendings.mpr ⟨i, k, hslot⟩) hc, ?_, .owner rfl rfl⟩
        refine ⟨fun _ => rfl, fun _ => hleaving, fun _ pass' i' p' hpc => ?_, nofun, nofun⟩
        cases hpc
        exact ⟨k, hslot⟩
      | false =>
        cases heq
        exact ⟨hcounted, .owner hc hleaving ⟨rfl, rfl, rfl⟩, .owner rfl rfl⟩
  | pollRelease pass i p | dropRelease p | pollDropWaker pass i p | dropDropWaker p =>
    obtain ⟨metas, hrelease, heq⟩ := Option.map_eq_some_iff.mp hstep
    cases heq
    exact ⟨h.release hleaving hrelease, .owner hc rfl ⟨rfl, rfl, rfl⟩, .owner rfl rfl⟩
  | dropSlot =>
    rw [stepOwner] at hstep
    split at hstep
    next =>
      cases hstep
      exact ⟨h, .owner hc hleaving ⟨rfl, rfl, rfl⟩, .owner rfl rfl⟩
    next v rest hs =>
      cases hstep
      exact ⟨h.setSlots (by rw [hs, pendings_cons_ready]), .owner hc hleaving ⟨rfl, rfl, rfl⟩,
        .owner rfl rfl⟩
    next k p rest hs =>
      cases hstep
      have hfree : c.Free p (c.held p) none := by
        have hlent := h.lent p
        rwa [hc] at hlent
      have hold : pendings c.slots = [] ++ p :: pendings rest := by rw [hs]; rfl
      have hnew : pendings rest = [] ++ pendings rest := rfl
      have htake := h.takeOut hold hnew hleaving hfree
        (fun q hq => by rw [hc] at hq; cases hq)
      rw [hc]
      exact ⟨htake, .owner rfl rfl ⟨rfl, rfl, rfl⟩, .owner rfl rfl⟩
  | idle _ | polling _ _ _ | dropped | wakeSwap _ _ | wakeLock _ _ | wakeClone _ _
  | wakeParent _ _ _ | dropWaker _ | cloneWaker _ => cases hstep

omit [DecidableEq P] in
theorem callWaker_atomic {w : W} {op : Call P V} {c c' : Core P V W}
    {pc' : Pc P V} (h : Counted c)
    (hcall : callWaker (some w) c op = some (c', pc')) : Atomic (some w) pc' c c' := by
  -- A borrowed waker is entered in `borrowed`, one that is used up in `owned`.
  have hborrow : ∀ {p c₁}, c.borrow (some w) p = some c₁ → Counted c₁ ∧
      some w ∈ c₁.borrowed p ∧ Frame (some w) c c₁ := by
    intro p c₁ hb
    refine ⟨h.borrow hb, ?_⟩
    rw [Core.borrow] at hb
    split at hb
    next =>
      cases hb
      refine ⟨by simp, fun u _ q hu => hu, fun u _ q hu => ?_, fun _ => ⟨rfl, rfl, rfl, rfl⟩⟩
      dsimp only
      rw [Function.update_apply]
      split
      next hq =>
        rw [← hq]
        exact List.mem_cons_of_mem _ hu
      next => exact hu
    next => cases hb
  have hown : ∀ {p c₁}, c.own (some w) p = some c₁ → Counted c₁ ∧
      some w ∈ c₁.owned p ∧ Frame (some w) c c₁ := by
    intro p c₁ ho
    refine ⟨h.own ho, ?_⟩
    rw [Core.own] at ho
    split at ho
    next =>
      cases ho
      refine ⟨by simp, fun u _ q hu => ?_, fun u _ q hu => hu, fun _ => ⟨rfl, rfl, rfl, rfl⟩⟩
      dsimp only
      rw [Function.update_apply]
      split
      next hq =>
        rw [← hq]
        exact List.mem_cons_of_mem _ hu
      next => exact hu
    next => cases ho
  cases op with
  | wake mode p =>
    cases mode with
    | byRef =>
      obtain ⟨c₁, hb, heq⟩ := Option.map_eq_some_iff.mp hcall
      cases heq
      obtain ⟨hcounted, hmem, hframe⟩ := hborrow hb
      exact ⟨hcounted, .user nofun fun q hq => by cases hq; exact hmem, hframe⟩
    | byValue =>
      obtain ⟨c₁, ho, heq⟩ := Option.map_eq_some_iff.mp hcall
      cases heq
      obtain ⟨hcounted, hmem, hframe⟩ := hown ho
      exact ⟨hcounted, .user (fun q hq => by cases hq; exact hmem) nofun, hframe⟩
  | cloneWaker p =>
    obtain ⟨c₁, hb, heq⟩ := Option.map_eq_some_iff.mp hcall
    cases heq
    obtain ⟨hcounted, hmem, hframe⟩ := hborrow hb
    exact ⟨hcounted, .user nofun fun q hq => by cases hq; exact hmem, hframe⟩
  | dropWaker p =>
    obtain ⟨c₁, ho, heq⟩ := Option.map_eq_some_iff.mp hcall
    cases heq
    obtain ⟨hcounted, hmem, hframe⟩ := hown ho
    exact ⟨hcounted, .user (fun q hq => by cases hq; exact hmem) nofun, hframe⟩
  | push _ _ | pop _ | poll _ | pollNext _ _ | polled _ | drop => cases hcall

/-- Erasing one thread keeps the others. -/
theorem mem_erase_update {f : MetaPtr → List (Option W)} {t u : Option W} (hu : u ≠ t)
    {p q : MetaPtr} (h : u ∈ f q) : u ∈ Function.update f p ((f p).erase t) q := by
  rw [Function.update_apply]
  split
  next hq =>
    subst hq
    exact (List.mem_erase_of_ne hu).mpr h
  next => exact h

omit [DecidableEq P] in
/-- The end of `wake_by_ref_raw_waker`. -/
theorem woken_atomic {w : W} {mode : Mode} {p : MetaPtr} {c c' : Core P V W} {pc' : Pc P V}
    (h : Counted c) (howned : mode = .byValue → some w ∈ c.owned p)
    (heq : c.woken (some w) p mode = (c', pc')) : Atomic (some w) pc' c c' := by
  cases mode with
  | byRef =>
    cases heq
    exact ⟨h.unborrow (some w) p, .user nofun nofun, fun u _ q hu => hu,
      fun u hu q hmem => mem_erase_update hu hmem, fun _ => ⟨rfl, rfl, rfl, rfl⟩⟩
  | byValue =>
    cases heq
    exact ⟨h, .user (fun q hq => by cases hq; exact howned rfl) nofun, fun u _ q hu => hu,
      fun u _ q hu => hu, fun _ => ⟨rfl, rfl, rfl, rfl⟩⟩

omit [DecidableEq P] in
theorem stepWaker_atomic {w : W} {pc pc' : Pc P V} {c c' : Core P V W} (h : Counted c)
    (hl : Local (some w) pc c) (hstep : stepWaker (some w) c pc = some (c', pc')) :
    Atomic (some w) pc' c c' := by
  cases pc with
  | wakeSwap mode p =>
    obtain ⟨⟨was, metas⟩, hact, heq⟩ := Option.map_eq_some_iff.mp hstep
    obtain ⟨m, hm, -, rfl⟩ := Metas.activate_eq_some hact
    have hcounted := h.setFlag hm true
    cases was with
    | true =>
      have hatomic := woken_atomic hcounted
        (fun hmode => hl.owns p (by subst hmode; rfl)) heq
      exact ⟨hatomic.counted, hatomic.local', hatomic.frame.owned, hatomic.frame.borrowed,
        hatomic.frame.deque⟩
    | false =>
      cases heq
      refine ⟨hcounted, .user (fun q hq => hl.owns q ?_) (fun q hq => hl.borrows q ?_),
        fun u _ q hu => hu, fun u _ q hu => hu, fun _ => ⟨rfl, rfl, rfl, rfl⟩⟩
      · cases mode <;> exact hq
      · cases mode <;> exact hq
  | wakeLock mode p =>
    obtain ⟨c₁, hlock, heq⟩ := Option.map_eq_some_iff.mp hstep
    cases heq
    have hcounted := h.lock hlock
    rw [Core.lock] at hlock
    split at hlock
    next =>
      cases hlock
      refine ⟨hcounted, .user (fun q hq => hl.owns q ?_) (fun q hq => hl.borrows q ?_),
        fun u _ q hu => hu, fun u _ q hu => hu, fun _ => ⟨rfl, rfl, rfl, rfl⟩⟩
      · cases mode <;> exact hq
      · cases mode <;> exact hq
    next => cases hlock
  | wakeClone mode p =>
    cases hstep
    refine ⟨⟨h.count, h.alive, h.distinct, h.lent, h.context⟩,
      .user (fun q hq => hl.owns q ?_) (fun q hq => hl.borrows q ?_),
      fun u _ q hu => hu, fun u _ q hu => hu, fun _ => ⟨rfl, rfl, rfl, rfl⟩⟩
    · cases mode <;> exact hq
    · cases mode <;> exact hq
  | wakeParent mode p parent =>
    exact woken_atomic h (fun hmode => hl.owns p (by subst hmode; rfl)) (Option.some.inj hstep)
  | dropWaker p =>
    obtain ⟨metas, hrelease, heq⟩ := Option.map_eq_some_iff.mp hstep
    cases heq
    exact ⟨h.dropWaker (hl.owns p rfl) hrelease, .user nofun nofun,
      fun u hu q hmem => mem_erase_update hu hmem, fun u _ q hu => hu,
      fun _ => ⟨rfl, rfl, rfl, rfl⟩⟩
  | cloneWaker p =>
    obtain ⟨metas, hadd, heq⟩ := Option.map_eq_some_iff.mp hstep
    cases heq
    exact ⟨h.cloneWaker (some w) hadd, .user nofun nofun, fun u _ q hu => hu,
      fun u hu q hmem => mem_erase_update hu hmem, fun _ => ⟨rfl, rfl, rfl, rfl⟩⟩
  | _ => cases hstep

/-- Every action of every thread. -/
theorem act_atomic {t : Option W} {pc pc' : Pc P V} {a : Act (Call P V)} {c c' : Core P V W}
    (h : Counted c) (hl : Local t pc c) (hact : act t pc a c = some (c', pc')) :
    Atomic t pc' c c' := by
  rcases act_cases hact with ⟨rfl, last, op, rfl, -, hcall⟩ |
    ⟨rfl, pass, i, p, poll, rfl, -, hpolled⟩ | ⟨rfl, -, hstep⟩ |
    ⟨w, rfl, last, op, rfl, -, hcall⟩ | ⟨w, rfl, -, hstep⟩
  · exact callOwner_atomic h hl hcall
  · exact polled_atomic h hl hpolled
  · exact stepOwner_atomic h hl hstep
  · exact callWaker_atomic h hcall
  · exact stepWaker_atomic h hl hstep

/-- The counts are right and every thread's assertion holds, in every
reachable state. -/
theorem reachable_counted {noop : P} {σ : Threads (Core P V W) (Pc P V) (Option W)}
    (h : (futureDeque P V W noop).Reachable σ) :
    Counted σ.shared ∧ ∀ t, Local t (σ.pc t) σ.shared := by
  refine threads_invariant (I := Counted) (L := Local) (Counted.new noop) (fun t => ?_) ?_ h
  · exact ⟨fun _ => rfl, fun _ => rfl, nofun, nofun, nofun⟩
  · intro σ t a c' pc' hi hl _ hact
    have hatomic := act_atomic hi (hl t) hact
    exact ⟨hatomic.counted, hatomic.local', fun u hu => (hl u).stable hatomic.frame hu⟩

end Steps

end Folo.FutureDeque
