import Folo.Lib.Loops
import Folo.Lib.Machine
import Folo.InfinityPool.PoolInv

/-!
# Iterating over a slab and over a pool

The embedding of `SlabIterator` and `RawOpaquePoolIterator`. A pointer that
they yield is given by the index of its slot, and of its slab. A call of
`next` or `next_back` is a loop, which is given one round more than there are
slots or slabs to pass; that it needs no more is part of what is proved.

A slab iterator has the occupied slots between its two indexes still to come
(`rest`). A pool iterator runs a slab iterator on either side, and the two know
nothing of each other: `FrontAt` and `BackAt` say what each would still yield,
and only the count of what has been yielded keeps them apart.
-/

namespace Folo.InfinityPool

open Folo.Lib

variable {α : Type}

/-- The ways in which an iterator can fail: an unchecked slot out of bounds,
and the `expect` that there is a slab. -/
inductive IterPanic
  | outOfBounds
  | noSlab
deriving DecidableEq, Repr

theorem wrappingAdd_eq {a b : Nat} (h : a + b < usizeSize) : wrappingAdd a b = a + b :=
  Nat.mod_eq_of_lt h

theorem wrappingSub_eq {a b : Nat} (h : b ≤ a) (ha : a < usizeSize) :
    wrappingSub a b = a - b := by
  rw [wrappingSub, show a + (usizeSize - b) = a - b + usizeSize by omega, Nat.add_mod_right,
    Nat.mod_eq_of_lt (by omega)]

/-! ## A slab -/

structure SlabIterator (α : Type) where
  slab : Slab α
  currentFrontIndex : Nat
  currentBackIndex : Nat
  yieldedCount : Nat

namespace SlabIterator

def new (slab : Slab α) : SlabIterator α := ⟨slab, 0, slab.layout.capacity, 0⟩

/-- One round of `next`. -/
def nextRound (it : SlabIterator α) :
    (Except IterPanic (Option Nat) × SlabIterator α) ⊕ SlabIterator α :=
  if it.yieldedCount < it.slab.count then
    let entryIndex := it.currentFrontIndex
    let it := { it with currentFrontIndex := wrappingAdd it.currentFrontIndex 1 }
    match it.slab.slots[entryIndex]? with
    | none => .inl (.error .outOfBounds, it)
    | some slotMeta =>
      if slotMeta.isOccupied then
        .inl (.ok (some entryIndex), { it with yieldedCount := wrappingAdd it.yieldedCount 1 })
      else .inr it
  else .inl (.ok none, it)

/-- `next`. -/
def next (it : SlabIterator α) : Option (Except IterPanic (Option Nat) × SlabIterator α) :=
  whileLoop nextRound (it.slab.slots.length + 1) it

/-- One round of `next_back`. -/
def nextBackRound (it : SlabIterator α) :
    (Except IterPanic (Option Nat) × SlabIterator α) ⊕ SlabIterator α :=
  if it.yieldedCount < it.slab.count then
    let it := { it with currentBackIndex := wrappingSub it.currentBackIndex 1 }
    let entryIndex := it.currentBackIndex
    match it.slab.slots[entryIndex]? with
    | none => .inl (.error .outOfBounds, it)
    | some slotMeta =>
      if slotMeta.isOccupied then
        .inl (.ok (some entryIndex), { it with yieldedCount := wrappingAdd it.yieldedCount 1 })
      else .inr it
  else .inl (.ok none, it)

/-- `next_back`. -/
def nextBack (it : SlabIterator α) : Option (Except IterPanic (Option Nat) × SlabIterator α) :=
  whileLoop nextBackRound (it.slab.slots.length + 1) it

/-- The occupied slots of a slab in a range. -/
def between (slab : Slab α) (start stop : Nat) : List Nat :=
  (List.range' start (stop - start)).filter fun index => (slab.object? index).isSome

/-- What is still to come. -/
def rest (it : SlabIterator α) : List Nat :=
  between it.slab it.currentFrontIndex it.currentBackIndex

theorem between_front (slab : Slab α) {start stop : Nat} (h : start < stop) :
    between slab start stop =
      if (slab.object? start).isSome then start :: between slab (start + 1) stop
      else between slab (start + 1) stop := by
  rw [between, show stop - start = stop - (start + 1) + 1 by omega, List.range'_succ,
    List.filter_cons]
  rfl

theorem between_back (slab : Slab α) {start stop : Nat} (h : start < stop) :
    between slab start stop =
      if (slab.object? (stop - 1)).isSome then between slab start (stop - 1) ++ [stop - 1]
      else between slab start (stop - 1) := by
  rw [between, show stop - start = stop - 1 - start + 1 by omega, List.range'_concat,
    List.filter_append, List.filter_cons, show start + 1 * (stop - 1 - start) = stop - 1 by omega]
  split
  · rfl
  · rw [List.filter_nil, List.append_nil, between]

theorem between_empty (slab : Slab α) {start stop : Nat} (h : stop ≤ start) :
    between slab start stop = [] := by
  rw [between, Nat.sub_eq_zero_of_le h, List.range'_zero, List.filter_nil]

/-- An iterator over a slab in order. -/
structure Going (it : SlabIterator α) : Prop where
  back_le : it.currentBackIndex ≤ it.slab.slots.length
  memory : it.slab.slots.length < usizeSize
  count : it.yieldedCount + it.rest.length = it.slab.count
  count_le : it.slab.count ≤ it.slab.slots.length

theorem going_new {slab : Slab α} (h : slab.WellFormed) (hm : slab.layout.capacity < usizeSize) :
    (new slab).Going ∧ (new slab).rest = slab.occupiedSlots := by
  have hrest : (new slab).rest = slab.occupiedSlots := by
    rw [rest, between, new, Slab.occupiedSlots, h.length, List.range_eq_range', Nat.sub_zero]
  refine ⟨⟨h.length.ge, by rw [← h.length] at hm; exact hm, ?_, ?_⟩, hrest⟩
  · rw [hrest, Slab.length_occupiedSlots, ← h.count]
    exact Nat.zero_add _
  · rw [show (new slab).slab = slab from rfl, h.length]
    exact h.count_le

/-- There is something to come exactly while not everything is yielded. -/
theorem Going.lt_iff {it : SlabIterator α} (h : it.Going) :
    it.yieldedCount < it.slab.count ↔ it.rest ≠ [] := by
  have hcount := h.count
  rw [← List.length_pos_iff]
  omega

theorem Going.range_of_rest {it : SlabIterator α} (h : it.rest ≠ []) :
    it.currentFrontIndex < it.currentBackIndex := by
  by_contra hge
  exact h (between_empty it.slab (by omega))

/-- A slot passed over, or yielded and counted. -/
theorem Going.passed {it it' : SlabIterator α} (h : it.Going) (hslab : it'.slab = it.slab)
    (hback : it'.currentBackIndex ≤ it.currentBackIndex)
    (hcount : it'.yieldedCount + it'.rest.length = it.yieldedCount + it.rest.length) :
    it'.Going := by
  have hle := h.back_le
  refine ⟨?_, ?_, ?_, ?_⟩ <;> rw [hslab]
  · omega
  · exact h.memory
  · exact hcount.trans h.count
  · exact h.count_le

/-- What a call of `next` or `next_back` does: it yields `item` and goes on
with `left` to come. -/
def Calls (result : Option (Except IterPanic (Option Nat) × SlabIterator α)) (item : Option Nat)
    (left : List Nat) : Prop :=
  ∃ it', result = some (.ok item, it') ∧ it'.Going ∧ it'.rest = left

/-- The slot that a round reads, with the answer to whether it is occupied. -/
theorem Going.slot {it : SlabIterator α} (h : it.Going) {i : Nat}
    (hi : i < it.currentBackIndex) : ∃ slotMeta, it.slab.slots[i]? = some slotMeta ∧
      slotMeta.isOccupied = (it.slab.object? i).isSome := by
  have hback := h.back_le
  have hin := List.getElem?_eq_getElem (show i < it.slab.slots.length by omega)
  refine ⟨_, hin, ?_⟩
  rw [it.slab.isSome_object?, hin, Option.any_some]

/-- `next` yields the first of what is to come. -/
theorem Going.next {it : SlabIterator α} (h : it.Going) :
    Calls it.next it.rest.head? it.rest.tail := by
  have hloop := whileLoop_spec (f := nextRound)
    (I := fun s => s.Going ∧ s.rest = it.rest ∧ s.slab = it.slab)
    (P := fun b => b.1 = .ok it.rest.head? ∧ b.2.Going ∧ b.2.rest = it.rest.tail)
    (v := fun s => it.slab.slots.length - s.currentFrontIndex)
    (n := it.slab.slots.length + 1) (s := it) ?_ ⟨h, rfl, rfl⟩ (by omega)
  · obtain ⟨⟨answer, it'⟩, heq, hanswer, hgoing, hrest⟩ := hloop
    dsimp only at hanswer
    rw [hanswer] at heq
    exact ⟨it', heq, hgoing, hrest⟩
  · rintro s ⟨hs, hrest, hslab⟩
    rw [← hrest]
    by_cases hnil : s.rest = []
    · left
      rw [nextRound, if_neg (by rw [hs.lt_iff]; exact not_not.mpr hnil), hnil]
      exact ⟨_, rfl, rfl, hs, hnil⟩
    · have hrange := Going.range_of_rest hnil
      have hback := hs.back_le
      have hmem := hs.memory
      have hcount := hs.count
      have hle := hs.count_le
      have hfront : s.rest = _ := between_front s.slab hrange
      obtain ⟨slotMeta, hslot, hocc⟩ := hs.slot hrange
      rw [nextRound, if_pos (hs.lt_iff.mpr hnil)]
      rw [wrappingAdd_eq (show s.currentFrontIndex + 1 < usizeSize by omega)]
      dsimp only
      rw [hslot]
      dsimp only
      rw [hocc]
      split
      next hv =>
        left
        rw [if_pos hv] at hfront
        rw [hfront, List.length_cons] at hcount
        rw [wrappingAdd_eq (show s.yieldedCount + 1 < usizeSize by omega), hfront]
        refine ⟨_, rfl, rfl, hs.passed rfl le_rfl ?_, rfl⟩
        rw [hfront, List.length_cons]
        simp only [rest]
        omega
      next hv =>
        right
        rw [if_neg hv] at hfront
        refine ⟨_, rfl, ⟨hs.passed rfl le_rfl ?_, hfront.symm, hslab⟩, ?_⟩
        · rw [hfront]
          rfl
        · dsimp only
          rw [hslab] at hback
          omega

/-- `next_back` yields the last of what is to come. -/
theorem Going.nextBack {it : SlabIterator α} (h : it.Going) :
    Calls it.nextBack it.rest.getLast? it.rest.dropLast := by
  have hloop := whileLoop_spec (f := nextBackRound)
    (I := fun s => s.Going ∧ s.rest = it.rest ∧ s.slab = it.slab)
    (P := fun b => b.1 = .ok it.rest.getLast? ∧ b.2.Going ∧ b.2.rest = it.rest.dropLast)
    (v := fun s => s.currentBackIndex)
    (n := it.slab.slots.length + 1) (s := it) ?_ ⟨h, rfl, rfl⟩ (by have := h.back_le; omega)
  · obtain ⟨⟨answer, it'⟩, heq, hanswer, hgoing, hrest⟩ := hloop
    dsimp only at hanswer
    rw [hanswer] at heq
    exact ⟨it', heq, hgoing, hrest⟩
  · rintro s ⟨hs, hrest, hslab⟩
    rw [← hrest]
    by_cases hnil : s.rest = []
    · left
      rw [nextBackRound, if_neg (by rw [hs.lt_iff]; exact not_not.mpr hnil), hnil]
      exact ⟨_, rfl, rfl, hs, hnil⟩
    · have hrange := Going.range_of_rest hnil
      have hback := hs.back_le
      have hmem := hs.memory
      have hcount := hs.count
      have hle := hs.count_le
      have hlast : s.rest = _ := between_back s.slab hrange
      obtain ⟨slotMeta, hslot, hocc⟩ :=
        hs.slot (show s.currentBackIndex - 1 < s.currentBackIndex by omega)
      rw [nextBackRound, if_pos (hs.lt_iff.mpr hnil)]
      rw [wrappingSub_eq (show 1 ≤ s.currentBackIndex by omega) (by omega)]
      dsimp only
      rw [hslot]
      dsimp only
      rw [hocc]
      split
      next hv =>
        left
        rw [if_pos hv] at hlast
        rw [hlast, List.length_append, List.length_singleton] at hcount
        rw [wrappingAdd_eq (show s.yieldedCount + 1 < usizeSize by omega), hlast,
          List.getLast?_concat, List.dropLast_concat]
        refine ⟨_, rfl, rfl, hs.passed rfl (Nat.sub_le _ _) ?_, rfl⟩
        rw [hlast, List.length_append, List.length_singleton]
        simp only [rest]
        omega
      next hv =>
        right
        rw [if_neg hv] at hlast
        refine ⟨_, rfl, ⟨hs.passed rfl (Nat.sub_le _ _) ?_, hlast.symm, hslab⟩, ?_⟩
        · rw [hlast]
          rfl
        · dsimp only
          omega

end SlabIterator

/-! ## A pool -/

structure RawOpaquePoolIterator (α : Type) where
  pool : RawOpaquePool α
  currentFrontSlabIndex : Nat
  currentBackSlabIndex : Nat
  currentFrontSlabIter : Option (SlabIterator α)
  currentBackSlabIter : Option (SlabIterator α)
  yieldedCount : Nat

namespace RawOpaquePoolIterator

def new (pool : RawOpaquePool α) : RawOpaquePoolIterator α where
  pool := pool
  currentFrontSlabIndex := 0
  -- wraps for a pool without slabs
  currentBackSlabIndex := wrappingSub pool.slabs.length 1
  currentFrontSlabIter := none
  currentBackSlabIter := none
  yieldedCount := 0

def len (it : RawOpaquePoolIterator α) : Nat := wrappingSub it.pool.len it.yieldedCount

/-- What a call comes to: nothing, if a loop does not end. -/
abbrev Called (α : Type) : Type :=
  Option (Except IterPanic (Option RawPooled) × RawOpaquePoolIterator α)

/-- One round of `next`. -/
def nextRound (it : RawOpaquePoolIterator α) : Called α ⊕ RawOpaquePoolIterator α :=
  if 0 < it.len then
    -- `get_or_insert_with`
    match it.currentFrontSlabIter.or
        (it.pool.slabs[it.currentFrontSlabIndex]?.map SlabIterator.new) with
    | none => .inl (some (.error .noSlab, it))
    | some slabIter =>
      match slabIter.next with
      | none => .inl none
      | some (.error why, slabIter) =>
        .inl (some (.error why, { it with currentFrontSlabIter := some slabIter }))
      | some (.ok (some slot), slabIter) =>
        .inl (some (.ok (some ⟨it.currentFrontSlabIndex, slot⟩),
          { it with
            currentFrontSlabIter := some slabIter
            yieldedCount := wrappingAdd it.yieldedCount 1 }))
      | some (.ok none, _) =>
        .inr { it with
          currentFrontSlabIndex := wrappingAdd it.currentFrontSlabIndex 1
          currentFrontSlabIter := none }
  else .inl (some (.ok none, it))

/-- `next`. -/
def next (it : RawOpaquePoolIterator α) : Called α :=
  (whileLoop nextRound (it.pool.slabs.length + 1) it).join

/-- One round of `next_back`. -/
def nextBackRound (it : RawOpaquePoolIterator α) : Called α ⊕ RawOpaquePoolIterator α :=
  if 0 < it.len then
    match it.currentBackSlabIter.or
        (it.pool.slabs[it.currentBackSlabIndex]?.map SlabIterator.new) with
    | none => .inl (some (.error .noSlab, it))
    | some slabIter =>
      match slabIter.nextBack with
      | none => .inl none
      | some (.error why, slabIter) =>
        .inl (some (.error why, { it with currentBackSlabIter := some slabIter }))
      | some (.ok (some slot), slabIter) =>
        .inl (some (.ok (some ⟨it.currentBackSlabIndex, slot⟩),
          { it with
            currentBackSlabIter := some slabIter
            yieldedCount := wrappingAdd it.yieldedCount 1 }))
      | some (.ok none, _) =>
        .inr { it with
          currentBackSlabIndex := wrappingSub it.currentBackSlabIndex 1
          currentBackSlabIter := none }
  else .inl (some (.ok none, it))

/-- `next_back`. -/
def nextBack (it : RawOpaquePoolIterator α) : Called α :=
  (whileLoop nextBackRound (it.pool.slabs.length + 1) it).join

end RawOpaquePoolIterator

/-! ### The objects of a pool in order -/

/-- The slots of one slab, as handles. -/
def handlesIn (slabIndex : Nat) (slots : List Nat) : List RawPooled :=
  slots.map fun slot => ⟨slabIndex, slot⟩

/-- The occupied slots of slabs, of which the first has this index. -/
def handlesFrom : Nat → List (Slab α) → List RawPooled
  | _, [] => []
  | first, slab :: slabs => handlesIn first slab.occupiedSlots ++ handlesFrom (first + 1) slabs

theorem handlesFrom_append (first : Nat) (slabs slabs' : List (Slab α)) :
    handlesFrom first (slabs ++ slabs') =
      handlesFrom first slabs ++ handlesFrom (first + slabs.length) slabs' := by
  induction slabs generalizing first with
  | nil => rfl
  | cons slab slabs ih =>
    rw [List.cons_append, handlesFrom, handlesFrom, ih, List.append_assoc, List.length_cons,
      Nat.add_right_comm, Nat.add_assoc]

theorem handlesFrom_drop {slabs : List (Slab α)} {i : Nat} {slab : Slab α}
    (hi : slabs[i]? = some slab) : handlesFrom i (slabs.drop i) =
      handlesIn i slab.occupiedSlots ++ handlesFrom (i + 1) (slabs.drop (i + 1)) := by
  obtain ⟨hlt, hget⟩ := List.getElem?_eq_some_iff.mp hi
  rw [List.drop_eq_getElem_cons hlt, hget, handlesFrom]

theorem handlesFrom_take {slabs : List (Slab α)} {i : Nat} {slab : Slab α}
    (hi : slabs[i]? = some slab) : handlesFrom 0 (slabs.take (i + 1)) =
      handlesFrom 0 (slabs.take i) ++ handlesIn i slab.occupiedSlots := by
  have hlt := (List.getElem?_eq_some_iff.mp hi).1
  rw [List.take_add_one, hi, handlesFrom_append, List.length_take, Nat.min_eq_left hlt.le,
    Nat.zero_add]
  exact congrArg _ (List.append_nil _)

theorem mem_handlesFrom {first : Nat} {slabs : List (Slab α)} {handle : RawPooled} :
    handle ∈ handlesFrom first slabs ↔ first ≤ handle.slabIndex ∧
      ∃ slab, slabs[handle.slabIndex - first]? = some slab ∧
        (slab.object? handle.slabHandle).isSome = true := by
  induction slabs generalizing first with
  | nil => simp [handlesFrom]
  | cons slab slabs ih =>
    obtain ⟨i, j⟩ := handle
    rw [handlesFrom, List.mem_append, ih, handlesIn, List.mem_map]
    simp only [RawPooled.mk.injEq, Slab.mem_occupiedSlots]
    constructor
    · rintro (⟨slot, hslot, rfl, rfl⟩ | ⟨hle, slab', hget, hocc⟩)
      · exact ⟨le_rfl, slab, by rw [Nat.sub_self]; rfl, hslot⟩
      · refine ⟨by omega, slab', ?_, hocc⟩
        rw [show i - first = i - (first + 1) + 1 by omega]
        exact hget
    · rintro ⟨hle, slab', hget, hocc⟩
      rcases Nat.eq_or_lt_of_le hle with rfl | hlt
      · rw [Nat.sub_self] at hget
        obtain rfl : slab = slab' := Option.some.inj hget
        exact Or.inl ⟨j, hocc, rfl, rfl⟩
      · rw [show i - first = i - (first + 1) + 1 by omega] at hget
        exact Or.inr ⟨hlt, slab', hget, hocc⟩

/-- The order of the slots: by slab, and within a slab by slot. -/
def RawPooled.Before (a b : RawPooled) : Prop :=
  a.slabIndex < b.slabIndex ∨ a.slabIndex = b.slabIndex ∧ a.slabHandle < b.slabHandle

theorem pairwise_handlesFrom (first : Nat) (slabs : List (Slab α)) :
    (handlesFrom first slabs).Pairwise RawPooled.Before := by
  induction slabs generalizing first with
  | nil => exact List.Pairwise.nil
  | cons slab slabs ih =>
    rw [handlesFrom, List.pairwise_append]
    refine ⟨?_, ih (first + 1), fun a ha b hb => ?_⟩
    · rw [handlesIn, List.pairwise_map]
      refine (List.pairwise_lt_range.filter _).imp fun hlt => Or.inr ⟨rfl, hlt⟩
    · obtain ⟨slot, -, rfl⟩ := List.mem_map.mp ha
      exact Or.inl (mem_handlesFrom.mp hb).1

namespace RawOpaquePool

/-- The occupied slots of a pool, in order. -/
def occupied (p : RawOpaquePool α) : List RawPooled := handlesFrom 0 p.slabs

theorem mem_occupied {p : RawOpaquePool α} {handle : RawPooled} :
    handle ∈ p.occupied ↔ (p.object? handle).isSome = true := by
  rw [occupied, mem_handlesFrom, Nat.sub_zero, object?]
  cases p.slabs[handle.slabIndex]? <;> simp

theorem length_handlesFrom {first : Nat} {slabs : List (Slab α)}
    (h : ∀ slab ∈ slabs, slab.WellFormed) :
    (handlesFrom first slabs).length = (slabs.map Slab.len).sum := by
  induction slabs generalizing first with
  | nil => rfl
  | cons slab slabs ih =>
    rw [handlesFrom, List.length_append, ih fun s hs => h s (List.mem_cons_of_mem _ hs),
      List.map_cons, List.sum_cons, handlesIn, List.length_map, Slab.length_occupiedSlots,
      Slab.len, (h slab List.mem_cons_self).count]

theorem Frame.length_occupied {p : RawOpaquePool α} (h : p.Frame) :
    p.occupied.length = (p.slabs.map Slab.len).sum :=
  length_handlesFrom h.slab

end RawOpaquePool

/-! ### Both ends -/

namespace RawOpaquePoolIterator

/-- The front would yield `left`, if there were no back. -/
def FrontAt (slabs : List (Slab α)) (index : Nat) :
    Option (SlabIterator α) → List RawPooled → Prop
  | none, left => left = handlesFrom index (slabs.drop index)
  | some slabIter, left => index < slabs.length ∧ slabIter.Going ∧
    left = handlesIn index slabIter.rest ++ handlesFrom (index + 1) (slabs.drop (index + 1))

/-- The back would yield `left` from its end, if there were no front. -/
def BackAt (slabs : List (Slab α)) (index : Nat) :
    Option (SlabIterator α) → List RawPooled → Prop
  | none, left => ∃ count ≤ slabs.length, index = wrappingSub count 1 ∧
    left = handlesFrom 0 (slabs.take count)
  | some slabIter, left => index < slabs.length ∧ slabIter.Going ∧
    left = handlesFrom 0 (slabs.take index) ++ handlesIn index slabIter.rest

variable {p : RawOpaquePool α}

/-- Slots and slabs lie in memory. -/
theorem memory_lt (h : p.Frame) : p.slabs.length < usizeSize ∧
    ∀ slab ∈ p.slabs, slab.layout.capacity < usizeSize := by
  have hsize := h.memory
  have hslot := p.slabLayout.slotSize_pos
  have hcap := p.slabLayout.capacity_pos
  have harray : p.slabLayout.capacity ≤ p.slabLayout.slotArraySize :=
    Nat.le_mul_of_pos_right _ hslot
  refine ⟨lt_of_le_of_lt (Nat.le_mul_of_pos_right _ (by omega)) hsize, fun slab hs => ?_⟩
  rw [h.layout slab hs]
  have hpos := List.length_pos_of_mem hs
  exact lt_of_le_of_lt (harray.trans (Nat.le_mul_of_pos_left _ hpos)) hsize

/-- The front opens the next slab. -/
theorem FrontAt.open (h : p.Frame) {index : Nat} {left : List RawPooled}
    (hat : FrontAt p.slabs index none left) (hleft : left ≠ []) : ∃ slabIter,
    p.slabs[index]?.map SlabIterator.new = some slabIter ∧
      FrontAt p.slabs index (some slabIter) left := by
  rw [FrontAt] at hat
  have hlt : index < p.slabs.length := by
    by_contra hge
    rw [List.drop_eq_nil_of_le (by omega)] at hat
    exact hleft hat
  have hget := List.getElem?_eq_getElem hlt
  have hmem := List.getElem_mem hlt
  obtain ⟨hgoing, hrest⟩ := SlabIterator.going_new (h.slab _ hmem) ((memory_lt h).2 _ hmem)
  refine ⟨_, by rw [hget, Option.map_some], hlt, hgoing, ?_⟩
  rw [hat, handlesFrom_drop hget, hrest]

/-- The back opens the next slab. -/
theorem BackAt.open (h : p.Frame) {index : Nat} {left : List RawPooled}
    (hat : BackAt p.slabs index none left) (hleft : left ≠ []) : ∃ slabIter,
    p.slabs[index]?.map SlabIterator.new = some slabIter ∧
      BackAt p.slabs index (some slabIter) left := by
  obtain ⟨count, hcount, hindex, hat⟩ := hat
  have hpos : 0 < count := by
    by_contra hzero
    obtain rfl : count = 0 := by omega
    exact hleft hat
  have hlen := (memory_lt h).1
  rw [wrappingSub_eq hpos (by omega)] at hindex
  have hlt : index < p.slabs.length := by omega
  have hget := List.getElem?_eq_getElem hlt
  have hmem := List.getElem_mem hlt
  obtain ⟨hgoing, hrest⟩ := SlabIterator.going_new (h.slab _ hmem) ((memory_lt h).2 _ hmem)
  refine ⟨_, by rw [hget, Option.map_some], hlt, hgoing, ?_⟩
  rw [hat, hrest, ← handlesFrom_take hget]
  exact congrArg (fun n => handlesFrom 0 (p.slabs.take n)) (by omega)

/-- `next` takes the first of what the front has left. -/
theorem next_eq {it : RawOpaquePoolIterator α} (h : it.pool.Frame) (hlen : 0 < it.len)
    {left : List RawPooled} (hleft : left ≠ [])
    (hat : FrontAt it.pool.slabs it.currentFrontSlabIndex it.currentFrontSlabIter left) :
    ∃ index slabIter, it.next = some (.ok left.head?, { it with
        currentFrontSlabIndex := index
        currentFrontSlabIter := slabIter
        yieldedCount := wrappingAdd it.yieldedCount 1 }) ∧
      FrontAt it.pool.slabs index slabIter left.tail := by
  have hloop := whileLoop_spec (f := nextRound)
    (I := fun s => ∃ index slabIter, s = { it with
        currentFrontSlabIndex := index
        currentFrontSlabIter := slabIter } ∧ FrontAt it.pool.slabs index slabIter left)
    (P := fun b => ∃ index slabIter, b = some (.ok left.head?, { it with
        currentFrontSlabIndex := index
        currentFrontSlabIter := slabIter
        yieldedCount := wrappingAdd it.yieldedCount 1 }) ∧
      FrontAt it.pool.slabs index slabIter left.tail)
    (v := fun s => it.pool.slabs.length - s.currentFrontSlabIndex)
    (n := it.pool.slabs.length + 1) (s := it) ?_ ⟨_, _, rfl, hat⟩ (by omega)
  · obtain ⟨b, heq, index, slabIter, rfl, hat'⟩ := hloop
    exact ⟨index, slabIter, by rw [next, heq, Option.join_some], hat'⟩
  · rintro s ⟨index, slabIter, rfl, hs⟩
    obtain ⟨opened, hopen, hlt, hgoing, hsplit⟩ : ∃ opened,
        slabIter.or (it.pool.slabs[index]?.map SlabIterator.new) = some opened ∧
          FrontAt it.pool.slabs index (some opened) left := by
      cases slabIter with
      | none => exact hs.open h hleft
      | some opened => exact ⟨opened, rfl, hs⟩
    obtain ⟨moved, hnext, hgoing', hrest⟩ := hgoing.next
    rw [nextRound, if_pos (show 0 < len { it with
      currentFrontSlabIndex := index, currentFrontSlabIter := slabIter } from hlen)]
    dsimp only
    rw [hopen]
    dsimp only
    rw [hnext]
    have hmem := (memory_lt h).1
    cases hslots : opened.rest with
    | nil =>
      right
      rw [hslots] at hsplit
      dsimp only [List.head?_nil]
      rw [wrappingAdd_eq (by omega)]
      exact ⟨_, rfl, ⟨_, _, rfl, hsplit⟩, by dsimp only; omega⟩
    | cons slot slots =>
      left
      rw [hslots] at hsplit hrest
      refine ⟨_, rfl, index, some moved, ?_, hlt, hgoing', ?_⟩
      · rw [hsplit]
        rfl
      · rw [hsplit, hrest]
        rfl

/-- `next_back` takes the last of what the back has left. -/
theorem nextBack_eq {it : RawOpaquePoolIterator α} (h : it.pool.Frame) (hlen : 0 < it.len)
    {left : List RawPooled} (hleft : left ≠ [])
    (hat : BackAt it.pool.slabs it.currentBackSlabIndex it.currentBackSlabIter left) :
    ∃ index slabIter, it.nextBack = some (.ok left.getLast?, { it with
        currentBackSlabIndex := index
        currentBackSlabIter := slabIter
        yieldedCount := wrappingAdd it.yieldedCount 1 }) ∧
      BackAt it.pool.slabs index slabIter left.dropLast := by
  have hloop := whileLoop_spec (f := nextBackRound)
    (I := fun s => ∃ index slabIter, s = { it with
        currentBackSlabIndex := index
        currentBackSlabIter := slabIter } ∧ BackAt it.pool.slabs index slabIter left)
    (P := fun b => ∃ index slabIter, b = some (.ok left.getLast?, { it with
        currentBackSlabIndex := index
        currentBackSlabIter := slabIter
        yieldedCount := wrappingAdd it.yieldedCount 1 }) ∧
      BackAt it.pool.slabs index slabIter left.dropLast)
    -- behind slab 0 the index wraps, but then nothing is left
    (v := fun s => if s.currentBackSlabIndex < it.pool.slabs.length then
      s.currentBackSlabIndex else 0)
    (n := it.pool.slabs.length + 1) (s := it) ?_ ⟨_, _, rfl, hat⟩ (by split <;> omega)
  · obtain ⟨b, heq, index, slabIter, rfl, hat'⟩ := hloop
    exact ⟨index, slabIter, by rw [nextBack, heq, Option.join_some], hat'⟩
  · rintro s ⟨index, slabIter, rfl, hs⟩
    obtain ⟨opened, hopen, hlt, hgoing, hsplit⟩ : ∃ opened,
        slabIter.or (it.pool.slabs[index]?.map SlabIterator.new) = some opened ∧
          BackAt it.pool.slabs index (some opened) left := by
      cases slabIter with
      | none => exact hs.open h hleft
      | some opened => exact ⟨opened, rfl, hs⟩
    obtain ⟨moved, hnext, hgoing', hrest⟩ := hgoing.nextBack
    rw [nextBackRound, if_pos (show 0 < len { it with
      currentBackSlabIndex := index, currentBackSlabIter := slabIter } from hlen)]
    dsimp only
    rw [hopen]
    dsimp only
    rw [hnext]
    have hmem := (memory_lt h).1
    rcases List.eq_nil_or_concat opened.rest with hslots | ⟨slots, slot, hslots⟩
    · right
      rw [hslots] at hsplit ⊢
      rw [handlesIn, List.map_nil, List.append_nil] at hsplit
      have hpos : 0 < index := by
        by_contra hzero
        obtain rfl : index = 0 := by omega
        exact hleft hsplit
      dsimp only [List.getLast?_nil]
      refine ⟨_, rfl, ⟨_, _, rfl, index, hlt.le, rfl, hsplit⟩, ?_⟩
      dsimp only
      rw [wrappingSub_eq hpos (by omega), if_pos (by omega), if_pos (by omega)]
      omega
    · left
      rw [List.concat_eq_append] at hslots
      rw [hslots] at hsplit hrest ⊢
      rw [List.getLast?_concat]
      rw [List.dropLast_concat] at hrest
      have hconcat : left = handlesFrom 0 (it.pool.slabs.take index) ++ handlesIn index slots ++
          [⟨index, slot⟩] := by
        rw [hsplit, handlesIn, List.map_append, handlesIn, List.append_assoc]
        rfl
      rw [hconcat, List.getLast?_concat, List.dropLast_concat]
      exact ⟨_, rfl, index, some moved, rfl, hlt, hgoing', by rw [hrest]⟩

/-! ### Any calls of the two -/

/-- The two calls. -/
inductive End
  | front
  | back
deriving DecidableEq

/-- The call itself. -/
def call (it : RawOpaquePoolIterator α) : End → Called α
  | .front => it.next
  | .back => it.nextBack

/-- An iterator over a pool, and any calls on it; a call that fails has no
next state. -/
def iteration (p : RawOpaquePool α) : Machine (RawOpaquePoolIterator α) End where
  init := new p
  next it side :=
    match it.call side with
    | some (.ok _, it') => some it'
    | _ => none

/-- What has been yielded, at either end in its order. -/
def yielded : Machine.Monitor (RawOpaquePoolIterator α) End (List RawPooled × List RawPooled) where
  start := ([], [])
  update w it side _ :=
    match side, it.call side with
    | .front, some (.ok (some handle), _) => (w.1 ++ [handle], w.2)
    | .back, some (.ok (some handle), _) => (w.1, w.2 ++ [handle])
    | _, _ => w

/-- An iterator of a pool: `fronts` and `backs` are yielded, `left` is not. -/
structure Between (p : RawOpaquePool α) (it : RawOpaquePoolIterator α)
    (fronts left backs : List RawPooled) : Prop where
  pool : it.pool = p
  split : p.occupied = fronts ++ left ++ backs.reverse
  front : FrontAt p.slabs it.currentFrontSlabIndex it.currentFrontSlabIter (left ++ backs.reverse)
  back : BackAt p.slabs it.currentBackSlabIndex it.currentBackSlabIter (fronts ++ left)
  count : it.yieldedCount = fronts.length + backs.length

theorem between_new (p : RawOpaquePool α) : Between p (new p) [] p.occupied [] where
  pool := rfl
  split := (List.append_nil _).symm
  front := List.append_nil _
  back := ⟨p.slabs.length, le_rfl, rfl, by rw [List.take_length]; rfl⟩
  count := rfl

variable {it : RawOpaquePoolIterator α} {fronts left backs : List RawPooled}

/-- With the right length of the pool, the length is what is left. -/
theorem Between.len (h : Between p it fronts left backs) (hlen : p.len = p.occupied.length)
    (hlt : p.len < usizeSize) : it.len = left.length := by
  have hsplit := congrArg List.length h.split
  rw [List.length_append, List.length_append, List.length_reverse, ← hlen] at hsplit
  rw [RawOpaquePoolIterator.len, h.pool, h.count, wrappingSub_eq (by omega) hlt]
  omega

/-- A call of `next` when something is left. -/
theorem Between.next_cons (hframe : p.Frame) {handle : RawPooled}
    (h : Between p it fronts (handle :: left) backs) (hlen : 0 < it.len)
    (hlt : p.occupied.length < usizeSize) :
    ∃ it', it.next = some (.ok (some handle), it') ∧
      Between p it' (fronts ++ [handle]) left backs := by
  have hpool := h.pool
  have hsplit := congrArg List.length h.split
  simp only [List.length_append, List.length_cons, List.length_reverse] at hsplit
  obtain ⟨index, slabIter, hnext, hat⟩ := next_eq (by rw [hpool]; exact hframe) hlen
    (List.cons_ne_nil _ _) (by rw [hpool]; exact h.front)
  refine ⟨_, hnext, hpool, ?_, ?_, ?_, ?_⟩
  · rw [h.split]
    simp
  · rw [hpool] at hat
    exact hat
  · rw [List.append_assoc]
    exact h.back
  · dsimp only
    rw [h.count, wrappingAdd_eq (by omega), List.length_append, List.length_singleton]
    omega

/-- A call of `next_back` when something is left. -/
theorem Between.nextBack_concat (hframe : p.Frame) {handle : RawPooled}
    (h : Between p it fronts (left ++ [handle]) backs) (hlen : 0 < it.len)
    (hlt : p.occupied.length < usizeSize) :
    ∃ it', it.nextBack = some (.ok (some handle), it') ∧
      Between p it' fronts left (backs ++ [handle]) := by
  have hpool := h.pool
  have hsplit := congrArg List.length h.split
  simp only [List.length_append, List.length_singleton, List.length_reverse] at hsplit
  have hback := h.back
  rw [← List.append_assoc] at hback
  have hne : fronts ++ left ++ [handle] ≠ [] := by simp
  obtain ⟨index, slabIter, hnext, hat⟩ := nextBack_eq (by rw [hpool]; exact hframe) hlen
    hne (by rw [hpool]; exact hback)
  rw [List.getLast?_concat] at hnext
  rw [List.dropLast_concat] at hat
  refine ⟨_, hnext, hpool, ?_, ?_, ?_, ?_⟩
  · rw [h.split, List.reverse_append]
    simp
  · have hfront := h.front
    rw [List.append_assoc] at hfront
    rw [List.reverse_append]
    exact hfront
  · rw [hpool] at hat
    exact hat
  · dsimp only
    rw [h.count, wrappingAdd_eq (by omega), List.length_append, List.length_singleton]
    omega

/-- When nothing is left, a call yields nothing. -/
theorem call_none (hlen : it.len = 0) (side : End) : it.call side = some (.ok none, it) := by
  cases side with
  | front =>
    rw [call, next, whileLoop, nextRound, if_neg (by omega)]
    rfl
  | back =>
    rw [call, nextBack, whileLoop, nextBackRound, if_neg (by omega)]
    rfl

/-- With the right length of the pool a call yields the next of what is left
at its end, if there is any. -/
theorem Between.call (hframe : p.Frame) (hlen : p.len = p.occupied.length)
    (hlt : p.len < usizeSize) (h : Between p it fronts left backs) (side : End) :
    (∃ it', it.next = some (.ok left.head?, it')) ∧
      (∃ it', it.nextBack = some (.ok left.getLast?, it')) ∧
      ∀ it', (iteration p).next it side = some it' → ∃ left',
        Between p it' (yielded.update (fronts, backs) it side it').1 left'
          (yielded.update (fronts, backs) it side it').2 := by
  have hleft := h.len hlen hlt
  rcases List.eq_nil_or_concat left with rfl | ⟨init, last, hconcat⟩
  · rw [List.length_nil] at hleft
    refine ⟨⟨it, call_none hleft .front⟩, ⟨it, call_none hleft .back⟩, fun it' hnext => ⟨[], ?_⟩⟩
    simp only [iteration, call_none hleft] at hnext
    rw [← Option.some.inj hnext]
    simp only [yielded, call_none hleft]
    cases side <;> exact h
  · rw [List.concat_eq_append] at hconcat
    have hpos : 0 < it.len := by
      rw [hleft, hconcat, List.length_append, List.length_singleton]
      omega
    obtain ⟨first, tail, hcons⟩ := List.exists_cons_of_ne_nil
      (List.length_pos_iff.mp (hleft ▸ hpos))
    have hfront := h
    have hback := h
    rw [hcons] at hfront
    rw [hconcat] at hback
    obtain ⟨itFront, hnext, hfront⟩ := hfront.next_cons hframe hpos (hlen ▸ hlt)
    obtain ⟨itBack, hnextBack, hback⟩ := hback.nextBack_concat hframe hpos (hlen ▸ hlt)
    refine ⟨⟨itFront, by rw [hcons]; exact hnext⟩,
      ⟨itBack, by rw [hconcat, List.getLast?_concat]; exact hnextBack⟩, fun it' hmoved => ?_⟩
    cases side with
    | front =>
      simp only [iteration, RawOpaquePoolIterator.call, hnext] at hmoved
      rw [← Option.some.inj hmoved]
      simp only [yielded, RawOpaquePoolIterator.call, hnext]
      exact ⟨tail, hfront⟩
    | back =>
      simp only [iteration, RawOpaquePoolIterator.call, hnextBack] at hmoved
      rw [← Option.some.inj hmoved]
      simp only [yielded, RawOpaquePoolIterator.call, hnextBack]
      exact ⟨init, hback⟩

/-- Iterating over the pool is exact from both ends, after any calls: what has
been yielded at the front, what is left, and what has been yielded at the back
make up the occupied slots in their order, the length is what is left, and the
next call at either end yields what is left there. -/
def Exact (p : RawOpaquePool α) : Prop :=
  ∀ q, ((iteration p).observe yielded).Reachable q → ∃ left,
    p.occupied = q.2.1 ++ left ++ q.2.2.reverse ∧ q.1.len = left.length ∧
    (∃ it', q.1.next = some (.ok left.head?, it')) ∧
    ∃ it', q.1.nextBack = some (.ok left.getLast?, it')

/-- All that iterating needs is that the length of the pool is right. -/
theorem exact_iff (hframe : p.Frame) (hlt : p.len < usizeSize) :
    Exact p ↔ p.len = p.occupied.length := by
  constructor
  · intro hexact
    obtain ⟨left, hsplit, hlen, -⟩ := hexact _ (Machine.Reachable.init _)
    have hleft : left = p.occupied := by
      rw [hsplit]
      exact (List.append_nil left).symm
    rw [hleft] at hlen
    have hnew : (new p).len = p.len := by
      rw [RawOpaquePoolIterator.len]
      exact wrappingSub_eq (Nat.zero_le _) hlt
    exact hnew.symm.trans hlen
  · intro hlen q hq
    have hbetween : ∃ left, Between p q.1 q.2.1 left q.2.2 := by
      refine hq.invariant (I := fun q => ∃ left, Between p q.1 q.2.1 left q.2.2)
        ⟨_, between_new p⟩ ?_
      rintro q side q' _ ⟨left, hinv⟩ _ hnext
      obtain ⟨hmoved, hyielded⟩ := Machine.observe_next.mp hnext
      rw [hyielded]
      exact (hinv.call hframe hlen hlt side).2.2 _ hmoved
    obtain ⟨left, h⟩ := hbetween
    obtain ⟨hfront, hback, -⟩ := h.call hframe hlen hlt .front
    exact ⟨left, h.split, h.len hlen hlt, hfront, hback⟩

end RawOpaquePoolIterator

end Folo.InfinityPool
