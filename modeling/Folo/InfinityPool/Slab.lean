import Folo.InfinityPool.VacancyMap
import Folo.Lib.FreeList

/-!
# `Slab`: one piece of an object pool's capacity

The embedding of `slab.rs`, `slot_meta.rs` and what the pool uses of
`slab_layout.rs`. A slot is its metadata with the object next to it; which
bytes the object occupies is left out, so a slab handle is just its index.

An operation answers with a result or with the panic that unwinds out of it,
and in both cases with the slab it leaves behind. The panics are those of the
user code it runs (`initializer`, `destructor`), those that its documentation
announces, and its own assertions; debug assertions count as assertions, and
an unchecked access out of bounds is the panic `outOfBounds`.

`WellFormed` is the invariant: the vacant slots are threaded into a free list
that starts at `next_free_slot_index`, and `count` counts the others.
-/

namespace Folo.InfinityPool

open Folo.Lib

variable {α : Type}

/-- What can unwind out of an operation of a slab or of a pool. -/
inductive Panic
  | layoutMismatch
  | capacityOverflow
  | allocation
  | initializer
  | destructor
  | slotVacant
  | slotOccupied
  | slabFull
  | outOfBounds
  | belowCapacity
  | trackerAssertion
deriving DecidableEq, Repr

/-- `std::alloc::Layout`. -/
structure Layout where
  size : Nat
  align : Nat
deriving DecidableEq

/-- What is used of a `SlabLayout`. The object layout is not zero-sized, so a
slot has a size, and the capacity is a `NonZero<usize>`. -/
structure SlabLayout where
  objectLayout : Layout
  slotSize : Nat
  capacity : Nat
  slotSize_pos : 0 < slotSize
  capacity_pos : 0 < capacity

/-- The size of the slot array of a slab. -/
def SlabLayout.slotArraySize (layout : SlabLayout) : Nat := layout.capacity * layout.slotSize

/-- `SlotMeta`, with the object that an occupied slot stores. -/
inductive SlotMeta (α : Type)
  | occupied (object : α)
  | vacant (nextFreeSlotIndex : Nat)
deriving DecidableEq

def SlotMeta.isOccupied : SlotMeta α → Bool
  | occupied _ => true
  | vacant _ => false

structure Slab (α : Type) where
  layout : SlabLayout
  slots : List (SlotMeta α)
  nextFreeSlotIndex : Nat
  count : Nat

namespace Slab

/-- `Slab::new`: every slot is vacant and linked to the one behind it. -/
def new (layout : SlabLayout) : Slab α where
  layout := layout
  slots := (List.range layout.capacity).map fun index => .vacant (index + 1)
  nextFreeSlotIndex := 0
  count := 0

def len (s : Slab α) : Nat := s.count

def isEmpty (s : Slab α) : Bool := s.count = 0

def isFull (s : Slab α) : Bool := s.count = s.layout.capacity

/-- Slot `index` has been popped off the free list and stores `object`. -/
def occupy (s : Slab α) (index : Nat) (object : α) (nextFreeSlotIndex : Nat) : Slab α :=
  { s with
    slots := s.slots.set index (.occupied object)
    nextFreeSlotIndex := nextFreeSlotIndex
    count := s.count + 1 }

/-- Slot `index` is vacant again and on top of the free list. -/
def release (s : Slab α) (index : Nat) : Slab α :=
  { s with
    slots := s.slots.set index (.vacant s.nextFreeSlotIndex)
    nextFreeSlotIndex := index
    count := s.count - 1 }

/-- `insert_with_unchecked`: `f` is what the initializer writes, or nothing if
it panics. -/
def insertWithUnchecked (s : Slab α) (layoutT : Layout) (f : Option α) :
    Except Panic Nat × Slab α :=
  if layoutT ≠ s.layout.objectLayout then (.error .layoutMismatch, s)
  else if s.isFull then (.error .slabFull, s)
  else
    let index := s.nextFreeSlotIndex
    match s.slots[index]? with
    | none => (.error .outOfBounds, s)
    | some previousMeta =>
      match f with
      -- No slab state has been modified yet, so the slab backs out cleanly.
      | none => (.error .initializer, s)
      | some object =>
        match previousMeta with
        | .vacant nextFreeSlotIndex => (.ok index, s.occupy index object nextFreeSlotIndex)
        | .occupied _ =>
          (.error .slotOccupied, { s with slots := s.slots.set index (.occupied object) })

/-- `remove`: `dropPanics` says which objects have a destructor that panics. -/
def remove (s : Slab α) (dropPanics : α → Bool) (index : Nat) : Except Panic Unit × Slab α :=
  match s.slots[index]? with
  | none => (.error .outOfBounds, s)
  -- The old meta is put back before the panic.
  | some (.vacant _) => (.error .slotVacant, s)
  | some (.occupied object) =>
    -- The slab is in its final state when the destructor runs.
    (if dropPanics object then .error .destructor else .ok (), s.release index)

/-- `remove_unpin`. -/
def removeUnpin (s : Slab α) (index : Nat) : Except Panic α × Slab α :=
  match s.slots[index]? with
  | none => (.error .outOfBounds, s)
  | some (.vacant _) => (.error .slotVacant, s)
  | some (.occupied object) => (.ok object, s.release index)

/-- The object in slot `index`, if the slot is occupied. -/
def object? (s : Slab α) (index : Nat) : Option α :=
  match s.slots[index]? with
  | some (.occupied object) => some object
  | _ => none

/-- The link of slot `index`, if the slot is vacant. -/
def nextFree (s : Slab α) (index : Nat) : Option Nat :=
  match s.slots[index]? with
  | some (.vacant nextFreeSlotIndex) => some nextFreeSlotIndex
  | _ => none

/-- The vacant slots form the free list, and `count` counts the others. -/
structure WellFormed (s : Slab α) : Prop where
  length : s.slots.length = s.layout.capacity
  count : s.count = s.slots.countP SlotMeta.isOccupied
  free : ∃ l, FreeList s.nextFree s.layout.capacity s.nextFreeSlotIndex l

/-! ## The slot a call changes, and no other -/

theorem object?_eq_some {s : Slab α} {i : Nat} {v : α} :
    s.object? i = some v ↔ s.slots[i]? = some (.occupied v) := by
  unfold object?
  split <;> simp_all

theorem nextFree_eq_some {s : Slab α} {i n : Nat} :
    s.nextFree i = some n ↔ s.slots[i]? = some (.vacant n) := by
  unfold nextFree
  split <;> simp_all

theorem object?_occupy {s : Slab α} {i : Nat} (hi : i < s.slots.length) (v : α) (n j : Nat) :
    (s.occupy i v n).object? j = if j = i then some v else s.object? j := by
  unfold object? occupy
  by_cases hj : j = i
  · subst hj
    simp [hi]
  · simp [Ne.symm hj, hj]

theorem object?_release {s : Slab α} {i : Nat} (hi : i < s.slots.length) (j : Nat) :
    (s.release i).object? j = if j = i then none else s.object? j := by
  unfold object? release
  by_cases hj : j = i
  · subst hj
    simp [hi]
  · simp [Ne.symm hj, hj]

theorem nextFree_occupy {s : Slab α} {i : Nat} (hi : i < s.slots.length) (v : α) (n : Nat) :
    (s.occupy i v n).nextFree = Function.update s.nextFree i none := by
  funext j
  by_cases hj : j = i
  · subst hj
    simp [nextFree, occupy, hi]
  · simp [nextFree, occupy, Ne.symm hj, hj]

theorem nextFree_release {s : Slab α} {i : Nat} (hi : i < s.slots.length) :
    (s.release i).nextFree = Function.update s.nextFree i (some s.nextFreeSlotIndex) := by
  funext j
  by_cases hj : j = i
  · subst hj
    simp [nextFree, release, hi]
  · simp [nextFree, release, Ne.symm hj, hj]

/-! ## The invariant -/

theorem chain_new (layout : SlabLayout) (i : Nat) (k : Nat) (h : i + k = layout.capacity) :
    Chain (new layout : Slab α).nextFree layout.capacity i (List.range' i k) := by
  induction k generalizing i with
  | zero => exact h
  | succ k ih =>
    refine ⟨rfl, i + 1, ?_, ih (i + 1) (by omega)⟩
    rw [nextFree_eq_some]
    simp only [new, List.getElem?_map]
    rw [List.getElem?_range (by omega), Option.map_some]

theorem wellFormed_new (layout : SlabLayout) : (new layout : Slab α).WellFormed where
  length := by simp [new]
  count := by
    symm
    simp [new, List.countP_eq_zero, SlotMeta.isOccupied]
  free := by
    refine ⟨List.range' 0 layout.capacity, chain_new layout 0 _ (Nat.zero_add _),
      List.nodup_range', fun i => ?_⟩
    rw [List.mem_range'_1, Option.isSome_iff_exists]
    simp only [nextFree_eq_some, new, List.getElem?_map, Option.map_eq_some_iff,
      List.getElem?_eq_some_iff, List.length_range]
    constructor
    · intro h
      exact ⟨i + 1, i, ⟨by omega, List.getElem_range _⟩, rfl⟩
    · rintro ⟨_, _, ⟨h, _⟩, _⟩
      exact ⟨Nat.zero_le _, by omega⟩

/-- A slab that is not full has a vacant slot on top of its free list. -/
theorem WellFormed.next_vacant {s : Slab α} (h : s.WellFormed) (hf : s.isFull = false) :
    ∃ n, s.slots[s.nextFreeSlotIndex]? = some (.vacant n) := by
  obtain ⟨l, hl⟩ := h.free
  have hlt : s.slots.countP SlotMeta.isOccupied < s.slots.length := by
    have hle : s.slots.countP SlotMeta.isOccupied ≤ s.slots.length := List.countP_le_length
    have hne : s.count ≠ s.layout.capacity := by simpa [isFull] using hf
    rw [h.count, ← h.length] at hne
    omega
  obtain ⟨m, hm, hocc⟩ := List.countP_lt_length_iff.mp hlt
  obtain ⟨i, hi⟩ := List.mem_iff_getElem?.mp hm
  cases m with
  | occupied v => cases hocc
  | vacant n =>
    have hfree : (s.nextFree i).isSome := by
      rw [nextFree_eq_some.mpr hi]
      rfl
    obtain ⟨c, _, _, hc, _⟩ := hl.head_free hfree
    exact ⟨c, nextFree_eq_some.mp hc⟩

/-- An insertion into a slab that is not full takes that slot, unless the
initializer panics, which leaves the slab as it is. -/
theorem WellFormed.insertWithUnchecked {s : Slab α} (h : s.WellFormed) (hf : s.isFull = false) :
    ∃ n, s.slots[s.nextFreeSlotIndex]? = some (.vacant n) ∧
      s.insertWithUnchecked s.layout.objectLayout none = (.error .initializer, s) ∧
      ∀ v, s.insertWithUnchecked s.layout.objectLayout (some v) =
        (.ok s.nextFreeSlotIndex, s.occupy s.nextFreeSlotIndex v n) := by
  obtain ⟨n, hn⟩ := h.next_vacant hf
  refine ⟨n, hn, ?_, fun v => ?_⟩ <;>
    simp [Slab.insertWithUnchecked, hf, hn]

theorem WellFormed.occupy {s : Slab α} (h : s.WellFormed) {n : Nat}
    (hn : s.slots[s.nextFreeSlotIndex]? = some (.vacant n)) (v : α) :
    (s.occupy s.nextFreeSlotIndex v n).WellFormed := by
  obtain ⟨hlt, hget⟩ := List.getElem?_eq_some_iff.mp hn
  obtain ⟨l, hl⟩ := h.free
  refine ⟨by simpa [Slab.occupy] using h.length, ?_, ?_⟩
  · simp only [Slab.occupy]
    rw [List.countP_set hlt, hget, h.count]
    simp [SlotMeta.isOccupied]
  · rw [nextFree_occupy hlt]
    exact hl.pop (nextFree_eq_some.mpr hn)

theorem WellFormed.release {s : Slab α} (h : s.WellFormed) {i : Nat} {v : α}
    (hi : s.slots[i]? = some (.occupied v)) : (s.release i).WellFormed := by
  obtain ⟨hlt, hget⟩ := List.getElem?_eq_some_iff.mp hi
  obtain ⟨l, hl⟩ := h.free
  refine ⟨by simpa [Slab.release] using h.length, ?_, ?_⟩
  · simp only [Slab.release]
    rw [List.countP_set hlt, hget, h.count]
    simp [SlotMeta.isOccupied]
  · rw [nextFree_release hlt]
    refine ⟨i :: l, hl.push ?_⟩
    simp [nextFree, hi]

/-- An occupied slot counts. -/
theorem WellFormed.count_pos {s : Slab α} (h : s.WellFormed) {i : Nat} {v : α}
    (hi : s.slots[i]? = some (.occupied v)) : 0 < s.count := by
  rw [h.count, List.countP_pos_iff]
  exact ⟨_, List.mem_of_getElem? hi, rfl⟩

theorem WellFormed.count_le {s : Slab α} (h : s.WellFormed) : s.count ≤ s.layout.capacity := by
  rw [h.count, ← h.length]
  exact List.countP_le_length

/-! ## The slots in use -/

/-- The occupied slots, in order. -/
def occupiedSlots (s : Slab α) : List Nat :=
  (List.range s.slots.length).filter fun index => (s.object? index).isSome

theorem mem_occupiedSlots {s : Slab α} {i : Nat} :
    i ∈ s.occupiedSlots ↔ (s.object? i).isSome = true := by
  rw [occupiedSlots, List.mem_filter, List.mem_range, and_iff_right_iff_imp]
  intro h
  obtain ⟨v, hv⟩ := Option.isSome_iff_exists.mp h
  exact (List.getElem?_eq_some_iff.mp (object?_eq_some.mp hv)).1

theorem isSome_object? (s : Slab α) (i : Nat) :
    (s.object? i).isSome = s.slots[i]?.any SlotMeta.isOccupied := by
  rw [object?]
  rcases s.slots[i]? with _ | _ | _ <;> rfl

theorem isSome_nextFree (s : Slab α) (i : Nat) :
    (s.nextFree i).isSome = s.slots[i]?.any fun slotMeta => !slotMeta.isOccupied := by
  rw [nextFree]
  rcases s.slots[i]? with _ | _ | _ <;> rfl

/-- A list and its indexes are counted alike. -/
theorem length_filter_range {β : Type} (l : List β) (p : β → Bool) :
    ((List.range l.length).filter fun i => l[i]?.any p).length = l.countP p := by
  have hmap : l.map some = (List.range l.length).map fun i => l[i]? := by
    refine List.ext_getElem? fun i => ?_
    rw [List.getElem?_map, List.getElem?_map]
    by_cases hi : i < l.length
    · rw [List.getElem?_range hi, Option.map_some, List.getElem?_eq_getElem hi, Option.map_some]
    · rw [List.getElem?_eq_none (by omega), List.getElem?_eq_none (by rw [List.length_range]; omega),
        Option.map_none, Option.map_none]
  have hcount := congrArg (List.countP (Option.any p)) hmap
  rw [List.countP_map, List.countP_map] at hcount
  rw [← List.countP_eq_length_filter]
  exact hcount.symm

theorem length_occupiedSlots (s : Slab α) :
    s.occupiedSlots.length = s.slots.countP SlotMeta.isOccupied := by
  simp only [occupiedSlots, isSome_object?]
  exact length_filter_range s.slots SlotMeta.isOccupied

/-- The free list has as many slots as the capacity leaves. -/
theorem WellFormed.length_free {s : Slab α} (h : s.WellFormed) {l : List Nat}
    (hl : FreeList s.nextFree s.layout.capacity s.nextFreeSlotIndex l) :
    l.length = s.layout.capacity - s.count := by
  have hperm : l.Perm ((List.range s.slots.length).filter fun i => (s.nextFree i).isSome) := by
    refine (List.perm_ext_iff_of_nodup hl.nodup (List.nodup_range.filter _)).mpr fun i => ?_
    rw [hl.mem, List.mem_filter, List.mem_range]
    refine (and_iff_right_of_imp fun hi => ?_).symm
    obtain ⟨n, hn⟩ := Option.isSome_iff_exists.mp hi
    exact (List.getElem?_eq_some_iff.mp (nextFree_eq_some.mp hn)).1
  have hcount := List.length_eq_countP_add_countP SlotMeta.isOccupied (l := s.slots)
  simp only [isSome_nextFree] at hperm
  rw [hperm.length_eq, length_filter_range]
  rw [h.length, ← h.count] at hcount
  simp only [Bool.not_eq_true, Bool.decide_eq_false] at hcount
  omega

end Slab

end Folo.InfinityPool
