import Folo.Lib.Machine
import Folo.InfinityPool.Slab

/-!
# Whole runs of a slab

Any sequence of insertions and removals on one slab. An initializer may panic,
and so may a destructor; a handle of the slab may be used again after its
object is gone, which panics. What is asked of the caller is that a handle
belongs to the slab.

`wellFormed_run` is the step: each call keeps the free list and the count.
-/

namespace Folo.InfinityPool

open Folo.Lib

variable {α : Type}

/-- The calls. `f` is what the initializer writes, or nothing if it panics. -/
inductive SlabOp (α : Type)
  | insertWith (layoutT : Layout) (f : Option α)
  | remove (index : Nat)
  | removeUnpin (index : Nat)

/-- What a call on a slab returns. -/
inductive SlabAnswer (α : Type)
  | unit
  | handle (index : Nat)
  | object (value : α)
deriving DecidableEq

namespace SlabOp

/-- The call itself. -/
def run (dropPanics : α → Bool) (s : Slab α) : SlabOp α → Except Panic (SlabAnswer α) × Slab α
  | insertWith layoutT f => (s.insertWithUnchecked layoutT f).map (Except.map .handle) id
  | remove index => (s.remove dropPanics index).map (Except.map fun _ => .unit) id
  | removeUnpin index => (s.removeUnpin index).map (Except.map .object) id

/-- A handle belongs to the slab. -/
def Valid (s : Slab α) : SlabOp α → Prop
  | insertWith _ _ => True
  | remove index | removeUnpin index => index < s.layout.capacity

instance (s : Slab α) : (op : SlabOp α) → Decidable (op.Valid s)
  | insertWith _ _ => inferInstanceAs (Decidable True)
  | remove index | removeUnpin index => inferInstanceAs (Decidable (index < s.layout.capacity))

end SlabOp

/-- A slab and the calls made on it; panics are unwound. -/
def slab (layout : SlabLayout) (dropPanics : α → Bool) : Machine (Slab α) (SlabOp α) where
  init := Slab.new layout
  next s op := if op.Valid s then some (op.run dropPanics s).2 else none

/-- The panics that a call is documented to have or passes on. -/
def Panic.OfSlab : Panic → Prop
  | .layoutMismatch | .slabFull | .initializer | .slotVacant | .destructor => True
  | _ => False

namespace Slab

/-- An insertion that stores nothing changes nothing. -/
theorem WellFormed.insert_cases {s : Slab α} (h : s.WellFormed) (layoutT : Layout)
    (f : Option α) :
    (∃ why : Panic, why.OfSlab ∧ why ≠ .destructor ∧
      s.insertWithUnchecked layoutT f = (.error why, s)) ∨
      ∃ n v, s.isFull = false ∧ s.slots[s.nextFreeSlotIndex]? = some (.vacant n) ∧ f = some v ∧
        s.insertWithUnchecked layoutT f =
          (.ok s.nextFreeSlotIndex, s.occupy s.nextFreeSlotIndex v n) := by
  cases hf : s.isFull with
  | true =>
    left
    rw [Slab.insertWithUnchecked]
    split
    · exact ⟨.layoutMismatch, trivial, by decide, rfl⟩
    · exact ⟨.slabFull, trivial, by decide, rfl⟩
  | false =>
    by_cases hlayout : layoutT = s.layout.objectLayout
    · obtain ⟨n, hn, hpanic, hok⟩ := h.insertWithUnchecked hf
      rw [hlayout]
      cases f with
      | none => exact Or.inl ⟨.initializer, trivial, by decide, hpanic⟩
      | some v => exact Or.inr ⟨n, v, rfl, hn, rfl, hok v⟩
    · left
      refine ⟨.layoutMismatch, trivial, by decide, ?_⟩
      rw [Slab.insertWithUnchecked, if_pos hlayout]

/-- A removal finds the slot vacant and changes nothing, or it releases it. -/
theorem remove_cases {s : Slab α} {i : Nat} (hi : i < s.slots.length) (dropPanics : α → Bool) :
    ((∃ n, s.slots[i]? = some (.vacant n)) ∧
        s.remove dropPanics i = (.error .slotVacant, s) ∧
        s.removeUnpin i = (.error .slotVacant, s)) ∨
      ∃ v, s.slots[i]? = some (.occupied v) ∧
        s.remove dropPanics i =
          (if dropPanics v then .error .destructor else .ok (), s.release i) ∧
        s.removeUnpin i = (.ok v, s.release i) := by
  rw [remove, removeUnpin, List.getElem?_eq_getElem hi]
  cases s.slots[i] with
  | vacant n => exact Or.inl ⟨⟨n, rfl⟩, rfl, rfl⟩
  | occupied v => exact Or.inr ⟨v, rfl, rfl, rfl⟩

/-- The step lemma: a call keeps the invariant and panics as documented. -/
theorem WellFormed.run {s : Slab α} (h : s.WellFormed) (dropPanics : α → Bool) {op : SlabOp α}
    (hv : op.Valid s) : (op.run dropPanics s).2.WellFormed ∧
      (op.run dropPanics s).2.layout = s.layout ∧
      ∀ why, (op.run dropPanics s).1 = .error why → why.OfSlab := by
  cases op with
  | insertWith layoutT f =>
    rw [SlabOp.run]
    rcases h.insert_cases layoutT f with ⟨why, hwhy, -, heq⟩ | ⟨n, v, -, hn, -, heq⟩
    · rw [heq]
      refine ⟨h, rfl, fun why' hwhy' => ?_⟩
      rw [← Except.error.inj hwhy']
      exact hwhy
    · rw [heq]
      exact ⟨h.occupy hn v, rfl, fun why' hwhy' => nomatch hwhy'⟩
  | remove i =>
    rw [SlabOp.run]
    rcases remove_cases (by rw [h.length]; exact hv) dropPanics with
      ⟨-, heq, -⟩ | ⟨v, hocc, heq, -⟩
    · rw [heq]
      refine ⟨h, rfl, fun why' hwhy' => ?_⟩
      rw [← Except.error.inj hwhy']
      trivial
    · rw [heq]
      refine ⟨h.release hocc, rfl, fun why' hwhy' => ?_⟩
      cases hp : dropPanics v with
      | true =>
        simp only [hp, if_true] at hwhy'
        rw [← Except.error.inj hwhy']
        trivial
      | false =>
        simp only [hp] at hwhy'
        nomatch hwhy'
  | removeUnpin i =>
    rw [SlabOp.run]
    rcases remove_cases (by rw [h.length]; exact hv) dropPanics with
      ⟨-, -, heq⟩ | ⟨v, hocc, -, heq⟩
    · rw [heq]
      refine ⟨h, rfl, fun why' hwhy' => ?_⟩
      rw [← Except.error.inj hwhy']
      trivial
    · rw [heq]
      exact ⟨h.release hocc, rfl, fun why' hwhy' => nomatch hwhy'⟩

theorem wellFormed_of_reachable {layout : SlabLayout} {dropPanics : α → Bool} {s : Slab α}
    (h : (slab layout dropPanics).Reachable s) : s.WellFormed ∧ s.layout = layout := by
  refine h.invariant (I := fun s => s.WellFormed ∧ s.layout = layout)
    ⟨wellFormed_new layout, rfl⟩ ?_
  intro s op s' _ hinv _ hnext
  simp only [slab] at hnext
  split at hnext
  next hv =>
    obtain ⟨hw, hl, -⟩ := hinv.1.run dropPanics hv
    rw [← Option.some.inj hnext]
    exact ⟨hw, hl.trans hinv.2⟩
  next => cases hnext

/-- What holds of a slab between two calls. -/
structure Ordered (dropPanics : α → Bool) (s : Slab α) : Prop where
  /-- The chain from the first free slot visits exactly the vacant slots, each
  once, and it ends at the capacity after as many steps as there is room. -/
  chain : ∃ l : List Nat, Chain s.nextFree s.layout.capacity s.nextFreeSlotIndex l ∧ l.Nodup ∧
    (∀ i, i ∈ l ↔ ∃ n, s.slots[i]? = some (.vacant n)) ∧ l.length = s.layout.capacity - s.count
  /-- The count is the number of occupied slots. -/
  slots : s.slots.length = s.layout.capacity
  count : s.count = s.slots.countP SlotMeta.isOccupied
  /-- A slab with room takes an object into a vacant slot, and only there. -/
  insert : s.isFull = false → ∀ v, ∃ n s',
    s.slots[s.nextFreeSlotIndex]? = some (.vacant n) ∧
    s.insertWithUnchecked s.layout.objectLayout (some v) = (.ok s.nextFreeSlotIndex, s') ∧
    s'.count = s.count + 1 ∧ s'.nextFreeSlotIndex = n ∧
    s'.slots = s.slots.set s.nextFreeSlotIndex (.occupied v)
  /-- A panicking initializer leaves the slab as it was. -/
  initializer : s.isFull = false →
    s.insertWithUnchecked s.layout.objectLayout none = (.error .initializer, s)
  /-- So does the removal from a vacant slot. -/
  vacant : ∀ i n, s.slots[i]? = some (.vacant n) →
    s.remove dropPanics i = (.error .slotVacant, s) ∧ s.removeUnpin i = (.error .slotVacant, s)
  /-- No call runs into an assertion of the slab or leaves its bounds. -/
  documented : ∀ op : SlabOp α, op.Valid s → ∀ why,
    (op.run dropPanics s).1 = .error why → why.OfSlab

/-- **The free list of a slab** threads exactly the vacant slots, whatever has
been inserted, removed and unwound before. -/
theorem freelist_invariant {layout : SlabLayout} {dropPanics : α → Bool} {s : Slab α}
    (h : (slab layout dropPanics).Reachable s) : s.Ordered dropPanics := by
  obtain ⟨hw, -⟩ := wellFormed_of_reachable h
  obtain ⟨l, hl⟩ := hw.free
  refine
    { chain := ⟨l, hl.chain, hl.nodup, fun i => ?_, hw.length_free hl⟩
      slots := hw.length
      count := hw.count
      insert := fun hf v => ?_
      initializer := fun hf => ?_
      vacant := fun i n hn => ?_
      documented := fun op hv => (hw.run dropPanics hv).2.2 }
  · rw [hl.mem, Option.isSome_iff_exists]
    exact exists_congr fun n => nextFree_eq_some
  · obtain ⟨n, hn, -, hok⟩ := hw.insertWithUnchecked hf
    exact ⟨n, _, hn, hok v, rfl, rfl, rfl⟩
  · obtain ⟨n, hn, hpanic, -⟩ := hw.insertWithUnchecked hf
    exact hpanic
  · rcases remove_cases (List.getElem?_eq_some_iff.mp hn).1 dropPanics with
      ⟨-, hremove, hunpin⟩ | ⟨v, hv, -⟩
    · exact ⟨hremove, hunpin⟩
    · rw [hn] at hv
      cases hv

/-- Three slots; one initializer and one destructor panic, and one slot is
released twice. -/
theorem freelist_invariant_unwound :
    ∃ s, (slab ⟨⟨8, 8⟩, 16, 3, by decide, by decide⟩ (fun v : Nat => v == 7)).run
        [.insertWith ⟨8, 8⟩ (some 7), .insertWith ⟨8, 8⟩ none, .insertWith ⟨8, 8⟩ (some 8),
          .remove 0, .remove 0, .insertWith ⟨8, 8⟩ (some 9), .removeUnpin 1] = some s ∧
      s.nextFreeSlotIndex = 1 ∧ s.slots = [.occupied 9, .vacant 2, .vacant 3] ∧
      s.Ordered fun v => v == 7 := by
  have hrun : ((slab ⟨⟨8, 8⟩, 16, 3, by decide, by decide⟩ (fun v : Nat => v == 7)).run
      [.insertWith ⟨8, 8⟩ (some 7), .insertWith ⟨8, 8⟩ none, .insertWith ⟨8, 8⟩ (some 8),
        .remove 0, .remove 0, .insertWith ⟨8, 8⟩ (some 9), .removeUnpin 1]).map
        (fun s => (s.nextFreeSlotIndex, s.slots)) =
      some (1, [.occupied 9, .vacant 2, .vacant 3]) := by decide +kernel
  obtain ⟨s, hs, heq⟩ := Option.map_eq_some_iff.mp hrun
  obtain ⟨hnext, hslots⟩ := Prod.mk.inj heq
  exact ⟨s, hs, hnext, hslots, freelist_invariant (Machine.reachable_of_run hs)⟩

end Slab

end Folo.InfinityPool
