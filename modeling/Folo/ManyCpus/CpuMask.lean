import Folo.Lib.WordSets
import Mathlib.Algebra.Group.Nat.Defs
import Mathlib.Data.List.FinRange

/-!
# Processor masks

`CpuMask` of `pal/linux/cpu_mask.rs`: a bit for each processor, in words that
the operating system reads and fills. A mask is the set of what was inserted
(`cpu_mask_is_set`), whatever its width.
-/

namespace Folo.ManyCpus

open Folo.Lib

/-- `c_ulong`, which is as wide as `usize`. -/
inductive MachineWord
  | bits32
  | bits64

/-- `WORD_BITS`. -/
def MachineWord.bits : MachineWord → Nat
  | .bits32 => 32
  | .bits64 => 64

variable {m : MachineWord}

structure CpuMask (m : MachineWord) where
  words : List (BitVec m.bits)

/-- Where the bit of a processor is. -/
structure BitPosition (m : MachineWord) where
  word : Nat
  offset : Fin m.bits

theorem MachineWord.bits_pos (m : MachineWord) : 0 < m.bits := by cases m <;> decide

namespace BitPosition

def of (m : MachineWord) (id : UInt32) : BitPosition m where
  word := id.toNat / m.bits
  offset := ⟨id.toNat % m.bits, Nat.mod_lt _ m.bits_pos⟩

def bit (position : BitPosition m) : BitVec m.bits := 1#m.bits <<< position.offset.val

/-- Nothing where one of the checks fails. -/
def processorId (position : BitPosition m) : Option UInt32 :=
  if position.word < UInt32.size ∧ position.word * m.bits < UInt32.size ∧
      position.word * m.bits + position.offset < UInt32.size then
    some (UInt32.ofNat (position.word * m.bits + position.offset))
  else none

/-- The number of a position. -/
def number (position : BitPosition m) : Nat := position.word * m.bits + position.offset

end BitPosition

namespace CpuMask

def withWords (m : MachineWord) (words : Nat) : CpuMask m where
  words := List.replicate words 0#m.bits

/-- Nothing where one of the checks fails. -/
def insert (mask : CpuMask m) (id : UInt32) : Option (CpuMask m) :=
  let position := BitPosition.of m id
  if position.word + 1 < 2 ^ m.bits then
    let words := widen mask.words (position.word + 1)
    if position.word < words.length then
      some { words := words.modify position.word fun word => word ||| position.bit }
    else none
  else none

def processorIds (mask : CpuMask m) : Option (List UInt32) :=
  ((mask.words.zipIdx.filter fun entry => decide (entry.1 ≠ 0)).flatMap fun entry =>
    ((List.finRange m.bits).map fun offset =>
      ({ word := entry.2, offset } : BitPosition m)).filter fun position =>
        decide (entry.1 &&& position.bit ≠ 0)).mapM BitPosition.processorId

/-- `PartialEq`. -/
def eq (mask other : CpuMask m) : Bool :=
  (List.range (max mask.words.length other.words.length)).all fun i =>
    decide (wordAt mask.words i = wordAt other.words i)

/-! ## The set of a mask -/

/-- The mask has a bit for each of the processors, and no other. -/
def Holds (mask : CpuMask m) (ids : List UInt32) : Prop :=
  ∀ n, bitAt mask.words n = true ↔ ∃ id ∈ ids, id.toNat = n

theorem holds_withWords (words : Nat) : (withWords m words).Holds [] := by
  intro n
  show bitAt (List.replicate words 0#m.bits) n = true ↔ _
  rw [bitAt_replicate]
  exact ⟨nofun, nofun⟩

/-- **One insertion**: it succeeds, adds the processor and takes no width away. -/
theorem Holds.insert {mask : CpuMask m} {ids : List UInt32} (h : mask.Holds ids) (id : UInt32) :
    ∃ next, mask.insert id = some next ∧ next.Holds (ids ++ [id]) ∧
      mask.words.length ≤ next.words.length := by
  have hid := id.toNat_lt
  have hword : (BitPosition.of m id).word + 1 < 2 ^ m.bits := by
    show id.toNat / m.bits + 1 < 2 ^ m.bits
    cases m with
    | bits32 =>
      show id.toNat / 32 + 1 < 2 ^ 32
      omega
    | bits64 =>
      show id.toNat / 64 + 1 < 2 ^ 64
      omega
  have hlen : id.toNat / m.bits < (widen mask.words (id.toNat / m.bits + 1)).length := by
    rw [length_widen]
    omega
  refine ⟨⟨setBit (widen mask.words (id.toNat / m.bits + 1)) id.toNat⟩, ?_, ?_, ?_⟩
  · unfold CpuMask.insert
    dsimp only
    rw [if_pos hword]
    exact if_pos hlen
  · intro n
    show bitAt (setBit _ _) n = true ↔ _
    rw [bitAt_setBit m.bits_pos hlen, bitAt_widen, Bool.or_eq_true, h n, decide_eq_true_eq]
    simp only [List.mem_append, List.mem_singleton]
    constructor
    · rintro (⟨held, hheld, rfl⟩ | rfl)
      · exact ⟨held, .inl hheld, rfl⟩
      · exact ⟨id, .inr rfl, rfl⟩
    · rintro ⟨held, hheld | rfl, rfl⟩
      · exact .inl ⟨held, hheld, rfl⟩
      · exact .inr rfl
  · rw [length_setBit, length_widen]
    exact Nat.le_max_left ..

/-- **All insertions.** -/
theorem exists_holds {mask : CpuMask m} {before : List UInt32} (h : mask.Holds before)
    (ids : List UInt32) : ∃ last, ids.foldlM CpuMask.insert mask = some last ∧
      last.Holds (before ++ ids) ∧ mask.words.length ≤ last.words.length := by
  induction ids generalizing mask before with
  | nil =>
    refine ⟨mask, rfl, ?_, Nat.le_refl _⟩
    rw [List.append_nil]
    exact h
  | cons id ids ih =>
    obtain ⟨next, hinsert, hnext, hle⟩ := h.insert id
    obtain ⟨last, hrun, hlast, hle'⟩ := ih hnext
    refine ⟨last, ?_, ?_, Nat.le_trans hle hle'⟩
    · rw [List.foldlM_cons, hinsert]
      exact hrun
    · rw [List.append_assoc] at hlast
      exact hlast

/-! ## Reading the processors -/

theorem and_bit_ne_zero (bits : BitVec m.bits) (position : BitPosition m) :
    bits &&& position.bit ≠ 0 ↔ bits.getLsbD position.offset = true := by
  unfold BitPosition.bit
  rw [← BitVec.twoPow_eq, BitVec.and_twoPow]
  have hbit : BitVec.twoPow m.bits position.offset ≠ 0#m.bits := by
    intro h
    have hone := congrArg (fun word => word.getLsbD position.offset) h
    simp [position.offset.isLt] at hone
  cases bits.getLsbD position.offset with
  | true => simpa using hbit
  | false => simp

/-- The positions that are read, in their order. -/
def positions (mask : CpuMask m) : List (BitPosition m) :=
  (mask.words.zipIdx.filter fun entry => decide (entry.1 ≠ 0)).flatMap fun entry =>
    ((List.finRange m.bits).map fun offset =>
      ({ word := entry.2, offset } : BitPosition m)).filter fun position =>
        decide (entry.1 &&& position.bit ≠ 0)

theorem zipIdx_eq (words : List (BitVec m.bits)) :
    words.zipIdx = (List.range words.length).map fun i => (wordAt words i, i) := by
  refine List.ext_getElem? fun i => ?_
  rw [List.getElem?_zipIdx, List.getElem?_map]
  unfold wordAt
  by_cases hi : i < words.length
  · rw [List.getElem?_range hi, List.getElem?_eq_getElem hi]
    simp [hi]
  · have hle := Nat.le_of_not_lt hi
    rw [List.getElem?_eq_none hle, List.getElem?_eq_none (by rw [List.length_range]; exact hle)]
    rfl

theorem bitAt_number (words : List (BitVec m.bits)) (position : BitPosition m) :
    bitAt words position.number = (wordAt words position.word).getLsbD position.offset := by
  unfold bitAt BitPosition.number
  rw [Nat.mul_comm, Nat.mul_add_div m.bits_pos, Nat.div_eq_of_lt position.offset.isLt,
    Nat.add_zero, Nat.mul_add_mod, Nat.mod_eq_of_lt position.offset.isLt]

/-- The positions of one word, at their numbers. -/
theorem map_number_word (words : List (BitVec m.bits)) (word : Nat) :
    (((List.finRange m.bits).map fun offset => ({ word, offset } : BitPosition m)).filter
      fun position => decide (wordAt words word &&& position.bit ≠ 0)).map BitPosition.number =
      ((List.range m.bits).map (word * m.bits + ·)).filter (bitAt words) := by
  have hrange : (List.range m.bits).map (word * m.bits + ·) =
      ((List.finRange m.bits).map fun offset =>
        ({ word, offset } : BitPosition m)).map BitPosition.number := by
    rw [← List.map_coe_finRange_eq_range, List.map_map, List.map_map]
    rfl
  rw [hrange, List.filter_map (f := BitPosition.number)]
  refine congrArg (List.map BitPosition.number) (List.filter_congr fun position hposition => ?_)
  obtain ⟨offset, -, rfl⟩ := List.mem_map.mp hposition
  rw [Function.comp_apply, bitAt_number, Bool.eq_iff_iff, decide_eq_true_eq]
  exact and_bit_ne_zero _ _

/-- The positions are the set bits, in the order of their numbers. -/
theorem map_number_positions (mask : CpuMask m) : mask.positions.map BitPosition.number =
    (List.range (mask.words.length * m.bits)).filter (bitAt mask.words) := by
  have hempty : ∀ i, wordAt mask.words i = 0 →
      ((List.range m.bits).map (i * m.bits + ·)).filter (bitAt mask.words) = [] := by
    intro i hi
    rw [← map_number_word, hi]
    simp
  unfold positions
  rw [zipIdx_eq, List.filter_map, List.flatMap_map, List.map_flatMap]
  simp only [map_number_word]
  rw [← flatMap_range]
  induction List.range mask.words.length with
  | nil => rfl
  | cons i rest ih =>
    rw [List.filter_cons, List.flatMap_cons, ← ih]
    split
    · rw [List.flatMap_cons]
    next h =>
      have hzero : wordAt mask.words i = 0 := by simpa using h
      rw [hempty i hzero, List.nil_append]

/-- **The processors of a mask**: each once, in ascending order. -/
theorem Holds.processorIds {mask : CpuMask m} {ids : List UInt32} (h : mask.Holds ids) :
    ∃ out, mask.processorIds = some out ∧ out.Pairwise (· < ·) ∧ ∀ id, id ∈ out ↔ id ∈ ids := by
  have hread : ∀ position ∈ mask.positions,
      position.processorId = some (UInt32.ofNat position.number) ∧
        position.number < UInt32.size := by
    intro position hposition
    have hmem : position.number ∈ mask.positions.map BitPosition.number :=
      List.mem_map_of_mem hposition
    rw [map_number_positions] at hmem
    obtain ⟨id, -, hid⟩ := (h _).mp (List.mem_filter.mp hmem).2
    have hlt : position.number < UInt32.size := hid ▸ id.toNat_lt
    have hword : position.word ≤ position.word * m.bits := Nat.le_mul_of_pos_right _ m.bits_pos
    have hnumber : position.number = position.word * m.bits + position.offset := rfl
    refine ⟨?_, hlt⟩
    unfold BitPosition.processorId
    rw [if_pos ⟨by omega, by omega, hlt⟩]
    rfl
  refine ⟨mask.positions.map fun position => UInt32.ofNat position.number, ?_, ?_, fun id => ?_⟩
  · show mask.positions.mapM BitPosition.processorId = _
    revert hread
    generalize mask.positions = all
    intro hread
    induction all with
    | nil => rfl
    | cons position all ih =>
      obtain ⟨hposition, hall⟩ := List.forall_mem_cons.mp hread
      rw [List.mapM_cons, hposition.1, ih hall]
      rfl
  · have hsorted : (mask.positions.map BitPosition.number).Pairwise (· < ·) := by
      rw [map_number_positions]
      exact List.pairwise_lt_range.filter _
    rw [List.pairwise_map] at hsorted ⊢
    refine hsorted.imp_of_mem fun {a b} ha hb hlt => ?_
    rw [UInt32.lt_iff_toNat_lt, UInt32.toNat_ofNat_of_lt' (hread a ha).2,
      UInt32.toNat_ofNat_of_lt' (hread b hb).2]
    exact hlt
  · rw [List.mem_map]
    constructor
    · rintro ⟨position, hposition, rfl⟩
      have hmem : position.number ∈ mask.positions.map BitPosition.number :=
        List.mem_map_of_mem hposition
      rw [map_number_positions] at hmem
      obtain ⟨id, hid, heq⟩ := (h _).mp (List.mem_filter.mp hmem).2
      rw [← heq, UInt32.ofNat_toNat]
      exact hid
    · intro hid
      have hbit := (h id.toNat).mpr ⟨id, hid, rfl⟩
      have hlt := Nat.lt_mul_of_div_lt (div_lt_of_bitAt hbit) m.bits_pos
      have hmem : id.toNat ∈ mask.positions.map BitPosition.number := by
        rw [map_number_positions]
        exact List.mem_filter.mpr ⟨List.mem_range.mpr hlt, hbit⟩
      obtain ⟨position, hposition, heq⟩ := List.mem_map.mp hmem
      exact ⟨position, hposition, by rw [heq, UInt32.ofNat_toNat]⟩

/-- Masks of any widths are equal when their sets are. -/
theorem eq_iff {mask other : CpuMask m} :
    mask.eq other = true ↔ ∀ n, bitAt mask.words n = bitAt other.words n := by
  rw [← wordAt_eq_iff m.bits_pos]
  unfold CpuMask.eq
  rw [List.all_eq_true]
  constructor
  · intro h i
    by_cases hi : i < max mask.words.length other.words.length
    · exact of_decide_eq_true (h i (List.mem_range.mpr hi))
    · unfold wordAt
      rw [List.getElem?_eq_none (by omega), List.getElem?_eq_none (by omega)]
  · intro h i _
    exact decide_eq_true (h i)

end CpuMask

/-- **A mask is the set of what was inserted**: every insertion succeeds and
makes the mask no narrower, the processors are read each once in ascending
order, and masks of any widths are equal exactly when their sets are. -/
theorem cpu_mask_is_set (m : MachineWord) (words : Nat) (ids : List UInt32) :
    ∃ mask, ids.foldlM CpuMask.insert (CpuMask.withWords m words) = some mask ∧
      (∀ front rest, ids = front ++ rest →
        ∃ before, front.foldlM CpuMask.insert (CpuMask.withWords m words) = some before ∧
          words ≤ before.words.length ∧ before.words.length ≤ mask.words.length) ∧
      (∃ out, mask.processorIds = some out ∧ out.Pairwise (· < ·) ∧ ∀ id, id ∈ out ↔ id ∈ ids) ∧
      ∀ (words' : Nat) (ids' : List UInt32), ∃ other,
        ids'.foldlM CpuMask.insert (CpuMask.withWords m words') = some other ∧
          (mask.eq other = true ↔ ∀ id, id ∈ ids ↔ id ∈ ids') := by
  obtain ⟨mask, hrun, hmask, -⟩ := CpuMask.exists_holds (CpuMask.holds_withWords (m := m) words) ids
  refine ⟨mask, hrun, ?_, hmask.processorIds, fun words' ids' => ?_⟩
  · rintro front rest rfl
    obtain ⟨before, hbefore, hholds, hle⟩ :=
      CpuMask.exists_holds (CpuMask.holds_withWords (m := m) words) front
    obtain ⟨last, hlast, -, hle'⟩ := CpuMask.exists_holds hholds rest
    refine ⟨before, hbefore, ?_, ?_⟩
    · have hlen : (CpuMask.withWords m words).words.length = words := List.length_replicate
      omega
    · rw [List.foldlM_append, hbefore] at hrun
      obtain rfl := Option.some.inj (hlast.symm.trans hrun)
      exact hle'
  · obtain ⟨other, hrun', hother, -⟩ :=
      CpuMask.exists_holds (CpuMask.holds_withWords (m := m) words') ids'
    refine ⟨other, hrun', CpuMask.eq_iff.trans ⟨fun h id => ?_, fun h n => ?_⟩⟩
    · have hiff : (∃ held ∈ ids, held.toNat = id.toNat) ↔
          ∃ held ∈ ids', held.toNat = id.toNat := by
        rw [← List.nil_append ids, ← List.nil_append ids', ← hmask, ← hother, h]
      constructor
      · intro hid
        obtain ⟨held, hheld, heq⟩ := hiff.mp ⟨id, hid, rfl⟩
        exact UInt32.toNat_inj.mp heq ▸ hheld
      · intro hid
        obtain ⟨held, hheld, heq⟩ := hiff.mpr ⟨id, hid, rfl⟩
        exact UInt32.toNat_inj.mp heq ▸ hheld
    · rw [Bool.eq_iff_iff, hmask, hother]
      exact exists_congr fun id => and_congr_left' (h id)

end Folo.ManyCpus
