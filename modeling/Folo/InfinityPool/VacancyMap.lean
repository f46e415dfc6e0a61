import Mathlib.Tactic

/-!
# `VacancyMap`: a bit vector in 64-bit blocks

The embedding of `vacancy_map.rs`. A block is a `BitVec 64`; the map carries
the fact that it owns exactly the blocks its length needs, so no block index
computed from a bit index below the length can leave the vector.

`bit m i` reads bit `i` of the memory, also past the length: `resize` leaves
whatever a shrunk map had there, and extends a partial block only when the
new length ends in that same block. `Spare v m` says that all these leftover
bits are `v`; under it `resize` behaves as a plain list of booleans does
(`bit_resize_fresh`, `spare_resize`). `firstOne_spec` is the search.

Indices are `Nat`: each index computation here stays between 0 and the length,
which is a `usize`, so the `wrapping_*` operations of the source never wrap.
-/

namespace Folo.InfinityPool

/-- `BitBlock`. -/
abbrev BitBlock := BitVec 64

/-- `BITS_PER_BLOCK`. -/
abbrev bitsPerBlock : Nat := 64

/-! ## Bits of one block -/

/-- `get_bit`. -/
def getBit (block : BitBlock) (bitIndex : Nat) : Bool :=
  block &&& (1#64 <<< bitIndex) != 0#64

/-- `set_bit`. -/
def setBit (block : BitBlock) (bitIndex : Nat) : BitBlock :=
  block ||| (1#64 <<< bitIndex)

/-- `clear_bit`. -/
def clearBit (block : BitBlock) (bitIndex : Nat) : BitBlock :=
  block &&& ~~~(1#64 <<< bitIndex)

/-- `mask_bits`: the bits between the two indices, both included. -/
def maskBits (block : BitBlock) (startBitIndex endBitIndex : Nat) : BitBlock :=
  let maskStart := BitVec.allOnes 64 <<< startBitIndex
  let maskPastEnd := 1#64 <<< (endBitIndex + 1)
  let maskEnd := maskPastEnd - 1#64
  block &&& maskStart &&& maskEnd

theorem getLsbD_one_shiftLeft (i j : Nat) :
    (1#64 <<< i).getLsbD j = decide (j = i ∧ i < 64) := by
  rw [BitVec.getLsbD_shiftLeft, BitVec.getLsbD_one, Bool.eq_iff_iff]
  simp only [Bool.and_eq_true, decide_eq_true_eq, Bool.not_eq_true', decide_eq_false_iff_not]
  omega

theorem getBit_eq (block : BitBlock) (i : Nat) : getBit block i = block.getLsbD i := by
  rw [getBit, bne, Bool.not_eq_eq_eq_not, Bool.eq_iff_iff, beq_iff_eq]
  constructor
  · intro h
    have hi := congrArg (BitVec.getLsbD · i) h
    simp only [BitVec.getLsbD_and, getLsbD_one_shiftLeft, BitVec.getLsbD_zero] at hi
    by_cases h64 : i < 64
    · simpa [h64] using hi
    · simp [BitVec.getLsbD_of_ge block i (by omega)]
  · intro h
    apply BitVec.eq_of_getLsbD_eq
    intro j _
    rw [BitVec.getLsbD_and, getLsbD_one_shiftLeft, BitVec.getLsbD_zero]
    by_cases hj : j = i
    · rw [hj, (Bool.not_eq_true' _).mp h, Bool.false_and]
    · simp [hj]

theorem getLsbD_setBit (block : BitBlock) (i j : Nat) :
    (setBit block i).getLsbD j = (block.getLsbD j || decide (j = i ∧ i < 64)) := by
  rw [setBit, BitVec.getLsbD_or, getLsbD_one_shiftLeft]

theorem getLsbD_clearBit (block : BitBlock) {i : Nat} (hi : i < 64) (j : Nat) :
    (clearBit block i).getLsbD j = (block.getLsbD j && decide (j ≠ i)) := by
  rw [clearBit, BitVec.getLsbD_and, BitVec.getLsbD_not, getLsbD_one_shiftLeft]
  by_cases hj : j < 64
  · simp [hj, hi]
  · simp [BitVec.getLsbD_of_ge block j (by omega)]

/-- Writing one bit, whichever way. -/
def writeBit (block : BitBlock) (bitIndex : Nat) (value : Bool) : BitBlock :=
  if value then setBit block bitIndex else clearBit block bitIndex

theorem getLsbD_writeBit (block : BitBlock) {i : Nat} (hi : i < 64) (v : Bool) (j : Nat) :
    (writeBit block i v).getLsbD j = if j = i then v else block.getLsbD j := by
  cases v
  · simp only [writeBit, Bool.false_eq_true, if_false, getLsbD_clearBit block hi]
    by_cases hj : j = i <;> simp [hj]
  · simp only [writeBit, if_true, getLsbD_setBit]
    by_cases hj : j = i <;> simp [hj, hi]

theorem getLsbD_maskEnd {e : Nat} (he : e < 64) (j : Nat) :
    (1#64 <<< (e + 1) - 1#64).getLsbD j = decide (j ≤ e) := by
  have htoNat : (1#64 <<< (e + 1) - 1#64).toNat = 2 ^ (e + 1) - 1 := by
    rcases Nat.lt_or_ge e 63 with h | h
    · have hpow : 2 ^ (e + 1) < 2 ^ 64 := Nat.pow_lt_pow_right (by decide) (by omega)
      have hpos : 0 < 2 ^ (e + 1) := Nat.two_pow_pos _
      rw [BitVec.toNat_sub, BitVec.toNat_shiftLeft, BitVec.toNat_ofNat, Nat.shiftLeft_eq]
      omega
    · obtain rfl : e = 63 := by omega
      decide
  rw [← BitVec.testBit_toNat, htoNat, Nat.testBit_two_pow_sub_one, decide_eq_decide]
  omega

theorem getLsbD_maskBits (block : BitBlock) (s : Nat) {e : Nat} (he : e < 64) (j : Nat) :
    (maskBits block s e).getLsbD j = (block.getLsbD j && decide (s ≤ j ∧ j ≤ e)) := by
  simp only [maskBits, BitVec.getLsbD_and, getLsbD_maskEnd he, BitVec.getLsbD_shiftLeft,
    BitVec.getLsbD_allOnes]
  rw [Bool.eq_iff_iff]
  simp only [Bool.and_eq_true, decide_eq_true_eq, Bool.not_eq_true', decide_eq_false_iff_not]
  constructor
  · rintro ⟨⟨hb, ⟨_, hs⟩, _⟩, hj⟩
    exact ⟨hb, by omega, hj⟩
  · rintro ⟨hb, hs, hj⟩
    exact ⟨⟨hb, ⟨by omega, by omega⟩, by omega⟩, hj⟩

/-! ## The map -/

/-- `usize::div_ceil(BITS_PER_BLOCK)`. -/
def divCeilBlocks (lenBits : Nat) : Nat := (lenBits + 63) / bitsPerBlock

structure VacancyMap where
  blocks : List BitBlock
  lenBits : Nat
  length_blocks : blocks.length = divCeilBlocks lenBits

namespace VacancyMap

def new : VacancyMap := ⟨[], 0, rfl⟩

def len (m : VacancyMap) : Nat := m.lenBits

/-- Bit `i` of the memory, also past the length of the map. -/
def bit (m : VacancyMap) (i : Nat) : Bool :=
  (m.blocks.getD (i / bitsPerBlock) 0#64).getLsbD (i % bitsPerBlock)

/-- `Vec::resize`. -/
def resizeVec {α : Type} (v : List α) (newLen : Nat) (value : α) : List α :=
  v.take newLen ++ List.replicate (newLen - v.length) value

/-- The loop over the fresh bits of the partial block. -/
def fillBits (block : BitBlock) (start stop : Nat) (initialValue : Bool) : BitBlock :=
  (List.range' start (stop - start)).foldl (fun b i => writeBit b i initialValue) block

theorem length_resizeVec {α : Type} (v : List α) (n : Nat) (value : α) :
    (resizeVec v n value).length = n := by
  simp only [resizeVec, List.length_append, List.length_take, List.length_replicate]
  omega

/-- The blocks after growing to `lenBits`. -/
def growBlocks (m : VacancyMap) (lenBits : Nat) (initialValue : Bool) : List BitBlock :=
  let newLenBlocks := divCeilBlocks lenBits
  let oldLenBlocks := divCeilBlocks m.lenBits
  let blocks := resizeVec m.blocks newLenBlocks
    (if initialValue then BitVec.allOnes 64 else 0#64)
  -- The partial block is only looked at when it stays the last one.
  if m.lenBits % bitsPerBlock ≠ 0 ∧ oldLenBlocks = newLenBlocks then
    blocks.modify (oldLenBlocks - 1) fun block =>
      fillBits block (m.lenBits % bitsPerBlock) (lenBits % bitsPerBlock) initialValue
  else blocks

theorem length_growBlocks (m : VacancyMap) (n : Nat) (v : Bool) :
    (m.growBlocks n v).length = divCeilBlocks n := by
  simp only [growBlocks]
  split <;> simp [length_resizeVec]

/-- `resize`. -/
def resize (m : VacancyMap) (lenBits : Nat) (initialValue : Bool) : VacancyMap :=
  if lenBits = m.lenBits then m
  else if hlt : m.lenBits < lenBits then
    ⟨m.growBlocks lenBits initialValue, lenBits, m.length_growBlocks lenBits initialValue⟩
  else
    ⟨m.blocks.take (divCeilBlocks lenBits), lenBits, by
      rw [List.length_take, m.length_blocks]
      simp only [divCeilBlocks, bitsPerBlock]
      omega⟩

/-- `replace_unchecked`: the old bit, or nothing if the index is out of
bounds, which a debug build asserts and a release build must not be asked. -/
def replaceUnchecked (m : VacancyMap) (index : Nat) (value : Bool) :
    Option (Bool × VacancyMap) :=
  if index < m.lenBits then
    let block := m.blocks.getD (index / bitsPerBlock) 0#64
    some (getBit block (index % bitsPerBlock),
      ⟨m.blocks.set (index / bitsPerBlock) (writeBit block (index % bitsPerBlock) value),
        m.lenBits, by rw [List.length_set, m.length_blocks]⟩)
  else none

/-! ### What `resize` does to the bits -/

/-- The leftover bits past the length are all `v`. -/
def Spare (v : Bool) (m : VacancyMap) : Prop :=
  ∀ i, m.lenBits ≤ i → i / bitsPerBlock < m.blocks.length → m.bit i = v

theorem spare_new (v : Bool) : Spare v new := by
  intro i _ hi
  simp [new] at hi

theorem getLsbD_fillBits (block : BitBlock) {start stop : Nat} (hstop : stop ≤ 64) (v : Bool)
    (j : Nat) :
    (fillBits block start stop v).getLsbD j =
      if start ≤ j ∧ j < stop then v else block.getLsbD j := by
  rw [fillBits]
  -- One round writes bit `start` and leaves the loop over the rest.
  induction h : stop - start generalizing start block with
  | zero =>
    rw [List.range'_zero, List.foldl_nil, if_neg (by omega)]
  | succ n ih =>
    rw [List.range'_succ, List.foldl_cons, ih _ (by omega), getLsbD_writeBit block (by omega)]
    by_cases hj : j = start
    · rw [if_neg (by omega), if_pos hj, if_pos (by omega)]
    · rw [if_neg hj]
      exact if_congr (by omega) rfl rfl

/-- The block of an old bit, or a fresh block, before the partial one is
looked at. -/
theorem getD_resizeVec {blocks : List BitBlock} {n : Nat} (hn : blocks.length ≤ n)
    (value : BitBlock) (k : Nat) :
    (resizeVec blocks n value).getD k 0#64 =
      if k < blocks.length then blocks.getD k 0#64 else if k < n then value else 0#64 := by
  rw [resizeVec, List.take_of_length_le hn]
  simp only [List.getD_eq_getElem?_getD]
  by_cases hk : k < blocks.length
  · rw [if_pos hk, List.getElem?_append_left hk]
  · rw [if_neg hk, List.getElem?_append_right (by omega), List.getElem?_replicate]
    by_cases hkn : k < n
    · rw [if_pos hkn, if_pos (by omega), Option.getD_some]
    · rw [if_neg hkn, if_neg (by omega), Option.getD_none]

theorem getD_modify (blocks : List BitBlock) (f : BitBlock → BitBlock) {k : Nat}
    (hk : k < blocks.length) (j : Nat) :
    (blocks.modify k f).getD j 0#64 = if j = k then f (blocks.getD j 0#64)
      else blocks.getD j 0#64 := by
  simp only [List.getD_eq_getElem?_getD, List.getElem?_modify]
  by_cases hj : j = k
  · subst hj
    simp [hk]
  · simp [hj, Ne.symm hj]

/-- Bit `i` of the memory after growing: the fresh blocks hold `v`, the
partial block is filled if it is still the last one, and all else stands. -/
theorem bit_growBlocks (m : VacancyMap) {n : Nat} (hn : m.lenBits < n) (v : Bool) (i : Nat) :
    ((m.growBlocks n v).getD (i / bitsPerBlock) 0#64).getLsbD (i % bitsPerBlock) =
      if i / 64 < m.blocks.length then
        if divCeilBlocks m.lenBits = divCeilBlocks n ∧ m.lenBits ≤ i ∧ i % 64 < n % 64 then v
        else m.bit i
      else if i / 64 < divCeilBlocks n then v else false := by
  have hlen := m.length_blocks
  have hle : m.blocks.length ≤ divCeilBlocks n := by
    rw [hlen]
    simp only [divCeilBlocks, bitsPerBlock]
    omega
  have hbase : ((resizeVec m.blocks (divCeilBlocks n)
      (if v then BitVec.allOnes 64 else 0#64)).getD (i / 64) 0#64).getLsbD (i % 64) =
      if i / 64 < m.blocks.length then m.bit i
      else if i / 64 < divCeilBlocks n then v else false := by
    rw [getD_resizeVec hle]
    by_cases h1 : i / 64 < m.blocks.length
    · rw [if_pos h1, if_pos h1, bit]
    · rw [if_neg h1, if_neg h1]
      by_cases h2 : i / 64 < divCeilBlocks n
      · rw [if_pos h2, if_pos h2]
        cases v
        · simp
        · rw [if_pos rfl, BitVec.getLsbD_allOnes, decide_eq_true (Nat.mod_lt _ (by decide))]
      · rw [if_neg h2, if_neg h2, BitVec.getLsbD_zero]
  simp only [growBlocks]
  by_cases hp : m.lenBits % 64 ≠ 0 ∧ divCeilBlocks m.lenBits = divCeilBlocks n
  · rw [if_pos hp, getD_modify _ _ (by
      rw [length_resizeVec]; simp only [divCeilBlocks, bitsPerBlock] at *; omega)]
    by_cases hk : i / 64 = divCeilBlocks m.lenBits - 1
    · rw [if_pos hk, getLsbD_fillBits _ (Nat.mod_lt _ (by decide)).le, hbase]
      have hin : i / 64 < m.blocks.length := by
        simp only [divCeilBlocks, bitsPerBlock] at *
        omega
      rw [if_pos hin, if_pos hin]
      refine if_congr ?_ rfl rfl
      simp only [divCeilBlocks, bitsPerBlock] at *
      omega
    · rw [if_neg hk, hbase]
      refine if_ctx_congr Iff.rfl (fun hin => ?_) (fun _ => rfl)
      rw [if_neg]
      simp only [divCeilBlocks, bitsPerBlock] at *
      omega
  · rw [if_neg hp, hbase]
    refine if_ctx_congr Iff.rfl (fun hin => ?_) (fun _ => rfl)
    rw [if_neg]
    simp only [divCeilBlocks, bitsPerBlock] at *
    omega

@[simp] theorem len_resize (m : VacancyMap) (n : Nat) (v : Bool) : (m.resize n v).len = n := by
  rw [resize]
  split
  · rename_i h
    exact h.symm
  · split <;> rfl

/-- Growing and shrinking leave the bits below both lengths alone. -/
theorem bit_resize (m : VacancyMap) {n i : Nat} (v : Bool) (hi : i < m.lenBits) (hn : i < n) :
    (m.resize n v).bit i = m.bit i := by
  have hlen := m.length_blocks
  simp only [divCeilBlocks, bitsPerBlock] at hlen
  rw [resize]
  split
  · rfl
  · split
    next hlt =>
      rw [bit, bit_growBlocks m hlt, if_pos (by omega), if_neg (by omega)]
    next =>
      simp only [bit, bitsPerBlock, List.getD_eq_getElem?_getD, divCeilBlocks]
      rw [List.getElem?_take_of_lt (by omega)]

/-- The bits that growing by `v` adds are `v`, but for the rest of the last
block if the map outgrows it: these are left as they are. -/
theorem bit_resize_new (m : VacancyMap) {n i : Nat} (v : Bool) (hi : m.lenBits ≤ i) (hn : i < n) :
    (m.resize n v).bit i =
      if i / 64 < m.blocks.length ∧ m.blocks.length * 64 ≤ n then m.bit i else v := by
  have hlen := m.length_blocks
  simp only [divCeilBlocks, bitsPerBlock] at hlen
  rw [resize, if_neg (by omega), dif_pos (by omega), bit, bit_growBlocks m (by omega)]
  by_cases hin : i / 64 < m.blocks.length
  · rw [if_pos hin]
    split
    next h =>
      simp only [divCeilBlocks, bitsPerBlock] at h
      rw [if_neg]
      omega
    next h =>
      simp only [divCeilBlocks, bitsPerBlock] at h
      rw [if_pos]
      omega
  · rw [if_neg hin, if_pos, if_neg fun h => hin h.1]
    simp only [divCeilBlocks, bitsPerBlock]
    omega

/-- With spare bits `v`, the bits that growing by `v` adds are `v`. -/
theorem bit_resize_fresh {m : VacancyMap} {v : Bool} (hs : Spare v m) {n i : Nat}
    (hi : m.lenBits ≤ i) (hn : i < n) : (m.resize n v).bit i = v := by
  rw [bit_resize_new m v hi hn]
  split
  next hin => exact hs i hi hin.1
  next => rfl

/-- Growing by `v` keeps the spare bits `v`. -/
theorem spare_grow {m : VacancyMap} {v : Bool} (hs : Spare v m) {n : Nat} (hn : m.lenBits ≤ n) :
    Spare v (m.resize n v) := by
  by_cases heq : n = m.lenBits
  · rw [resize, if_pos heq]
    exact hs
  · intro i hi hin
    rw [resize, if_neg heq, dif_pos (by omega)] at hi hin ⊢
    dsimp only at hi hin
    rw [bit, bit_growBlocks m (by omega)]
    rw [length_growBlocks] at hin
    by_cases hold : i / 64 < m.blocks.length
    · rw [if_pos hold]
      split
      · rfl
      · exact hs i (by omega) hold
    · rw [if_neg hold, if_pos hin]

/-- Shrinking keeps the spare bits `v` if the bits it gives up are `v`. -/
theorem spare_shrink {m : VacancyMap} {v : Bool} (hs : Spare v m) {n : Nat} (hn : n < m.lenBits)
    (hcut : ∀ i, n ≤ i → i < m.lenBits → m.bit i = v) (w : Bool) :
    Spare v (m.resize n w) := by
  intro i hi hin
  rw [resize, if_neg (by omega), dif_neg (by omega)] at hi hin ⊢
  simp only [List.length_take] at hin
  have hbit : m.bit i = v := by
    by_cases hlt : i < m.lenBits
    · exact hcut i hi hlt
    · exact hs i (by omega) (by omega)
  simp only [bit, List.getD_eq_getElem?_getD] at hbit ⊢
  rw [List.getElem?_take_of_lt (by omega)]
  exact hbit

/-! ### `replace_unchecked` -/

/-- An index in bounds is answered with its old bit, and only that bit
changes. -/
theorem replaceUnchecked_eq (m : VacancyMap) {index : Nat} (h : index < m.lenBits) (v : Bool) :
    ∃ m', m.replaceUnchecked index v = some (m.bit index, m') ∧ m'.lenBits = m.lenBits ∧
      m'.blocks.length = m.blocks.length ∧
      ∀ i, m'.bit i = if i = index then v else m.bit i := by
  have hlen := m.length_blocks
  simp only [divCeilBlocks, bitsPerBlock] at hlen
  rw [replaceUnchecked, if_pos h]
  dsimp only
  rw [getBit_eq]
  refine ⟨_, rfl, rfl, List.length_set, fun i => ?_⟩
  simp only [bit, bitsPerBlock, List.getD_eq_getElem?_getD, List.getElem?_set]
  by_cases hb : index / 64 = i / 64
  · rw [if_pos hb, if_pos (by omega), Option.getD_some,
      getLsbD_writeBit _ (Nat.mod_lt _ (by decide)), hb]
    refine if_congr ?_ rfl rfl
    omega
  · rw [if_neg hb, if_neg (by rintro rfl; exact hb rfl)]

end VacancyMap

/-- `std::ops::Bound<usize>`. -/
inductive Bound
  | included (index : Nat)
  | excluded (index : Nat)
  | unbounded

/-- The number of values of a `usize`. -/
abbrev usizeSize : Nat := 2 ^ 64

/-- `usize::checked_add`. -/
def checkedAdd (a b : Nat) : Option Nat := if a + b < usizeSize then some (a + b) else none

/-- A view of a range of bits, which lies inside its map. -/
structure VacancyMapSlice where
  map : VacancyMap
  startBitIndex : Nat
  endBitIndex : Nat
  start_le : startBitIndex ≤ endBitIndex
  end_le : endBitIndex ≤ map.lenBits

/-- `get`. -/
def VacancyMap.get (m : VacancyMap) (startBound endBound : Bound) : Option VacancyMapSlice := do
  let start ← match startBound with
    | .included s => some s
    | .excluded s => checkedAdd s 1
    | .unbounded => some 0
  let stop ← match endBound with
    | .included e => checkedAdd e 1
    | .excluded e => some e
    | .unbounded => some m.lenBits
  if h : start ≤ stop ∧ stop ≤ m.lenBits then
    some ⟨m, start, stop, h.1, h.2⟩
  else none

theorem VacancyMap.get_from (m : VacancyMap) {start : Nat} (h : start ≤ m.lenBits) :
    m.get (.included start) .unbounded = some ⟨m, start, m.lenBits, h, le_rfl⟩ := by
  simp [VacancyMap.get, h]

namespace VacancyMapSlice

/-- The loop of `first_one`. Each round scans at least one bit, so
`bitsRemaining` rounds are enough; `rounds` counts them. -/
def scan (slice : VacancyMapSlice) : Nat → Nat → Nat → Option Nat
  | 0, _, _ => none
  | rounds + 1, startBitIndex, bitsRemaining =>
    if bitsRemaining = 0 then none
    else
      let blockIndex := startBitIndex / bitsPerBlock
      let startIndexInBlock := startBitIndex % bitsPerBlock
      let endIndexInBlockExclusive := min bitsPerBlock (startIndexInBlock + bitsRemaining)
      let block := slice.map.blocks.getD blockIndex 0#64
      let maskedBlock := maskBits block startIndexInBlock (endIndexInBlockExclusive - 1)
      if maskedBlock ≠ 0#64 then
        let oneIndexInBlock := maskedBlock.ctz.toNat
        let absolutePos := blockIndex * bitsPerBlock + oneIndexInBlock
        some (absolutePos - slice.startBitIndex)
      else
        let bitsScannedInThisBlock := endIndexInBlockExclusive - startIndexInBlock
        slice.scan rounds (startBitIndex + bitsScannedInThisBlock)
          (bitsRemaining - bitsScannedInThisBlock)

/-- `first_one`: relative to the start of the slice. -/
def firstOne (slice : VacancyMapSlice) : Option Nat :=
  let bitsRemaining := slice.endBitIndex - slice.startBitIndex
  slice.scan bitsRemaining slice.startBitIndex bitsRemaining

/-! ### What `first_one` finds -/

/-- The masked block of a round shows the bits of the map in its range. -/
theorem getLsbD_maskedBlock (m : VacancyMap) {start remaining : Nat} (hr : remaining ≠ 0)
    {j : Nat} (hj : j < 64) :
    (maskBits (m.blocks.getD (start / 64) 0#64) (start % 64)
      (min 64 (start % 64 + remaining) - 1)).getLsbD j =
      (m.bit (start / 64 * 64 + j) &&
        decide (start ≤ start / 64 * 64 + j ∧ start / 64 * 64 + j < start + remaining)) := by
  have hdiv : (start / 64 * 64 + j) / bitsPerBlock = start / 64 := by
    simp only [bitsPerBlock]
    omega
  have hmod : (start / 64 * 64 + j) % bitsPerBlock = j := by
    simp only [bitsPerBlock]
    omega
  rw [getLsbD_maskBits _ _ (by omega), VacancyMap.bit, hdiv, hmod]
  congr 1
  rw [decide_eq_decide]
  omega

/-- Searching on from `start` with enough rounds: nothing, if no bit in the
rest of the slice is set, and otherwise the least one. -/
theorem scan_spec (slice : VacancyMapSlice) (rounds : Nat) {start remaining : Nat}
    (hr : remaining ≤ rounds) (hs : slice.startBitIndex ≤ start) :
    match slice.scan rounds start remaining with
    | none => ∀ i, start ≤ i → i < start + remaining → slice.map.bit i = false
    | some k => slice.startBitIndex + k < start + remaining ∧
        slice.map.bit (slice.startBitIndex + k) = true ∧
        ∀ i, start ≤ i → i < slice.startBitIndex + k → slice.map.bit i = false := by
  induction rounds generalizing start remaining with
  | zero =>
    intro i _ hi
    omega
  | succ rounds ih =>
    rw [scan]
    by_cases h0 : remaining = 0
    · rw [if_pos h0]
      intro i _ hi
      omega
    · rw [if_neg h0]
      dsimp only [bitsPerBlock]
      have hbits : ∀ j < 64, _ := fun j hj =>
        @getLsbD_maskedBlock slice.map start remaining h0 j hj
      set masked := maskBits (slice.map.blocks.getD (start / 64) 0#64) (start % 64)
        (min 64 (start % 64 + remaining) - 1)
      by_cases hz : masked = 0#64
      · -- This round's bits are clear; the rest of the slice is the next round's.
        rw [if_neg (by simp [hz])]
        set scanned := min 64 (start % 64 + remaining) - start % 64 with hscanned
        have hclear : ∀ i, start ≤ i → i < start + scanned → slice.map.bit i = false := by
          intro i h1 h2
          have h := hbits (i - start / 64 * 64) (by omega)
          rw [hz, BitVec.getLsbD_zero, decide_eq_true (by omega), Bool.and_true,
            show start / 64 * 64 + (i - start / 64 * 64) = i by omega] at h
          exact h.symm
        have hrec := @ih (start + scanned) (remaining - scanned) (by omega) (by omega)
        rw [show start + scanned + (remaining - scanned) = start + remaining by omega] at hrec
        have hjoin : ∀ {stop},
            (∀ i, start + scanned ≤ i → i < stop → slice.map.bit i = false) →
            ∀ i, start ≤ i → i < stop → slice.map.bit i = false := by
          intro stop hrest i h1 h2
          rcases Nat.lt_or_ge i (start + scanned) with hi | hi
          · exact hclear i h1 hi
          · exact hrest i hi h2
        split at hrec
        · exact hjoin hrec
        · exact ⟨hrec.1, hrec.2.1, hjoin hrec.2.2⟩
      · -- The lowest set bit of the masked block is the answer.
        rw [if_pos hz]
        have hlt : masked.ctz.toNat < 64 := by
          have h := BitVec.ctz_lt_iff_ne_zero.mpr hz
          rw [BitVec.lt_def] at h
          exact h
        have hone := BitVec.getLsbD_true_ctz_of_ne_zero hz
        rw [hbits _ hlt, Bool.and_eq_true, decide_eq_true_eq] at hone
        obtain ⟨hset, hlow, hhigh⟩ := hone
        have hpos : slice.startBitIndex + (start / 64 * 64 + masked.ctz.toNat -
            slice.startBitIndex) = start / 64 * 64 + masked.ctz.toNat := by omega
        dsimp only
        rw [hpos]
        refine ⟨hhigh, hset, fun i h1 h2 => ?_⟩
        have h := hbits (i - start / 64 * 64) (by omega)
        rw [BitVec.getLsbD_false_of_lt_ctz (by omega), decide_eq_true (by omega), Bool.and_true,
          show start / 64 * 64 + (i - start / 64 * 64) = i by omega] at h
        exact h.symm

theorem firstOne_eq_none {slice : VacancyMapSlice} (h : slice.firstOne = none) {i : Nat}
    (h1 : slice.startBitIndex ≤ i) (h2 : i < slice.endBitIndex) : slice.map.bit i = false := by
  have hspec := slice.scan_spec _ (le_refl (slice.endBitIndex - slice.startBitIndex)) (le_refl _)
  rw [firstOne] at h
  rw [h] at hspec
  exact hspec i h1 (by omega)

/-- The bit found is the first of the slice. -/
theorem firstOne_eq_some {slice : VacancyMapSlice} {k : Nat} (h : slice.firstOne = some k) :
    slice.startBitIndex + k < slice.endBitIndex ∧
      slice.map.bit (slice.startBitIndex + k) = true ∧
      ∀ i, slice.startBitIndex ≤ i → i < slice.startBitIndex + k →
        slice.map.bit i = false := by
  have hspec := slice.scan_spec _ (le_refl (slice.endBitIndex - slice.startBitIndex)) (le_refl _)
  rw [firstOne] at h
  rw [h] at hspec
  have hle := slice.start_le
  exact ⟨by omega, hspec.2.1, hspec.2.2⟩

/-- Rounds that are left over change nothing: the scan ends by itself. -/
theorem scan_rounds (slice : VacancyMapSlice) {rounds rounds' : Nat} {start remaining : Nat}
    (h : remaining ≤ rounds) (h' : remaining ≤ rounds') :
    slice.scan rounds start remaining = slice.scan rounds' start remaining := by
  induction rounds generalizing rounds' start remaining with
  | zero =>
    obtain rfl : remaining = 0 := by omega
    cases rounds' with
    | zero => rfl
    | succ rounds' => exact (if_pos rfl).symm
  | succ rounds ih =>
    cases rounds' with
    | zero =>
      obtain rfl : remaining = 0 := by omega
      exact if_pos rfl
    | succ rounds' =>
      rw [scan, scan]
      by_cases h0 : remaining = 0
      · rw [if_pos h0, if_pos h0]
      · rw [if_neg h0, if_neg h0]
        dsimp only [bitsPerBlock]
        -- every round scans at least one bit
        split
        · rfl
        · exact ih (by omega) (by omega)

/-- What is set in the range of a slice, counted from its start. -/
def ones (slice : VacancyMapSlice) : Set Nat :=
  {k | slice.startBitIndex + k < slice.endBitIndex ∧
    slice.map.bit (slice.startBitIndex + k) = true}

theorem firstOne_isLeast {slice : VacancyMapSlice} {k : Nat} (h : slice.firstOne = some k) :
    IsLeast slice.ones k := by
  obtain ⟨hlt, hset, hclear⟩ := firstOne_eq_some h
  refine ⟨⟨hlt, hset⟩, fun j hj => ?_⟩
  by_contra hjk
  have hfalse := hclear (slice.startBitIndex + j) (by omega) (by omega)
  rw [hj.2] at hfalse
  cases hfalse

/-- **`first_one` finds the least set bit of its range**, whatever is outside
of it, and reads no block that the map does not have. -/
theorem firstOne_spec (slice : VacancyMapSlice) :
    (∀ k, slice.firstOne = some k ↔ IsLeast slice.ones k) ∧
      (slice.firstOne = none ↔ slice.ones = ∅) ∧
      (∀ other : VacancyMapSlice, other.startBitIndex = slice.startBitIndex →
        other.endBitIndex = slice.endBitIndex →
        (∀ i, slice.startBitIndex ≤ i → i < slice.endBitIndex →
          other.map.bit i = slice.map.bit i) → other.firstOne = slice.firstOne) ∧
      (∀ rounds, slice.endBitIndex - slice.startBitIndex ≤ rounds →
        slice.scan rounds slice.startBitIndex (slice.endBitIndex - slice.startBitIndex) =
          slice.firstOne) ∧
      ∀ i < slice.endBitIndex, i / bitsPerBlock < slice.map.blocks.length := by
  have hsome : ∀ (slice : VacancyMapSlice) k, slice.firstOne = some k ↔ IsLeast slice.ones k := by
    intro slice k
    refine ⟨firstOne_isLeast, fun hleast => ?_⟩
    cases hone : slice.firstOne with
    | some j => rw [(firstOne_isLeast hone).unique hleast]
    | none =>
      have hfalse := firstOne_eq_none hone (Nat.le_add_right _ k) hleast.1.1
      rw [hleast.1.2] at hfalse
      cases hfalse
  have hnone : ∀ slice : VacancyMapSlice, slice.firstOne = none ↔ slice.ones = ∅ := by
    intro slice
    rw [Set.eq_empty_iff_forall_notMem]
    constructor
    · intro hone k hk
      have hfalse := firstOne_eq_none hone (Nat.le_add_right _ k) hk.1
      rw [hk.2] at hfalse
      cases hfalse
    · intro hempty
      cases hone : slice.firstOne with
      | none => rfl
      | some k => exact absurd (firstOne_isLeast hone).1 (hempty k)
  refine ⟨hsome slice, hnone slice, fun other hstart hend hbits => ?_, fun rounds hrounds => ?_,
    fun i hi => ?_⟩
  · have hones : other.ones = slice.ones := by
      ext k
      simp only [ones, hstart, hend, Set.mem_ofPred_eq]
      refine and_congr_right fun hk => ?_
      rw [hbits _ (Nat.le_add_right _ k) hk]
    cases hone : slice.firstOne with
    | none => rw [hnone, hones, ← hnone, hone]
    | some k => rw [hsome, hones, ← hsome, hone]
  · exact slice.scan_rounds hrounds (le_refl _)
  · have hlen := slice.map.length_blocks
    have hle := slice.end_le
    simp only [divCeilBlocks, bitsPerBlock] at *
    omega

end VacancyMapSlice

end Folo.InfinityPool
