import Folo.InfinityPool.VacancyTracker
import Folo.Lib.Machine

/-!
# Runs of a vacancy map and of a vacancy tracker

Any sequence of calls on either of the two, next to the list of booleans that
the calls mean. `Refines` and `Shows` say that map and tracker agree with the
list.

One call breaks the agreement. `resize` truncates the blocks but not the bits
of the last one, and fills a partial block only if the map still ends in it.
So a map that has been shrunk inside a block and is then grown to the end of
this block or beyond shows the bits it was shrunk by, and not the new ones.
`Covers` is the condition on a call that excludes this, and `refines_iff` says
that it excludes nothing else.
-/

namespace Folo.InfinityPool

open Folo.Lib

/-- Growing to `lenBits` by `value` finds only bits `value` in the rest of the
last block, or does not get past this block. -/
def VacancyMap.GrowsOver (m : VacancyMap) (lenBits : Nat) (value : Bool) : Prop :=
  m.lenBits < lenBits → m.blocks.length * bitsPerBlock ≤ lenBits → m.Spare value

instance (v : Bool) (m : VacancyMap) : Decidable (m.Spare v) :=
  decidable_of_iff
    (∀ i < m.blocks.length * bitsPerBlock, m.lenBits ≤ i → m.bit i = v) <| by
    simp only [VacancyMap.Spare, bitsPerBlock]
    exact ⟨fun h i hi hin => h i (by omega) hi, fun h i hin hi => h i hi (by omega)⟩

instance (m : VacancyMap) (lenBits : Nat) (value : Bool) :
    Decidable (m.GrowsOver lenBits value) :=
  inferInstanceAs (Decidable
    (m.lenBits < lenBits → m.blocks.length * bitsPerBlock ≤ lenBits → m.Spare value))

/-! ## The map -/

/-- The calls that change a map. -/
inductive MapOp
  | resize (lenBits : Nat) (initialValue : Bool)
  | replace (index : Nat) (value : Bool)

namespace MapOp

/-- A replacement out of bounds is no valid call. -/
def run : MapOp → VacancyMap → Option VacancyMap
  | resize lenBits initialValue, m => some (m.resize lenBits initialValue)
  | replace index value, m => (m.replaceUnchecked index value).map Prod.snd

/-- What the call does to a list of booleans. -/
def onList : MapOp → List Bool → List Bool
  | resize lenBits initialValue, l =>
    l.take lenBits ++ List.replicate (lenBits - l.length) initialValue
  | replace index value, l => l.set index value

/-- The call does not turn leftover bits into bits of the map. -/
def Covers (m : VacancyMap) : MapOp → Prop
  | resize lenBits initialValue => m.GrowsOver lenBits initialValue
  | replace _ _ => True

instance (m : VacancyMap) : (op : MapOp) → Decidable (op.Covers m)
  | resize lenBits initialValue => inferInstanceAs (Decidable (m.GrowsOver lenBits initialValue))
  | replace _ _ => inferInstanceAs (Decidable True)

end MapOp

/-- A map and any calls on it. -/
def vacancyMap : Machine VacancyMap MapOp := ⟨VacancyMap.new, fun m op => op.run m⟩

/-- The list beside the map. -/
def plainList : Machine.Monitor VacancyMap MapOp (List Bool) := ⟨[], fun l _ op _ => op.onList l⟩

namespace VacancyMap

/-- Bit `i`, read through `get`. -/
def read (m : VacancyMap) (i : Nat) : Option Bool :=
  (m.get (.included i) (.excluded (i + 1))).map fun slice => slice.firstOne.isSome

/-- The map shows the list: in its length, in every bit read and in every bit
that a replacement answers with. -/
structure Refines (l : List Bool) (m : VacancyMap) : Prop where
  len : m.len = l.length
  read : ∀ i, m.read i = l[i]?
  old : ∀ i v, (m.replaceUnchecked i v).map Prod.fst = l[i]?

theorem read_eq (m : VacancyMap) (i : Nat) :
    m.read i = if i < m.lenBits then some (m.bit i) else none := by
  simp only [read, get, Option.bind_some, Option.bind_eq_bind]
  by_cases hi : i < m.lenBits
  · rw [if_pos hi, dif_pos ⟨Nat.le_succ i, hi⟩, Option.map_some]
    refine congrArg some ?_
    cases hone : VacancyMapSlice.firstOne ⟨m, i, i + 1, Nat.le_succ i, hi⟩ with
    | none => exact (VacancyMapSlice.firstOne_eq_none hone le_rfl (Nat.lt_succ_self i)).symm
    | some k =>
      obtain ⟨hk, hset, -⟩ := VacancyMapSlice.firstOne_eq_some hone
      dsimp only at hk hset
      obtain rfl : k = 0 := by omega
      exact hset.symm
  · rw [if_neg hi, dif_neg fun h => hi h.2, Option.map_none]

theorem map_fst_replaceUnchecked (m : VacancyMap) (i : Nat) (v : Bool) :
    (m.replaceUnchecked i v).map Prod.fst = m.read i := by
  rw [read_eq]
  by_cases hi : i < m.lenBits
  · obtain ⟨m', hrep, -⟩ := m.replaceUnchecked_eq hi v
    rw [hrep, if_pos hi, Option.map_some]
  · rw [replaceUnchecked, if_neg hi, if_neg hi, Option.map_none]

/-- Equal lengths and equal bits are all there is to show. -/
theorem refines_iff_bits {l : List Bool} {m : VacancyMap} :
    m.Refines l ↔ m.lenBits = l.length ∧ ∀ i b, l[i]? = some b → m.bit i = b := by
  constructor
  · intro h
    refine ⟨h.len, fun i b hb => ?_⟩
    have hread := h.read i
    have hlt := (List.getElem?_eq_some_iff.mp hb).1
    have hlen : m.lenBits = l.length := h.len
    rw [read_eq, if_pos (by omega), hb] at hread
    exact Option.some.inj hread
  · rintro ⟨hlen, hbit⟩
    have hread : ∀ i, m.read i = l[i]? := by
      intro i
      rw [read_eq]
      by_cases hi : i < m.lenBits
      · have hget := List.getElem?_eq_getElem (show i < l.length by omega)
        rw [if_pos hi, hget, hbit i _ hget]
      · rw [if_neg hi, List.getElem?_eq_none (by omega)]
    exact ⟨hlen, hread, fun i v => (m.map_fst_replaceUnchecked i v).trans (hread i)⟩

theorem refines_new : new.Refines [] :=
  refines_iff_bits.mpr ⟨rfl, fun i b hb => by simp at hb⟩

/-- A replacement keeps the agreement. -/
theorem Refines.replace {l : List Bool} {m m' : VacancyMap} (h : m.Refines l) {i : Nat} {v : Bool}
    (hrun : (MapOp.replace i v).run m = some m') : m'.Refines (l.set i v) := by
  obtain ⟨hlen, hbit⟩ := refines_iff_bits.mp h
  have hi : i < m.lenBits := by
    by_contra hge
    rw [MapOp.run, replaceUnchecked, if_neg hge] at hrun
    cases hrun
  obtain ⟨n, hrep, hlen', -, hbit'⟩ := m.replaceUnchecked_eq hi v
  rw [MapOp.run, hrep] at hrun
  obtain rfl : n = m' := Option.some.inj hrun
  refine refines_iff_bits.mpr ⟨by rw [hlen', hlen, List.length_set], fun j b hb => ?_⟩
  rw [List.getElem?_set] at hb
  rw [hbit']
  by_cases hj : i = j
  · rw [if_pos hj, if_pos (by omega)] at hb
    rw [if_pos hj.symm]
    exact Option.some.inj hb
  · rw [if_neg hj] at hb
    rw [if_neg (Ne.symm hj)]
    exact hbit j b hb

/-- A resized map shows the resized list exactly if the new bits are. -/
theorem Refines.resize_iff {l : List Bool} {m : VacancyMap} (h : m.Refines l) (n : Nat)
    (v : Bool) : (m.resize n v).Refines ((MapOp.resize n v).onList l) ↔
      ∀ i, m.lenBits ≤ i → i < n → (m.resize n v).bit i = v := by
  obtain ⟨hlen, hbit⟩ := refines_iff_bits.mp h
  have hget : ∀ i, ((MapOp.resize n v).onList l)[i]? =
      if i < n then if i < l.length then l[i]? else some v else none := by
    intro i
    rw [MapOp.onList]
    by_cases hlt : i < min n l.length
    · rw [List.getElem?_append_left (by rwa [List.length_take]),
        List.getElem?_take_of_lt (by omega), if_pos (by omega), if_pos (by omega)]
    · rw [List.getElem?_append_right (by rw [List.length_take]; omega), List.length_take,
        List.getElem?_replicate]
      by_cases hn : i < n
      · rw [if_pos (by omega), if_pos hn, if_neg (by omega)]
      · rw [if_neg (by omega), if_neg hn]
  have hlist : ((MapOp.resize n v).onList l).length = n := by
    simp only [MapOp.onList, List.length_append, List.length_take, List.length_replicate]
    omega
  rw [refines_iff_bits]
  constructor
  · rintro ⟨-, hbits⟩ i hi hn
    refine hbits i v ?_
    rw [hget, if_pos hn, if_neg (by omega)]
  · intro hfresh
    refine ⟨(m.len_resize n v).trans hlist.symm, fun i b hb => ?_⟩
    rw [hget] at hb
    split at hb
    next hn =>
      split at hb
      next hi => rw [m.bit_resize v (by omega) hn, hbit i b hb]
      next hi => rw [hfresh i (by omega) hn, Option.some.inj hb]
    next => cases hb

/-- The new bits are `v` exactly if no leftover bit shows that is not. -/
theorem bit_resize_new_iff (m : VacancyMap) (n : Nat) (v : Bool) :
    (∀ i, m.lenBits ≤ i → i < n → (m.resize n v).bit i = v) ↔ m.GrowsOver n v := by
  have hlen := m.length_blocks
  simp only [divCeilBlocks, bitsPerBlock] at hlen
  constructor
  · intro hfresh hgrow hblocks i hi hin
    simp only [bitsPerBlock] at hblocks hin
    have hv := hfresh i hi (by omega)
    rw [m.bit_resize_new v hi (by omega), if_pos ⟨hin, hblocks⟩] at hv
    exact hv
  · intro hcov i hi hn
    rw [m.bit_resize_new v hi hn]
    split
    next hin => exact hcov (by omega) hin.2 i hi hin.1
    next => rfl

/-- One call keeps the agreement if and only if it covers. -/
theorem Refines.run_iff {l : List Bool} {m m' : VacancyMap} (h : m.Refines l) {op : MapOp}
    (hrun : op.run m = some m') : m'.Refines (op.onList l) ↔ op.Covers m := by
  cases op with
  | resize n v =>
    obtain rfl : m.resize n v = m' := Option.some.inj hrun
    exact (h.resize_iff n v).trans (m.bit_resize_new_iff n v)
  | replace i v => exact ⟨fun _ => trivial, fun _ => h.replace hrun⟩

/-- **A vacancy map is a list of booleans** after any calls that cover, and
the first call that does not is where the two part. -/
theorem refines_list {q : VacancyMap × List Bool}
    (h : (vacancyMap.observe plainList).Reach (fun q op => op.Covers q.1) q) :
    q.1.Refines q.2 ∧ ∀ (op : MapOp) (m' : VacancyMap), op.run q.1 = some m' →
      (m'.Refines (op.onList q.2) ↔ op.Covers q.1) := by
  have hrefines : q.1.Refines q.2 := by
    refine h.invariant (I := fun q => q.1.Refines q.2) refines_new ?_
    intro q op q' _ hinv hcov hnext
    obtain ⟨hrun, hlist⟩ := Machine.observe_next.mp hnext
    rw [hlist]
    exact (hinv.run_iff hrun).mpr hcov
  exact ⟨hrefines, fun op m' hrun => hrefines.run_iff hrun⟩

/-- A map shrunk from ten bits to five, and then grown beyond its block by the
bits that it was shrunk by. -/
theorem refines_list_regrown :
    ∃ q, (vacancyMap.observe plainList).run
        [.resize 10 true, .replace 3 false, .resize 5 true, .resize 70 true] = some q ∧
      q.2.length = 70 ∧ q.1.Refines q.2 := by
  have hrun : ∃ q, ((vacancyMap.observe plainList).restrict fun q op => op.Covers q.1).run
      [.resize 10 true, .replace 3 false, .resize 5 true, .resize 70 true] = some q ∧
      q.2.length = 70 := ⟨_, rfl, rfl⟩
  obtain ⟨q, hq, hlen⟩ := hrun
  exact ⟨q, Machine.run_of_run_restrict hq, hlen,
    (refines_list (Machine.reach_of_run_restrict hq)).1⟩

/-- A bit set before the map was shrunk comes back in place of the new bit. -/
theorem not_refines_list : ∃ q, (vacancyMap.observe plainList).run
    [.resize 2 true, .resize 1 true, .resize 64 false] = some q ∧
      q.2[1]? = some false ∧ q.1.read 1 = some true :=
  ⟨_, rfl, by decide, by decide⟩

end VacancyMap

/-! ## The tracker -/

/-- The calls that change a tracker. -/
inductive TrackerOp
  | slabCount (count : Nat)
  | slabStatus (slabIndex : Nat) (hasVacancy : Bool)

namespace TrackerOp

/-- A status out of bounds and a count that stays the same are no valid calls. -/
def run : TrackerOp → VacancyTracker → Option VacancyTracker
  | slabCount count, t => t.updateSlabCount count
  | slabStatus slabIndex hasVacancy, t => t.updateSlabStatusRelease slabIndex hasVacancy

/-- The statuses after the call: an added slab is vacant, and what is removed
is forgotten. -/
def onList : TrackerOp → List Bool → List Bool
  | slabCount count, vacant => vacant.take count ++ List.replicate (count - vacant.length) true
  | slabStatus slabIndex hasVacancy, vacant => vacant.set slabIndex hasVacancy

/-- The call adds no slab whose bit is a leftover of a removed one that was
full. -/
def Covers (t : VacancyTracker) : TrackerOp → Prop
  | slabCount count => t.hasVacancy.GrowsOver count true
  | slabStatus _ _ => True

instance (t : VacancyTracker) : (op : TrackerOp) → Decidable (op.Covers t)
  | slabCount count => inferInstanceAs (Decidable (t.hasVacancy.GrowsOver count true))
  | slabStatus _ _ => inferInstanceAs (Decidable True)

end TrackerOp

/-- A tracker and any calls on it. -/
def vacancyTracker : Machine VacancyTracker TrackerOp :=
  ⟨VacancyTracker.new, fun t op => op.run t⟩

/-- The statuses beside the tracker. -/
def statuses : Machine.Monitor VacancyTracker TrackerOp (List Bool) :=
  ⟨[], fun vacant _ op _ => op.onList vacant⟩

namespace VacancyTracker

/-- A call that covers keeps the agreement. -/
theorem Shows.run {vacant : List Bool} {t t' : VacancyTracker} (h : Shows vacant t)
    {op : TrackerOp} (hcov : op.Covers t) (hrun : op.run t = some t') :
    Shows (op.onList vacant) t' := by
  cases op with
  | slabCount n =>
    have hlen := h.len
    simp only [TrackerOp.run, TrackerOp.onList] at hrun ⊢
    rcases Nat.lt_trichotomy vacant.length n with hn | hn | hn
    · -- Growing: the added bits are set, since the call covers.
      obtain ⟨k, rfl⟩ := Nat.exists_eq_add_of_le hn.le
      obtain ⟨next, heq, hshows⟩ := h.grow (k := k) (by omega) fun i hi hlt =>
        (t.hasVacancy.bit_resize_new_iff _ true).mpr hcov i (by omega) hlt
      rw [heq] at hrun
      rw [← Option.some.inj hrun, List.take_of_length_le (by omega),
        Nat.add_sub_cancel_left]
      exact hshows
    · rw [updateSlabCount, if_pos (by rw [VacancyMap.len, hlen, hn])] at hrun
      cases hrun
    · obtain ⟨next, heq, hshows⟩ := h.shrink hn
      rw [heq] at hrun
      rw [← Option.some.inj hrun, Nat.sub_eq_zero_of_le hn.le, List.replicate_zero,
        List.append_nil]
      exact hshows
  | slabStatus i v =>
    simp only [TrackerOp.run, TrackerOp.onList, updateSlabStatusRelease] at hrun ⊢
    have hi : i < vacant.length := by
      by_contra hge
      rw [VacancyMap.replaceUnchecked, if_neg (by rw [h.len]; exact hge)] at hrun
      cases hrun
    obtain ⟨m', hrep, -, -, -, -, hshows⟩ := h.set hi v
    rw [hrep] at hrun
    rw [← Option.some.inj hrun]
    exact hshows

/-- The vacancy that the tracker shows is the least vacant slab. -/
theorem Shows.nextVacancy_iff {vacant : List Bool} {t : VacancyTracker} (h : Shows vacant t) :
    (∀ i, t.nextVacancy = some i ↔ IsLeast {i : Nat | vacant[i]? = some true} i) ∧
      (t.nextVacancy = none ↔ ∀ i : Nat, vacant[i]? ≠ some true) := by
  have hnext := h.next
  cases hn : t.nextVacancy with
  | none =>
    rw [hn] at hnext
    refine ⟨fun i => ⟨fun hi => (by cases hi), fun hleast => absurd hleast.1 (hnext i)⟩, ?_⟩
    exact iff_of_true rfl hnext
  | some k =>
    rw [hn] at hnext
    have hleast : IsLeast {i : Nat | vacant[i]? = some true} k := by
      refine ⟨hnext.1, fun j hj => ?_⟩
      by_contra hlt
      exact hnext.2 j (by omega) hj
    refine ⟨fun i => ⟨fun hi => ?_, fun hi => congrArg some (hleast.unique hi)⟩, ?_⟩
    · rw [← Option.some.inj hi]
      exact hleast
    · exact iff_of_false (by simp) fun hnone => hnone k hnext.1

/-- **The next vacancy is the least vacant slab**, over any calls of which
none grows the tracker over leftovers of full slabs. -/
theorem nextVacancy_least {q : VacancyTracker × List Bool}
    (hq : (vacancyTracker.observe statuses).Reach (fun q op => op.Covers q.1) q) :
    (∀ i, q.1.nextVacancy = some i ↔ IsLeast {i : Nat | q.2[i]? = some true} i) ∧
      (q.1.nextVacancy = none ↔ ∀ i : Nat, q.2[i]? ≠ some true) := by
  refine Shows.nextVacancy_iff ?_
  refine hq.invariant (I := fun q => Shows q.2 q.1) shows_new ?_
  intro q op q' _ hinv hcov hnext
  obtain ⟨hrun, hlist⟩ := Machine.observe_next.mp hnext
  rw [hlist]
  exact hinv.run hcov hrun

/-- A full slab is removed and comes back as vacant, before the tracker grows
beyond its first block. -/
theorem nextVacancy_least_regrown :
    ∃ q, (vacancyTracker.observe statuses).run
        [.slabCount 3, .slabStatus 0 false, .slabStatus 1 false, .slabCount 1, .slabCount 3,
          .slabCount 100] = some q ∧
      q.1.nextVacancy = some 1 ∧ IsLeast {i : Nat | q.2[i]? = some true} 1 := by
  have hrun : (((vacancyTracker.observe statuses).restrict fun q op => op.Covers q.1).run
      [.slabCount 3, .slabStatus 0 false, .slabStatus 1 false, .slabCount 1, .slabCount 3,
        .slabCount 100]).map (fun q => q.1.nextVacancy) = some (some 1) := by decide +kernel
  obtain ⟨q, hq, hnext⟩ := Option.map_eq_some_iff.mp hrun
  exact ⟨q, Machine.run_of_run_restrict hq, hnext,
    ((nextVacancy_least (Machine.reach_of_run_restrict hq)).1 1).mp hnext⟩

/-- A slab that was full when it was removed comes back as full. -/
theorem not_nextVacancy_least : ∃ q, (vacancyTracker.observe statuses).run
    [.slabCount 2, .slabStatus 1 false, .slabCount 1, .slabCount 64, .slabStatus 0 false] =
      some q ∧
    q.1.nextVacancy = some 2 ∧ q.2[1]? = some true :=
  ⟨_, rfl, by decide +kernel, by decide⟩

end VacancyTracker

end Folo.InfinityPool
