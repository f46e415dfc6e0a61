import Folo.InfinityPool.VacancyMap

/-!
# `VacancyTracker`: which slab has the next vacant slot

The embedding of `vacancy_tracker.rs`. The two updates answer with the new
tracker, or with nothing where a debug assertion of the source fails: an
update that changes nothing, or an index out of bounds.

`Shows vacant t` says that `t` describes the slabs whose vacancies are the
list `vacant`: bit by bit, with the index of the first vacancy cached. It is
kept by every update, but for growing over stale bits of removed slabs.
`Tracks vacant t` says besides that no stale `false` bit was left behind.
Growing appends vacant slabs, shrinking may drop slabs that are vacant, and a
status update sets one entry; none of the three runs into an assertion when
used so.
-/

namespace Folo.InfinityPool

structure VacancyTracker where
  hasVacancy : VacancyMap
  nextVacancy : Option Nat

namespace VacancyTracker

def new : VacancyTracker := ⟨VacancyMap.new, none⟩

/-- `update_slab_count`. -/
def updateSlabCount (t : VacancyTracker) (count : Nat) : Option VacancyTracker :=
  let previousCount := t.hasVacancy.len
  if previousCount = count then none
  else
    let hasVacancy := t.hasVacancy.resize count true
    if previousCount < count then
      -- Added slabs are empty, so the first of them may be the next vacancy.
      match t.nextVacancy with
      | none => some ⟨hasVacancy, some previousCount⟩
      | some nextVacancy => some ⟨hasVacancy, some nextVacancy⟩
    else
      match t.nextVacancy with
      | none => some ⟨hasVacancy, none⟩
      | some nextVacancy =>
        some ⟨hasVacancy, if count ≤ nextVacancy then none else some nextVacancy⟩

/-- `update_slab_status`. -/
def updateSlabStatus (t : VacancyTracker) (slabIndex : Nat) (hasVacancy : Bool) :
    Option VacancyTracker := do
  let (slabPreviouslyHadVacancy, map) ← t.hasVacancy.replaceUnchecked slabIndex hasVacancy
  if hasVacancy = slabPreviouslyHadVacancy then none
  else if hasVacancy then
    match t.nextVacancy with
    | none => some ⟨map, some slabIndex⟩
    | some nextVacancy =>
      some ⟨map, some (if slabIndex < nextVacancy then slabIndex else nextVacancy)⟩
  else if t.nextVacancy = some slabIndex then
    -- A later slab may be vacant, but never an earlier one.
    let remainingRangeStart := slabIndex + 1
    match map.get (.included remainingRangeStart) .unbounded with
    | none => some ⟨map, none⟩
    | some remainingBits =>
      some ⟨map, remainingBits.firstOne.map fun indexInRemaining =>
        remainingRangeStart + indexInRemaining⟩
  else some ⟨map, t.nextVacancy⟩

/-- What `update_slab_status` does once the bit has been replaced. -/
def afterReplace (t : VacancyTracker) (map : VacancyMap) (slabIndex : Nat) (hasVacancy : Bool) :
    VacancyTracker :=
  if hasVacancy then
    match t.nextVacancy with
    | none => ⟨map, some slabIndex⟩
    | some nextVacancy =>
      ⟨map, some (if slabIndex < nextVacancy then slabIndex else nextVacancy)⟩
  else if t.nextVacancy = some slabIndex then
    match map.get (.included (slabIndex + 1)) .unbounded with
    | none => ⟨map, none⟩
    | some remainingBits =>
      ⟨map, remainingBits.firstOne.map fun indexInRemaining => slabIndex + 1 + indexInRemaining⟩
  else ⟨map, t.nextVacancy⟩

/-- `update_slab_status` in a release build, which asserts nothing. -/
def updateSlabStatusRelease (t : VacancyTracker) (slabIndex : Nat) (hasVacancy : Bool) :
    Option VacancyTracker :=
  (t.hasVacancy.replaceUnchecked slabIndex hasVacancy).map fun replaced =>
    t.afterReplace replaced.2 slabIndex hasVacancy

/-- The debug assertion is all that the builds differ in. -/
theorem updateSlabStatus_eq (t : VacancyTracker) (slabIndex : Nat) (hasVacancy : Bool) :
    t.updateSlabStatus slabIndex hasVacancy =
      (t.hasVacancy.replaceUnchecked slabIndex hasVacancy).bind fun replaced =>
        if hasVacancy = replaced.1 then none
        else some (t.afterReplace replaced.2 slabIndex hasVacancy) := by
  unfold updateSlabStatus afterReplace
  cases t.hasVacancy.replaceUnchecked slabIndex hasVacancy with
  | none => rfl
  | some replaced =>
    show (if hasVacancy = replaced.1 then none else _) = if hasVacancy = replaced.1 then none else _
    refine if_congr Iff.rfl rfl ?_
    cases hasVacancy with
    | true =>
      simp only [if_true]
      cases t.nextVacancy <;> rfl
    | false =>
      simp only [Bool.false_eq_true, if_false]
      by_cases hnext : t.nextVacancy = some slabIndex
      · rw [if_pos hnext, if_pos hnext]
        cases VacancyMap.get replaced.2 (.included (slabIndex + 1)) .unbounded <;> rfl
      · rw [if_neg hnext, if_neg hnext]

/-! ## The vacancies as a list -/

/-- The first vacancy of the list, or nothing if there is none. -/
def IsNext (vacant : List Bool) : Option Nat → Prop
  | none => ∀ j : Nat, vacant[j]? ≠ some true
  | some i => vacant[i]? = some true ∧ ∀ j : Nat, j < i → vacant[j]? ≠ some true

/-- The tracker shows the slabs with these vacancies. -/
structure Shows (vacant : List Bool) (t : VacancyTracker) : Prop where
  len : t.hasVacancy.lenBits = vacant.length
  bit : ∀ i b, vacant[i]? = some b → t.hasVacancy.bit i = b
  next : IsNext vacant t.nextVacancy

theorem shows_new : Shows [] new where
  len := rfl
  bit i b h := by simp at h
  next j := by simp

/-- Growing appends vacant slabs, if the bits that it adds are set. -/
theorem Shows.grow {vacant : List Bool} {t : VacancyTracker} (h : Shows vacant t) {k : Nat}
    (hk : 0 < k) (hfresh : ∀ i, vacant.length ≤ i → i < vacant.length + k →
      (t.hasVacancy.resize (vacant.length + k) true).bit i = true) :
    ∃ next, t.updateSlabCount (vacant.length + k) =
        some ⟨t.hasVacancy.resize (vacant.length + k) true, next⟩ ∧
      Shows (vacant ++ List.replicate k true)
        ⟨t.hasVacancy.resize (vacant.length + k) true, next⟩ := by
  have hmap : ∀ next, IsNext (vacant ++ List.replicate k true) next →
      Shows (vacant ++ List.replicate k true)
        ⟨t.hasVacancy.resize (vacant.length + k) true, next⟩ := by
    intro next hnext
    refine ⟨by simp [← VacancyMap.len.eq_def], fun i b hb => ?_, hnext⟩
    have hlt := (List.getElem?_eq_some_iff.mp hb).1
    simp only [List.length_append, List.length_replicate] at hlt
    by_cases hi : i < vacant.length
    · rw [List.getElem?_append_left hi] at hb
      rw [← h.bit i b hb]
      exact t.hasVacancy.bit_resize true (by rw [h.len]; exact hi) hlt
    · rw [List.getElem?_append_right (by omega), List.getElem?_replicate, if_pos (by omega)] at hb
      rw [← Option.some.inj hb]
      exact hfresh i (by omega) hlt
  have hnext := h.next
  rw [updateSlabCount]
  simp only [VacancyMap.len, h.len]
  rw [if_neg (by omega), if_pos (by omega)]
  cases hn : t.nextVacancy with
  | none =>
    rw [hn] at hnext
    refine ⟨_, rfl, hmap _ ⟨?_, fun j hj => ?_⟩⟩
    · rw [List.getElem?_append_right le_rfl, List.getElem?_replicate, if_pos (by omega)]
    · rw [List.getElem?_append_left hj]
      exact hnext j
  | some i =>
    rw [hn] at hnext
    have hi := (List.getElem?_eq_some_iff.mp hnext.1).1
    refine ⟨_, rfl, hmap _ ⟨?_, fun j hj => ?_⟩⟩
    · rw [List.getElem?_append_left hi]
      exact hnext.1
    · rw [List.getElem?_append_left (by omega)]
      exact hnext.2 j hj

/-- Shrinking drops slabs. -/
theorem Shows.shrink {vacant : List Bool} {t : VacancyTracker} (h : Shows vacant t) {n : Nat}
    (hn : n < vacant.length) :
    ∃ next, t.updateSlabCount n = some ⟨t.hasVacancy.resize n true, next⟩ ∧
      Shows (vacant.take n) ⟨t.hasVacancy.resize n true, next⟩ := by
  have hmap : ∀ next, IsNext (vacant.take n) next →
      Shows (vacant.take n) ⟨t.hasVacancy.resize n true, next⟩ := by
    intro next hnext
    refine ⟨by simp [← VacancyMap.len.eq_def]; omega, fun i b hb => ?_, hnext⟩
    rw [List.getElem?_take] at hb
    split at hb
    next hi =>
      rw [← h.bit i b hb]
      exact t.hasVacancy.bit_resize true (by rw [h.len]; omega) hi
    next => cases hb
  have hnext := h.next
  rw [updateSlabCount]
  simp only [VacancyMap.len, h.len]
  rw [if_neg (by omega), if_neg (by omega)]
  cases hnv : t.nextVacancy with
  | none =>
    rw [hnv] at hnext
    refine ⟨_, rfl, hmap _ fun j hj => hnext j ?_⟩
    rw [List.getElem?_take] at hj
    split at hj
    · exact hj
    · cases hj
  | some i =>
    rw [hnv] at hnext
    refine ⟨_, rfl, hmap _ ?_⟩
    by_cases hi : n ≤ i
    · rw [if_pos hi]
      intro j hj
      rw [List.getElem?_take] at hj
      split at hj
      · exact hnext.2 j (by omega) hj
      · cases hj
    · rw [if_neg hi]
      refine ⟨by rw [List.getElem?_take_of_lt (by omega)]; exact hnext.1, fun j hj => ?_⟩
      rw [List.getElem?_take_of_lt (by omega)]
      exact hnext.2 j hj

/-- What stays of the vacancies when one of them is set. -/
theorem getElem?_setVacant {vacant : List Bool} {i : Nat} (hi : i < vacant.length) (v : Bool)
    (j : Nat) : (vacant.set i v)[j]? = if j = i then some v else vacant[j]? := by
  rw [List.getElem?_set]
  by_cases hj : i = j
  · rw [if_pos hj, if_pos (by omega), if_pos hj.symm]
  · rw [if_neg hj, if_neg (Ne.symm hj)]

/-- A status update sets the entry of its slab. -/
theorem Shows.set {vacant : List Bool} {t : VacancyTracker} (h : Shows vacant t) {i : Nat}
    (hi : i < vacant.length) (v : Bool) :
    ∃ m', t.hasVacancy.replaceUnchecked i v = some (vacant[i], m') ∧
      m'.lenBits = t.hasVacancy.lenBits ∧ m'.blocks.length = t.hasVacancy.blocks.length ∧
      (∀ j, m'.bit j = if j = i then v else t.hasVacancy.bit j) ∧
      (t.afterReplace m' i v).hasVacancy = m' ∧ Shows (vacant.set i v) (t.afterReplace m' i v) := by
  have hold := List.getElem?_eq_getElem hi
  obtain ⟨m', hrep, hlen, hblocks, hbit⟩ :=
    t.hasVacancy.replaceUnchecked_eq (show i < t.hasVacancy.lenBits by rw [h.len]; exact hi) v
  rw [h.bit i _ hold] at hrep
  have hget := getElem?_setVacant hi v
  have hmap : ∀ next, IsNext (vacant.set i v) next → Shows (vacant.set i v) ⟨m', next⟩ := by
    intro next hnext
    refine ⟨by rw [List.length_set]; exact hlen.trans h.len, fun j b hb => ?_, hnext⟩
    rw [hget] at hb
    rw [hbit]
    by_cases hji : j = i
    · rw [if_pos hji] at hb ⊢
      exact Option.some.inj hb
    · rw [if_neg hji] at hb ⊢
      exact h.bit j b hb
  refine ⟨m', hrep, hlen, hblocks, hbit, ?_⟩
  have hnext := h.next
  unfold afterReplace
  cases v with
  | true =>
    simp only [if_true]
    cases hn : t.nextVacancy with
    | none =>
      rw [hn] at hnext
      refine ⟨rfl, hmap _ ⟨by rw [hget, if_pos rfl], fun j hj => ?_⟩⟩
      rw [hget, if_neg (by omega)]
      exact hnext j
    | some k =>
      rw [hn] at hnext
      refine ⟨rfl, hmap _ ?_⟩
      by_cases hik : i < k
      · rw [if_pos hik]
        refine ⟨by rw [hget, if_pos rfl], fun j hj => ?_⟩
        rw [hget, if_neg (by omega)]
        exact hnext.2 j (by omega)
      · rw [if_neg hik]
        refine ⟨?_, fun j hj => ?_⟩
        · rw [hget]
          split
          · rfl
          · exact hnext.1
        · rw [hget, if_neg (by omega)]
          exact hnext.2 j hj
  | false =>
    simp only [Bool.false_eq_true, if_false]
    by_cases hni : t.nextVacancy = some i
    · rw [if_pos hni]
      rw [hni] at hnext
      -- The cached slab was the first vacancy, so the next one is behind it.
      have hbefore : ∀ j, j ≤ i → (vacant.set i false)[j]? ≠ some true := by
        intro j hj
        rw [hget]
        by_cases hji : j = i
        · rw [if_pos hji]
          decide
        · rw [if_neg hji]
          exact hnext.2 j (by omega)
      have hlenm : i + 1 ≤ m'.lenBits := by
        rw [hlen, h.len]
        exact hi
      rw [m'.get_from hlenm]
      refine ⟨rfl, hmap _ ?_⟩
      have hmapBit : ∀ j, i < j → m'.bit j = t.hasVacancy.bit j := by
        intro j hj
        rw [hbit, if_neg (by omega)]
      cases hone : VacancyMapSlice.firstOne ⟨m', i + 1, m'.lenBits, hlenm, le_rfl⟩ with
      | none =>
        intro j hj
        rcases Nat.lt_or_ge i j with hij | hij
        · have hjl := (List.getElem?_eq_some_iff.mp hj).1
          rw [List.length_set, ← h.len, ← hlen] at hjl
          rw [hget, if_neg (by omega)] at hj
          have hclear : m'.bit j = false := VacancyMapSlice.firstOne_eq_none hone hij hjl
          rw [hmapBit j hij, h.bit j true hj] at hclear
          cases hclear
        · exact hbefore j hij hj
      | some k =>
        obtain ⟨hk, hset, hclear⟩ := VacancyMapSlice.firstOne_eq_some hone
        dsimp only at hk hset hclear
        rw [hlen, h.len] at hk
        refine ⟨?_, fun j hj => ?_⟩
        · rw [hmapBit _ (by omega), h.bit _ _ (List.getElem?_eq_getElem hk)] at hset
          rw [hget, if_neg (show i + 1 + k ≠ i by omega), List.getElem?_eq_getElem hk, hset]
        · intro hjv
          rcases Nat.lt_or_ge i j with hij | hij
          · have hz := hclear j hij hj
            rw [hget, if_neg (by omega)] at hjv
            rw [hmapBit j hij, h.bit j true hjv] at hz
            cases hz
          · exact hbefore j hij hjv
    · rw [if_neg hni]
      refine ⟨rfl, hmap _ ?_⟩
      cases hn : t.nextVacancy with
      | none =>
        rw [hn] at hnext
        intro j hj
        rw [hget] at hj
        split at hj
        · cases hj
        · exact hnext j hj
      | some k =>
        rw [hn] at hnext hni
        have hki : k ≠ i := fun he => hni (congrArg some he)
        refine ⟨by rw [hget, if_neg hki]; exact hnext.1, fun j hj => ?_⟩
        rw [hget]
        by_cases hji : j = i
        · rw [if_pos hji]
          decide
        · rw [if_neg hji]
          exact hnext.2 j hj

/-! ## Without stale bits -/

/-- The tracker describes the slabs with these vacancies. -/
structure Tracks (vacant : List Bool) (t : VacancyTracker) : Prop where
  len : t.hasVacancy.lenBits = vacant.length
  bit : ∀ i b, vacant[i]? = some b → t.hasVacancy.bit i = b
  spare : VacancyMap.Spare true t.hasVacancy
  next : IsNext vacant t.nextVacancy

theorem Tracks.shows {vacant : List Bool} {t : VacancyTracker} (h : Tracks vacant t) :
    Shows vacant t := ⟨h.len, h.bit, h.next⟩

theorem Shows.tracks {vacant : List Bool} {t : VacancyTracker} (h : Shows vacant t)
    (hspare : VacancyMap.Spare true t.hasVacancy) : Tracks vacant t :=
  ⟨h.len, h.bit, hspare, h.next⟩

theorem tracks_new : Tracks [] new := shows_new.tracks (VacancyMap.spare_new true)

/-- Growing appends vacant slabs. -/
theorem Tracks.grow {vacant : List Bool} {t : VacancyTracker} (h : Tracks vacant t) {k : Nat}
    (hk : 0 < k) : ∃ t', t.updateSlabCount (vacant.length + k) = some t' ∧
      Tracks (vacant ++ List.replicate k true) t' := by
  obtain ⟨next, heq, hshows⟩ := h.shows.grow hk fun i hi hn =>
    VacancyMap.bit_resize_fresh h.spare (by rw [h.len]; exact hi) hn
  exact ⟨_, heq, hshows.tracks (VacancyMap.spare_grow h.spare (by rw [h.len]; omega))⟩

/-- Shrinking drops slabs, which have to be vacant. -/
theorem Tracks.shrink {vacant : List Bool} {t : VacancyTracker} (h : Tracks vacant t) {n : Nat}
    (hn : n < vacant.length) (hcut : ∀ i, n ≤ i → vacant[i]? ≠ some false) :
    ∃ t', t.updateSlabCount n = some t' ∧ Tracks (vacant.take n) t' := by
  obtain ⟨next, heq, hshows⟩ := h.shows.shrink hn
  refine ⟨_, heq, hshows.tracks (VacancyMap.spare_shrink h.spare (by rw [h.len]; exact hn)
    (fun i hni hi => ?_) true)⟩
  rw [h.len] at hi
  have hb := List.getElem?_eq_getElem hi
  rw [h.bit i _ hb]
  cases hv : vacant[i] with
  | true => rfl
  | false => exact absurd (hb.trans (congrArg some hv)) (hcut i hni)

/-- A status update that changes the status of a slab sets its entry. -/
theorem Tracks.set {vacant : List Bool} {t : VacancyTracker} (h : Tracks vacant t) {i : Nat}
    {v : Bool} (hi : vacant[i]? = some (!v)) :
    ∃ t', t.updateSlabStatus i v = some t' ∧ Tracks (vacant.set i v) t' := by
  obtain ⟨hlt, hold⟩ := List.getElem?_eq_some_iff.mp hi
  obtain ⟨m', hrep, hlen, hblocks, hbit, hmap, hshows⟩ := h.shows.set hlt v
  refine ⟨t.afterReplace m' i v, ?_, hshows.tracks ?_⟩
  · rw [updateSlabStatus_eq, hrep, Option.bind_some, hold, if_neg (by simp)]
  · rw [hmap]
    intro j hj hjb
    rw [hlen] at hj
    rw [hblocks] at hjb
    rw [hbit, if_neg (by rw [h.len] at hj; omega)]
    exact h.spare j hj hjb

end VacancyTracker

end Folo.InfinityPool
