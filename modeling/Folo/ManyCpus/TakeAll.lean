import Folo.ManyCpus.Selection

/-!
# The contract of `take_all`

`take_all` collects the regions in the order of their map, and only then drops
processors, from the end, until the quota is met. What its selector requires
still holds of what is left; what it prefers does so only where it makes no
difference which regions come last (`KeepsPreference`).
-/

namespace Folo.ManyCpus

open Folo.Lib

/-! ## What `take_all` promises -/

/-- The memory regions that have a candidate. -/
def regionsOf (candidates : List Processor) : Finset MemoryRegionId :=
  (candidates.map Processor.memoryRegionId).toFinset

/-- How many candidates some regions have. -/
def held (candidates : List Processor) (regions : Finset MemoryRegionId) : Nat :=
  (candidates.filter fun p => p.memoryRegionId ∈ regions).length

/-- How many processors a selector allows: all there are, those of an
arbitrary region, or one of each region. -/
def MemoryRegionSelector.Allows (selector : MemoryRegionSelector)
    (candidates processors : List Processor) (allowed : Nat) : Prop :=
  match selector with
  | .any | .preferSame | .preferDifferent => allowed = candidates.length
  | .requireSame => ∃ region, (∀ p ∈ processors, p.memoryRegionId = region) ∧
      allowed = (inRegion candidates region).length
  | .requireDifferent => allowed = (regionsOf candidates).card

/-- No more than the limit, when there is one. -/
def capped (limit : Option Nat) (allowed : Nat) : Nat :=
  match limit with
  | none => allowed
  | some maxCount => min maxCount allowed

/-- What `take_all` promises of a result. -/
structure TakeAllContract (b : ProcessorSetBuilder) (result : Option ProcessorSet) : Prop where
  none_iff : result = none ↔ b.candidates = []
  some : ∀ set, result = some set → ∃ allowed count,
    b.memoryRegionSelector.Allows b.candidates set.processors.toList allowed ∧
    count = capped b.resourceQuotaProcessorCountLimit allowed ∧
    Picks b.candidates count set.processors.toList ∧
    b.memoryRegionSelector.Requires set.processors.toList ∧
    b.memoryRegionSelector.Prefers b.candidates count set.processors.toList

/-- Cutting the candidates down to `count` keeps what the selector prefers,
whichever regions come last: regions that are as many as some that hold
`count` candidates do so themselves; or one processor is all that is left, or
of one region, or one of each, or the only processor to go leaves its region
one short of the others. -/
def MemoryRegionSelector.KeepsPreference (selector : MemoryRegionSelector)
    (candidates : List Processor) (count : Nat) : Prop :=
  match selector with
  | .preferSame => ∀ regions others : Finset MemoryRegionId, others ⊆ regionsOf candidates →
      others.card = regions.card → count ≤ held candidates regions →
        count ≤ held candidates others
  | .preferDifferent => count = 1 ∨ (regionsOf candidates).card = 1 ∨
      (∀ region ∈ regionsOf candidates, (inRegion candidates region).length = 1) ∨
      count + 1 = candidates.length ∧
        ∀ region ∈ regionsOf candidates, ∀ other ∈ regionsOf candidates,
          (inRegion candidates region).length = (inRegion candidates other).length
  | .any | .requireSame | .requireDifferent => True

/-! ## The cut -/

theorem capped_le (limit : Option Nat) (allowed : Nat) : capped limit allowed ≤ allowed := by
  cases limit with
  | none => exact Nat.le_refl _
  | some maxCount => exact Nat.min_le_right ..

/-- Where something is cut off, the limit is what remains. -/
theorem eq_some_of_capped_lt {limit : Option Nat} {allowed : Nat}
    (h : capped limit allowed < allowed) : limit = some (capped limit allowed) := by
  cases limit with
  | none => exact absurd h (Nat.lt_irrefl _)
  | some maxCount =>
    have hlt : min maxCount allowed < allowed := h
    exact congrArg some (Nat.min_eq_left (by omega)).symm

theorem capped_some_of_lt {maxCount allowed : Nat} (h : maxCount < allowed) :
    capped (some maxCount) allowed = maxCount :=
  Nat.min_eq_left (Nat.le_of_lt h)

namespace ProcessorSetBuilder

variable (b : ProcessorSetBuilder)

theorem popUntil_eq_take (maxCount : Nat) (processors : List Processor) :
    popUntil maxCount processors = processors.take maxCount := by
  fun_induction popUntil maxCount processors with
  | case1 processors hlt ih =>
    rw [ih, List.dropLast_eq_take, List.take_take]
    congr 1
    omega
  | case2 processors hle => exact (List.take_of_length_le (Nat.le_of_not_lt hle)).symm

theorem reduceProcessorsUntilUnderQuota_eq_take (processors : List Processor) :
    b.reduceProcessorsUntilUnderQuota processors =
      processors.take (capped b.resourceQuotaProcessorCountLimit processors.length) := by
  unfold reduceProcessorsUntilUnderQuota
  cases b.resourceQuotaProcessorCountLimit with
  | none => exact List.take_length.symm
  | some maxCount =>
    show popUntil maxCount processors = processors.take (min maxCount processors.length)
    rw [popUntil_eq_take, ← List.take_take, List.take_length]

/-- There is always some processor time to use. -/
theorem capped_pos {allowed : Nat} (h : 0 < allowed) :
    0 < capped b.resourceQuotaProcessorCountLimit allowed := by
  unfold resourceQuotaProcessorCountLimit capped
  split
  · exact h
  · next maxCount heq =>
    split at heq
    · have := Option.some.inj heq
      omega
    · exact nomatch heq

end ProcessorSetBuilder

section Cut

variable {candidates processors : List Processor} {count : Nat} {map : RegionMap}

theorem mem_regionsOf {region : MemoryRegionId} :
    region ∈ regionsOf candidates ↔ ∃ p ∈ candidates, p.memoryRegionId = region := by
  rw [regionsOf, List.mem_toFinset, List.mem_map]

theorem Grouped.regionsOf (h : Grouped candidates map) :
    regionsOf candidates = (map.map Prod.fst).toFinset := by
  ext region
  rw [mem_regionsOf, List.mem_toFinset]
  constructor
  · intro ⟨p, hp, hregion⟩
    exact hregion ▸ h.complete p hp
  · intro hin
    obtain ⟨e, he, rfl⟩ := List.mem_map.mp hin
    obtain ⟨p, hp⟩ := List.exists_mem_of_ne_nil _ (h.entry e he).2
    rw [(h.entry e he).1] at hp
    exact ⟨p, mem_inRegion.mp hp⟩

theorem Grouped.card_regionsOf (h : Grouped candidates map) :
    (Folo.ManyCpus.regionsOf candidates).card = map.length := by
  rw [h.regionsOf, List.toFinset_card_of_nodup h.keys, List.length_map]

/-- The processors of some entries are of their regions. -/
theorem Grouped.region_of_mem (h : Grouped candidates map) {entries : RegionMap}
    (hsub : entries ⊆ map) {p : Processor} (hp : p ∈ entries.flatMap Prod.snd) :
    p.memoryRegionId ∈ entries.map Prod.fst := by
  obtain ⟨e, he, hin⟩ := List.mem_flatMap.mp hp
  rw [(h.entry e (hsub he)).1] at hin
  exact (mem_inRegion.mp hin).2 ▸ List.mem_map_of_mem he

theorem Picks.take (h : Picks candidates processors.length processors)
    (hle : count ≤ processors.length) : Picks candidates count (processors.take count) where
  length := List.length_take_of_le hle
  distinct := h.distinct.sublist ((List.take_sublist ..).map _)
  subset p hp := h.subset p (List.mem_of_mem_take hp)

/-- What is required of a selection is so of a part of it. -/
theorem MemoryRegionSelector.Requires.take {selector : MemoryRegionSelector}
    (h : selector.Requires processors) (count : Nat) :
    selector.Requires (processors.take count) := by
  cases selector with
  | any => trivial
  | requireSame =>
    obtain ⟨region, hregion⟩ := h
    exact ⟨region, fun p hp => hregion p (List.mem_of_mem_take hp)⟩
  | requireDifferent => exact List.Nodup.sublist ((List.take_sublist ..).map _) h
  | preferSame => trivial
  | preferDifferent => trivial

theorem MemoryRegionSelector.Allows.take {selector : MemoryRegionSelector} {allowed : Nat}
    (h : selector.Allows candidates processors allowed) (count : Nat) :
    selector.Allows candidates (processors.take count) allowed := by
  cases selector with
  | any => exact h
  | requireSame =>
    obtain ⟨region, hregion, hallowed⟩ := h
    exact ⟨region, fun p hp => hregion p (List.mem_of_mem_take hp), hallowed⟩
  | requireDifferent => exact h
  | preferSame => exact h
  | preferDifferent => exact h

/-- Where no quota is regarded, there is all that the selector allows. -/
theorem selectAll_spec (b : ProcessorSetBuilder) (h : Grouped b.candidates map)
    (hmem : processors ∈ b.selectAll map) :
    b.memoryRegionSelector.Allows b.candidates processors processors.length ∧
    Picks b.candidates processors.length processors ∧
    b.memoryRegionSelector.Requires processors := by
  have hids := b.nodup_candidates
  have hall : Picks b.candidates (map.flatMap Prod.snd).length (map.flatMap Prod.snd) :=
    picks_of_subperm hids rfl h.perm_flatMap.subperm
  unfold ProcessorSetBuilder.selectAll at hmem
  cases hsel : b.memoryRegionSelector with
  | any | preferSame | preferDifferent =>
    rw [hsel] at hmem
    obtain rfl := List.mem_singleton.mp hmem
    exact ⟨h.perm_flatMap.length_eq, hall, trivial⟩
  | requireSame =>
    rw [hsel] at hmem
    obtain ⟨region, -, rfl⟩ := List.mem_map.mp hmem
    rw [h.get]
    have hregion : ∀ p ∈ inRegion b.candidates region, p.memoryRegionId = region :=
      fun p hp => (mem_inRegion.mp hp).2
    exact ⟨⟨region, hregion, rfl⟩, picks_of_subperm hids rfl List.filter_sublist.subperm,
      region, hregion⟩
  | requireDifferent =>
    rw [hsel] at hmem
    obtain ⟨hpicks, hregions⟩ := picks_of_chooseEach hids h (List.Subperm.refl _) hmem
    refine ⟨?_, hpicks.length ▸ hpicks, hregions⟩
    show processors.length = (regionsOf b.candidates).card
    rw [hpicks.length, h.card_regionsOf]

theorem selectAll_ne_nil (b : ProcessorSetBuilder) (h : Grouped b.candidates map)
    (hne : map ≠ []) (hmem : processors ∈ b.selectAll map) : processors ≠ [] := by
  have hfirst : ∀ e ∈ map, e.2 ≠ [] := fun e he => (h.entry e he).2
  unfold ProcessorSetBuilder.selectAll at hmem
  cases hsel : b.memoryRegionSelector with
  | any | preferSame | preferDifferent =>
    rw [hsel] at hmem
    obtain rfl := List.mem_singleton.mp hmem
    obtain ⟨e, he⟩ := List.exists_mem_of_ne_nil _ hne
    intro hnil
    exact hfirst e he (List.flatMap_eq_nil_iff.mp hnil e he)
  | requireSame =>
    rw [hsel] at hmem
    obtain ⟨region, hregion, rfl⟩ := List.mem_map.mp hmem
    obtain ⟨e, he, rfl⟩ := List.mem_map.mp hregion
    rw [RegionMap.get_of_mem h.keys he]
    exact hfirst e he
  | requireDifferent =>
    rw [hsel] at hmem
    obtain ⟨hpicks, -⟩ := picks_of_chooseEach b.nodup_candidates h (List.Subperm.refl _) hmem
    intro hnil
    rw [hnil] at hpicks
    exact hne (List.eq_nil_of_length_eq_zero hpicks.length.symm)

theorem exists_mem_selectAll (b : ProcessorSetBuilder) (h : Grouped b.candidates map)
    (hne : map ≠ []) : ∃ processors, processors ∈ b.selectAll map := by
  unfold ProcessorSetBuilder.selectAll
  cases b.memoryRegionSelector with
  | any | preferSame | preferDifferent => exact ⟨_, List.mem_singleton_self _⟩
  | requireSame =>
    exact exists_mem_map _ (exists_mem_map _ (List.exists_mem_of_ne_nil _ hne))
  | requireDifferent => exact exists_mem_chooseEach fun e he => (h.entry e he).2

end Cut

/-! ## The regions that come last -/

section Preferences

variable {candidates : List Processor} {count : Nat} {map : RegionMap}

theorem held_le_of_take (h : Grouped candidates map) (k : Nat) :
    held candidates ((map.take k).map Prod.fst).toFinset ≤
      ((map.take k).flatMap Prod.snd).length := by
  have hsplit : map.flatMap Prod.snd =
      (map.take k).flatMap Prod.snd ++ (map.drop k).flatMap Prod.snd := by
    rw [← List.flatMap_append, List.take_append_drop]
  have hkeys := h.keys
  rw [← List.take_append_drop k map, List.map_append, List.nodup_append] at hkeys
  rw [held, ← (h.perm_flatMap.filter _).length_eq, hsplit, List.filter_append]
  -- the other entries have no candidate of these regions
  have hnone : ((map.drop k).flatMap Prod.snd).filter (fun p =>
      decide (p.memoryRegionId ∈ ((map.take k).map Prod.fst).toFinset)) = [] := by
    refine List.filter_eq_nil_iff.mpr fun p hp hin => ?_
    have hlast := h.region_of_mem (List.drop_subset k map) hp
    exact hkeys.2.2 _ (List.mem_toFinset.mp (of_decide_eq_true hin)) _ hlast rfl
  rw [hnone, List.append_nil]
  exact List.length_filter_le _ _

theorem regionsOf_mono {xs ys : List Processor} (h : xs ⊆ ys) : regionsOf xs ⊆ regionsOf ys := by
  intro region hin
  obtain ⟨p, hp, hregion⟩ := mem_regionsOf.mp hin
  exact mem_regionsOf.mpr ⟨p, h hp, hregion⟩

/-- What the first regions hold comes of them. -/
theorem card_regionsOf_take (h : Grouped candidates map) {k : Nat}
    (hheld : count ≤ held candidates ((map.take k).map Prod.fst).toFinset) :
    (regionsOf ((map.flatMap Prod.snd).take count)).card ≤ k := by
  have hle := hheld.trans (held_le_of_take h k)
  have hcut : (map.flatMap Prod.snd).take count = ((map.take k).flatMap Prod.snd).take count := by
    conv_lhs => rw [← List.take_append_drop k map, List.flatMap_append]
    exact List.take_append_of_le_length hle
  rw [hcut]
  have hsub : regionsOf (((map.take k).flatMap Prod.snd).take count) ⊆
      ((map.take k).map Prod.fst).toFinset := by
    intro region hin
    obtain ⟨p, hp, rfl⟩ := mem_regionsOf.mp hin
    exact List.mem_toFinset.mpr
      (h.region_of_mem (List.take_subset k map) (List.mem_of_mem_take hp))
  refine (Finset.card_le_card hsub).trans ((List.toFinset_card_le _).trans ?_)
  rw [List.length_map]
  exact List.length_take_le ..

theorem preferSame_of_keeps (h : Grouped candidates map)
    (hkeeps : MemoryRegionSelector.preferSame.KeepsPreference candidates count) :
    MemoryRegionSelector.preferSame.Prefers candidates count
      ((map.flatMap Prod.snd).take count) := by
  intro regions hhold
  show (regionsOf ((map.flatMap Prod.snd).take count)).card ≤ regions.card
  by_cases hfew : map.length ≤ regions.card
  · -- there are no more regions than these
    have hsub : regionsOf ((map.flatMap Prod.snd).take count) ⊆ regionsOf candidates :=
      regionsOf_mono fun p hp => h.perm_flatMap.subset (List.mem_of_mem_take hp)
    exact (Finset.card_le_card hsub).trans (h.card_regionsOf ▸ hfew)
  · refine card_regionsOf_take h (hkeeps regions _ ?_ ?_ hhold)
    · rw [h.regionsOf]
      intro region hin
      exact List.mem_toFinset.mpr
        (((List.take_sublist _ map).map Prod.fst).subset (List.mem_toFinset.mp hin))
    · have hnodup : ((map.take regions.card).map Prod.fst).Nodup :=
        h.keys.sublist ((List.take_sublist ..).map _)
      rw [List.toFinset_card_of_nodup hnodup, List.length_map, List.length_take]
      omega

/-- The entries of some regions, and then the others. -/
def putFirst (map : RegionMap) (regions : Finset MemoryRegionId) : RegionMap :=
  (map.filter fun e => e.1 ∈ regions) ++ map.filter fun e => !decide (e.1 ∈ regions)

theorem putFirst_perm (map : RegionMap) (regions : Finset MemoryRegionId) :
    (putFirst map regions).Perm map :=
  List.filter_append_perm _ map

/-- Regions that cannot hold `count` candidates are all drawn on when they come
first, and one more is. -/
theorem card_lt_of_putFirst (h : Grouped candidates map) {regions : Finset MemoryRegionId}
    (hsub : regions ⊆ regionsOf candidates) (hheld : held candidates regions < count)
    (hcount : count ≤ candidates.length) :
    regions.card <
      (regionsOf (((putFirst map regions).flatMap Prod.snd).take count)).card := by
  have hfirst : ((map.filter fun e => decide (e.1 ∈ regions)).flatMap Prod.snd).length =
      held candidates regions := by
    rw [List.length_flatMap, held, h.length_filter fun region => decide (region ∈ regions)]
  have hall := ((h.perm (putFirst_perm map regions)).perm_flatMap).length_eq
  rw [putFirst, List.flatMap_append, List.length_append, hfirst] at hall
  obtain ⟨extra, rest, hrest⟩ : ∃ extra rest,
      (map.filter fun e => !decide (e.1 ∈ regions)).flatMap Prod.snd = extra :: rest := by
    refine List.exists_cons_of_length_pos ?_
    omega
  have hextra : extra.memoryRegionId ∉ regions := by
    have hin : extra.memoryRegionId ∈
        (map.filter fun e => !decide (e.1 ∈ regions)).map Prod.fst :=
      h.region_of_mem List.filter_sublist.subset (hrest ▸ List.mem_cons_self ..)
    obtain ⟨e, he, heq⟩ := List.mem_map.mp hin
    have hnot := (List.mem_filter.mp he).2
    rw [heq] at hnot
    simpa using hnot
  have hmore : insert extra.memoryRegionId regions ⊆
      regionsOf (((putFirst map regions).flatMap Prod.snd).take count) := by
    rw [putFirst, List.flatMap_append, List.take_append, hfirst, hrest,
      List.take_of_length_le (by rw [hfirst]; omega)]
    intro region hin
    rcases Finset.mem_insert.mp hin with rfl | hin
    · refine mem_regionsOf.mpr ⟨extra, List.mem_append_right _ ?_, rfl⟩
      rw [show count - held candidates regions = (count - held candidates regions - 1) + 1 by
        omega, List.take_succ_cons]
      exact List.mem_cons_self ..
    · have hkey := hsub hin
      rw [h.regionsOf] at hkey
      obtain ⟨e, he, rfl⟩ := List.mem_map.mp (List.mem_toFinset.mp hkey)
      obtain ⟨hvalue, hne⟩ := h.entry e he
      obtain ⟨p, hp⟩ := List.exists_mem_of_ne_nil _ hne
      refine mem_regionsOf.mpr ⟨p, List.mem_append_left _ ?_, (mem_inRegion.mp (hvalue ▸ hp)).2⟩
      exact List.mem_flatMap.mpr ⟨e, List.mem_filter.mpr ⟨he, decide_eq_true hin⟩, hp⟩
  have hcard := Finset.card_le_card hmore
  rw [Finset.card_insert_of_notMem hextra] at hcard
  exact hcard

theorem keeps_of_preferSame (h : Grouped candidates map) (hcount : count ≤ candidates.length)
    (hprefers : ∀ order : RegionMap, order.Perm map →
      MemoryRegionSelector.preferSame.Prefers candidates count
        ((order.flatMap Prod.snd).take count)) :
    MemoryRegionSelector.preferSame.KeepsPreference candidates count := by
  intro regions others hsub hcard hhold
  refine Nat.le_of_not_lt fun hlt => ?_
  have hmany := card_lt_of_putFirst h hsub hlt hcount
  have hfew := hprefers _ (putFirst_perm map others) regions hhold
  exact Nat.not_lt_of_le hfew (hcard ▸ hmany)

/-- A region is drawn on as far as it has candidates. -/
theorem length_inRegion_le {processors : List Processor} (hsub : processors.Subperm candidates)
    (region : MemoryRegionId) :
    (inRegion processors region).length ≤ (inRegion candidates region).length :=
  (hsub.filter _).length_le

/-- When one processor has gone, a region is short of one at most. -/
theorem length_inRegion_le_succ {processors : List Processor}
    (hsub : processors.Subperm candidates) (hone : processors.length + 1 = candidates.length)
    (region : MemoryRegionId) :
    (inRegion candidates region).length ≤ (inRegion processors region).length + 1 := by
  have hothers := (hsub.filter fun p => !decide (p.memoryRegionId = region)).length_le
  have hall := List.length_eq_length_filter_add
    (l := candidates) fun p => decide (p.memoryRegionId = region)
  have hkept := List.length_eq_length_filter_add
    (l := processors) fun p => decide (p.memoryRegionId = region)
  unfold inRegion
  omega

theorem preferDifferent_of_keeps {processors : List Processor}
    (hpicks : Picks candidates count processors)
    (hkeeps : MemoryRegionSelector.preferDifferent.KeepsPreference candidates count) :
    MemoryRegionSelector.preferDifferent.Prefers candidates count processors := by
  intro region other ⟨p, hp, hregion, _⟩
  have hsub := hpicks.subperm
  have hle := length_inRegion_le hsub region
  have hother : other ∈ regionsOf candidates := mem_regionsOf.mpr ⟨p, hp, hregion⟩
  by_cases hin : region ∈ regionsOf candidates
  · rcases hkeeps with hone | hone | hone | ⟨hone, hsame⟩
    · have := (List.filter_sublist (l := processors)
        (p := fun p => decide (p.memoryRegionId = region))).length_le
      rw [hpicks.length, hone] at this
      unfold inRegion
      omega
    · obtain ⟨only, honly⟩ := Finset.card_eq_one.mp hone
      rw [honly, Finset.mem_singleton] at hin hother
      rw [hin, hother]
      omega
    · rw [hone region hin] at hle
      omega
    · have hshort := length_inRegion_le_succ hsub (hpicks.length.symm ▸ hone) other
      rw [hsame region hin other hother] at hle
      omega
  · have hnone : inRegion candidates region = [] :=
      List.filter_eq_nil_iff.mpr fun q hq hmem =>
        hin (mem_regionsOf.mpr ⟨q, hq, of_decide_eq_true hmem⟩)
    rw [hnone] at hle
    exact hle.trans (Nat.zero_le _)

/-- One region put first and another one last. -/
theorem exists_perm_ends {first last : MemoryRegionId × List Processor} (hfirst : first ∈ map)
    (hlast : last ∈ map) (hne : first ≠ last) :
    ∃ others, (first :: (others ++ [last])).Perm map := by
  have hrest : last ∈ map.erase first := (List.mem_erase_of_ne hne.symm).mpr hlast
  refine ⟨(map.erase first).erase last, ?_⟩
  refine .trans (.cons _ ?_) (List.perm_cons_erase hfirst).symm
  exact (List.perm_append_singleton ..).trans (List.perm_cons_erase hrest).symm

/-- The first region keeps what it has, and the last one loses as much as is
cut off. -/
theorem lengths_of_ends {first last : MemoryRegionId × List Processor} {others : RegionMap}
    (h : Grouped candidates (first :: (others ++ [last]))) (hcount : count ≤ candidates.length) :
    min first.2.length count ≤ (inRegion
      (((first :: (others ++ [last])).flatMap Prod.snd).take count) first.1).length ∧
    (inRegion (((first :: (others ++ [last])).flatMap Prod.snd).take count) last.1).length +
      candidates.length ≤ max (last.2.length + count) candidates.length := by
  have hall := h.perm_flatMap.length_eq
  have hkeys := h.keys
  rw [List.flatMap_cons, List.flatMap_append, List.flatMap_singleton] at hall ⊢
  constructor
  · -- the processors that are taken of the first region
    have hvalue := (h.entry first (List.mem_cons_self ..)).1
    have hkept : inRegion (first.2.take count) first.1 = first.2.take count := by
      refine List.filter_eq_self.mpr fun p hp => decide_eq_true ?_
      have hin := List.mem_of_mem_take hp
      rw [hvalue] at hin
      exact (mem_inRegion.mp hin).2
    rw [List.take_append, inRegion_append, List.length_append, hkept, List.length_take]
    omega
  · have hbefore : ∀ p ∈ first.2 ++ others.flatMap Prod.snd, p.memoryRegionId ≠ last.1 := by
      intro p hp heq
      have hin : p.memoryRegionId ∈ (first :: others).map Prod.fst := by
        refine h.region_of_mem (List.cons_subset_cons _ (List.subset_append_left ..)) ?_
        rwa [List.flatMap_cons]
      rw [← List.cons_append, List.map_append, List.nodup_append] at hkeys
      exact hkeys.2.2 _ hin last.1 (List.mem_singleton_self _) heq
    have hnone : inRegion ((first.2 ++ others.flatMap Prod.snd).take count) last.1 = [] :=
      List.filter_eq_nil_iff.mpr fun p hp hmem =>
        hbefore p (List.mem_of_mem_take hp) (of_decide_eq_true hmem)
    rw [← List.append_assoc, List.take_append, inRegion_append, hnone, List.nil_append]
    have hle : (inRegion (last.2.take (count -
        (first.2 ++ others.flatMap Prod.snd).length)) last.1).length ≤
        (last.2.take (count - (first.2 ++ others.flatMap Prod.snd).length)).length :=
      List.length_filter_le _ _
    rw [List.length_take] at hle
    rw [← List.append_assoc, List.length_append] at hall
    omega

/-- A selection that has fewer processors of a region leaves one of them. -/
theorem exists_left (hids : (candidates.map Processor.id).Nodup) (processors : List Processor)
    (region : MemoryRegionId)
    (hlt : (inRegion processors region).length < (inRegion candidates region).length) :
    ∃ p ∈ candidates, p.memoryRegionId = region ∧ p ∉ processors := by
  by_contra hnone
  have hsub : inRegion candidates region ⊆ inRegion processors region := by
    intro p hp
    obtain ⟨hin, hregion⟩ := mem_inRegion.mp hp
    refine mem_inRegion.mpr ⟨?_, hregion⟩
    by_contra hout
    exact hnone ⟨p, hin, hregion, hout⟩
  have hnodup : (inRegion candidates region).Nodup := (nodup_of_ids hids).filter _
  exact Nat.not_lt_of_le (List.subperm_of_subset hnodup hsub).length_le hlt

/-- What the preference comes to for two regions when the one is put first and
the other last. -/
theorem length_le_of_preferDifferent (hids : (candidates.map Processor.id).Nodup)
    (h : Grouped candidates map) (hcount : count < candidates.length)
    (hprefers : ∀ order : RegionMap, order.Perm map →
      MemoryRegionSelector.preferDifferent.Prefers candidates count
        ((order.flatMap Prod.snd).take count))
    {region other : MemoryRegionId} (hregion : region ∈ regionsOf candidates)
    (hother : other ∈ regionsOf candidates) (hne : region ≠ other) :
    min (inRegion candidates region).length count + candidates.length ≤
      max ((inRegion candidates other).length + count) candidates.length + 1 := by
  rw [h.regionsOf, List.mem_toFinset] at hregion hother
  obtain ⟨first, hfirst, rfl⟩ := List.mem_map.mp hregion
  obtain ⟨last, hlast, rfl⟩ := List.mem_map.mp hother
  obtain ⟨others, hperm⟩ := exists_perm_ends hfirst hlast fun heq => hne (congrArg Prod.fst heq)
  obtain ⟨hmost, hleast⟩ := lengths_of_ends (h.perm hperm) (Nat.le_of_lt hcount)
  obtain ⟨hvalue, hsome⟩ := h.entry last hlast
  rw [← (h.entry first hfirst).1, ← hvalue]
  have hpos : 0 < last.2.length := List.length_pos_iff.mpr hsome
  have hleft := exists_left hids (((first :: (others ++ [last])).flatMap Prod.snd).take count)
    last.1 (by rw [← hvalue]; omega)
  have hspread := hprefers _ hperm first.1 last.1 hleft
  omega

theorem length_add_le (candidates : List Processor) {region other : MemoryRegionId}
    (hne : region ≠ other) :
    (inRegion candidates region).length + (inRegion candidates other).length ≤
      candidates.length := by
  have hall := List.length_eq_length_filter_add
    (l := candidates) fun p => decide (p.memoryRegionId = region)
  have hsub : (inRegion candidates other).Sublist
      (candidates.filter fun p => !decide (p.memoryRegionId = region)) := by
    refine List.monotone_filter_right _ fun p hp => ?_
    rw [of_decide_eq_true hp, decide_eq_false hne.symm]
    rfl
  have := hsub.length_le
  unfold inRegion at *
  omega

theorem length_pos_of_mem {region : MemoryRegionId} (h : region ∈ regionsOf candidates) :
    0 < (inRegion candidates region).length := by
  obtain ⟨p, hp, hregion⟩ := mem_regionsOf.mp h
  exact List.length_pos_of_mem (mem_inRegion.mpr ⟨hp, hregion⟩)

/-- There is nothing to prefer where nothing is left out. -/
theorem prefers_all {processors : List Processor} (selector : MemoryRegionSelector)
    (hpicks : Picks candidates candidates.length processors) :
    selector.Prefers candidates candidates.length processors := by
  have hperm : processors.Perm candidates :=
    hpicks.subperm.perm_of_length_le (Nat.le_of_eq hpicks.length.symm)
  cases selector with
  | any => trivial
  | requireSame => trivial
  | requireDifferent => trivial
  | preferSame =>
    intro regions hhold
    have hall := List.length_filter_eq_length_iff.mp
      (Nat.le_antisymm (List.length_filter_le _ _) hhold)
    refine Finset.card_le_card fun region hin => ?_
    obtain ⟨p, hp, hregion⟩ := mem_regionsOf.mp hin
    exact hregion ▸ of_decide_eq_true (hall p (hperm.subset hp))
  | preferDifferent =>
    intro region other ⟨p, hp, _, hout⟩
    exact absurd (hperm.symm.subset hp) hout

theorem keeps_of_preferDifferent (hids : (candidates.map Processor.id).Nodup)
    (h : Grouped candidates map) (hpos : 0 < count) (hcount : count < candidates.length)
    (hprefers : ∀ order : RegionMap, order.Perm map →
      MemoryRegionSelector.preferDifferent.Prefers candidates count
        ((order.flatMap Prod.snd).take count)) :
    MemoryRegionSelector.preferDifferent.KeepsPreference candidates count := by
  have hpair {region other : MemoryRegionId} (hregion : region ∈ regionsOf candidates)
      (hother : other ∈ regionsOf candidates) (hne : region ≠ other) :=
    length_le_of_preferDifferent hids h hcount hprefers hregion hother hne
  by_cases hone : count = 1
  · exact .inl hone
  by_cases honly : (regionsOf candidates).card = 1
  · exact .inr (.inl honly)
  by_cases hsingle : ∀ region ∈ regionsOf candidates, (inRegion candidates region).length = 1
  · exact .inr (.inr (.inl hsingle))
  -- a region of two or more is as large as every other one, and one processor goes
  obtain ⟨large, hlarge, hsize⟩ : ∃ region ∈ regionsOf candidates,
      (inRegion candidates region).length ≠ 1 := by
    push Not at hsingle
    exact hsingle
  have htwo := length_pos_of_mem hlarge
  have hsame : ∀ region ∈ regionsOf candidates, region ≠ large →
      (inRegion candidates region).length = (inRegion candidates large).length ∧
        count + 1 = candidates.length := by
    intro region hregion hne
    have hthere := hpair hlarge hregion hne.symm
    have hback := hpair hregion hlarge hne
    have hboth := length_add_le candidates hne
    omega
  refine .inr (.inr (.inr ⟨?_, fun region hregion other hother => ?_⟩))
  · obtain ⟨region, hregion, hne⟩ : ∃ region ∈ regionsOf candidates, region ≠ large := by
      by_contra hnone
      push Not at hnone
      exact honly (Finset.card_eq_one.mpr ⟨large, Finset.eq_singleton_iff_unique_mem.mpr
        ⟨hlarge, hnone⟩⟩)
    exact (hsame region hregion hne).2
  · have heq : ∀ r ∈ regionsOf candidates,
        (inRegion candidates r).length = (inRegion candidates large).length := by
      intro r hr
      by_cases hr' : r = large
      · rw [hr']
      · exact (hsame r hr hr').1
    rw [heq region hregion, heq other hother]

end Preferences

/-! ## The contract -/

namespace ProcessorSetBuilder

variable (b : ProcessorSetBuilder)

/-- What `take_all` does, for every order of the regions and every draw. -/
theorem mem_takeAll {result : Option ProcessorSet} :
    result ∈ b.takeAll ↔ ∃ map, map.Perm b.candidatesByMemoryRegion ∧
      (map = [] ∧ result = none ∨ map ≠ [] ∧ ∃ processors ∈ b.selectAll map,
        b.intoSet (b.reduceProcessorsUntilUnderQuota processors) = result) := by
  unfold takeAll
  rw [List.mem_flatMap]
  refine exists_congr fun map => and_congr mem_shuffles ?_
  cases map with
  | nil => simp
  | cons e rest => simp

/-- What is left under the quota is a set. -/
theorem intoSet_reduce {processors : List Processor} (hne : processors ≠ []) :
    ∃ set, b.intoSet (b.reduceProcessorsUntilUnderQuota processors) = some set ∧
      set.processors.toList =
        processors.take (capped b.resourceQuotaProcessorCountLimit processors.length) := by
  have hpos := b.capped_pos (List.length_pos_iff.mpr hne)
  rw [reduceProcessorsUntilUnderQuota_eq_take]
  have hleft : processors.take (capped b.resourceQuotaProcessorCountLimit processors.length) ≠
      [] := by
    rw [Ne, List.take_eq_nil_iff]
    exact fun hor => hor.elim (Nat.ne_of_gt hpos) hne
  obtain ⟨set, hfrom⟩ := NonEmpty.exists_fromVec hleft
  refine ⟨⟨set, b.hardware⟩, ?_, NonEmpty.toList_of_fromVec hfrom⟩
  rw [intoSet, hfrom]
  rfl

theorem exists_mem_takeAll : ∃ result, result ∈ b.takeAll := by
  refine exists_mem_flatMap (exists_mem_shuffles _) fun map hmap => ?_
  have h := (grouped_candidatesByMemoryRegion b).perm (mem_shuffles.mp hmap)
  cases map with
  | nil => exact ⟨none, List.mem_singleton_self _⟩
  | cons e rest => exact exists_mem_map _ (exists_mem_selectAll b h (List.cons_ne_nil _ _))

/-- The quota leaves the preference be. -/
def QuotaKeepsPreference : Prop :=
  ∀ limit, b.resourceQuotaProcessorCountLimit = some limit → limit < b.candidates.length →
    b.memoryRegionSelector.KeepsPreference b.candidates limit

theorem prefers_of_keeps {map : RegionMap} (h : Grouped b.candidates map)
    (hkeeps : b.QuotaKeepsPreference) {processors : List Processor}
    (hmem : processors ∈ b.selectAll map) {count : Nat}
    (hcount : count = capped b.resourceQuotaProcessorCountLimit processors.length)
    (hpicks : Picks b.candidates count (processors.take count)) :
    b.memoryRegionSelector.Prefers b.candidates count (processors.take count) := by
  obtain ⟨hallows, -, -⟩ := selectAll_spec b h hmem
  have hcut : processors.length = b.candidates.length → ¬ count = b.candidates.length →
      b.memoryRegionSelector.KeepsPreference b.candidates count := by
    intro hall hne
    rw [hall] at hcount
    have hlt : count < b.candidates.length :=
      Nat.lt_of_le_of_ne (hcount ▸ capped_le ..) hne
    exact hkeeps count (hcount ▸ eq_some_of_capped_lt (hcount ▸ hlt)) hlt
  unfold selectAll at hmem
  cases hsel : b.memoryRegionSelector with
  | any => trivial
  | requireSame => trivial
  | requireDifferent => trivial
  | preferSame =>
    rw [hsel] at hallows hcut hmem
    by_cases hall : count = b.candidates.length
    · rw [hall] at hpicks ⊢
      exact prefers_all _ hpicks
    · obtain rfl := List.mem_singleton.mp hmem
      exact preferSame_of_keeps h (hcut hallows hall)
  | preferDifferent =>
    rw [hsel] at hallows hcut
    by_cases hall : count = b.candidates.length
    · rw [hall] at hpicks ⊢
      exact prefers_all _ hpicks
    · exact preferDifferent_of_keeps hpicks (hcut hallows hall)

/-- The preference of every order of the regions, when all of them are taken. -/
theorem prefers_of_contract (h : ∀ result ∈ b.takeAll, TakeAllContract b result)
    {limit : Nat} (hlimit : b.resourceQuotaProcessorCountLimit = some limit)
    (hlt : limit < b.candidates.length)
    (hselect : ∀ map, b.selectAll map = [map.flatMap Prod.snd])
    (hallows : ∀ processors allowed,
      b.memoryRegionSelector.Allows b.candidates processors allowed →
        allowed = b.candidates.length)
    {order : RegionMap} (horder : order.Perm b.candidatesByMemoryRegion) :
    b.memoryRegionSelector.Prefers b.candidates limit
      ((order.flatMap Prod.snd).take limit) := by
  have hlen := ((grouped_candidatesByMemoryRegion b).perm horder).perm_flatMap.length_eq
  have hne : order.flatMap Prod.snd ≠ [] := by
    intro hnil
    rw [hnil, List.length_nil] at hlen
    omega
  have hsome : order ≠ [] := fun hnil => hne (hnil ▸ rfl)
  obtain ⟨set, hinto, hset⟩ := b.intoSet_reduce hne
  have hmem : some set ∈ b.takeAll := by
    refine b.mem_takeAll.mpr ⟨order, horder, .inr ⟨hsome, _, ?_, hinto⟩⟩
    rw [hselect]
    exact List.mem_singleton_self _
  obtain ⟨allowed, count, hallowed, hcount, -, -, hprefers⟩ := (h _ hmem).some set rfl
  rw [hallows _ _ hallowed, hlimit, capped_some_of_lt hlt] at hcount
  rw [hlen, hlimit, capped_some_of_lt hlt] at hset
  rwa [hset, hcount] at hprefers

theorem keeps_of_contract (h : ∀ result ∈ b.takeAll, TakeAllContract b result) :
    b.QuotaKeepsPreference := by
  intro limit hlimit hlt
  have hgrouped := grouped_candidatesByMemoryRegion b
  have hpos : 0 < limit := by
    have hcapped := b.capped_pos (Nat.zero_lt_of_lt hlt)
    rwa [hlimit, capped_some_of_lt hlt] at hcapped
  have hprefers := b.prefers_of_contract h hlimit hlt
  unfold selectAll at hprefers
  cases hsel : b.memoryRegionSelector with
  | any => trivial
  | requireSame => trivial
  | requireDifferent => trivial
  | preferSame =>
    rw [hsel] at hprefers
    exact keeps_of_preferSame hgrouped (Nat.le_of_lt hlt) fun order horder =>
      hprefers (fun _ => rfl) (fun _ _ hallowed => hallowed) horder
  | preferDifferent =>
    rw [hsel] at hprefers
    exact keeps_of_preferDifferent b.nodup_candidates hgrouped hpos hlt fun order horder =>
      hprefers (fun _ => rfl) (fun _ _ hallowed => hallowed) horder

theorem contract_of_keeps (hkeeps : b.QuotaKeepsPreference) {result : Option ProcessorSet}
    (hmem : result ∈ b.takeAll) : TakeAllContract b result := by
  obtain ⟨map, hperm, ⟨rfl, rfl⟩ | ⟨hne, processors, hselected, rfl⟩⟩ := b.mem_takeAll.mp hmem
  · -- no region has a candidate
    have hnone := ((grouped_candidatesByMemoryRegion b).perm hperm).perm_flatMap
    exact ⟨⟨fun _ => hnone.nil_eq.symm, fun _ => rfl⟩, nofun⟩
  · have h := (grouped_candidatesByMemoryRegion b).perm hperm
    have hprocessors := selectAll_ne_nil b h hne hselected
    obtain ⟨set, hinto, hset⟩ := b.intoSet_reduce hprocessors
    obtain ⟨hallows, hpicks, hrequires⟩ := selectAll_spec b h hselected
    have hpart := hpicks.take (capped_le b.resourceQuotaProcessorCountLimit processors.length)
    rw [hinto]
    refine ⟨⟨nofun, fun hempty => ?_⟩, fun other heq => ?_⟩
    · obtain ⟨p, hp⟩ := List.exists_mem_of_ne_nil _ hprocessors
      exact absurd (hpicks.subset p hp) (hempty ▸ List.not_mem_nil)
    · obtain rfl := Option.some.inj heq
      rw [hset]
      exact ⟨processors.length, _, hallows.take _, rfl, hpart, hrequires.take _,
        b.prefers_of_keeps h hkeeps hselected rfl hpart⟩

end ProcessorSetBuilder

/-- **`take_all` keeps its contract where the quota leaves the preference be.** -/
theorem takeAll_contract_iff (b : ProcessorSetBuilder) :
    (∃ result, result ∈ b.takeAll) ∧
      ((∀ result ∈ b.takeAll, TakeAllContract b result) ↔ b.QuotaKeepsPreference) :=
  ⟨b.exists_mem_takeAll, b.keeps_of_contract, fun hkeeps _ hmem => b.contract_of_keeps hkeeps hmem⟩

/-- A memory region of one processor and another one of four, with processor
time for three. -/
def smallAndLarge : Platform where
  getAllProcessors := ⟨⟨0, 0, .performance⟩, [⟨1, 1, .performance⟩, ⟨2, 1, .performance⟩,
    ⟨3, 1, .performance⟩, ⟨4, 1, .performance⟩]⟩
  maxProcessorId := 4
  maxProcessorTime := 3
  nodup := by decide
  le_max := by decide

/-- `all_processors().to_builder().prefer_same_memory_region().enforce_resource_quota()` -/
def preferSameUnderQuota : ProcessorSetBuilder where
  processorTypeSelector := .any
  memoryRegionSelector := .preferSame
  exceptIndexes := ∅
  obeyResourceQuota := true
  sourceProcessorIds := none
  hardware := ⟨0, smallAndLarge⟩

/-- The small region may come first, and then two of the large one, which has
room for all three. -/
theorem small_region_first :
    ¬ ∀ result ∈ preferSameUnderQuota.takeAll, TakeAllContract preferSameUnderQuota result := by
  intro h
  have hkeeps := preferSameUnderQuota.keeps_of_contract h 3 rfl (by decide)
  exact absurd (hkeeps {1} {0} (by decide) rfl (by decide)) (by decide)

end Folo.ManyCpus
