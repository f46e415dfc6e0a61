import Mathlib.Data.Finset.Dedup
import Folo.ManyCpus.ProcessorSetBuilder

/-!
# Candidates by region

The map of the candidates has an entry for each region with a candidate, and
the entry has all of the region's candidates (`Grouped`). That is so in
whatever order it is walked.
-/

namespace Folo.ManyCpus

/-- The processors of a region. -/
def inRegion (processors : List Processor) (region : MemoryRegionId) : List Processor :=
  processors.filter fun p => p.memoryRegionId = region

theorem mem_inRegion {processors : List Processor} {region : MemoryRegionId} {p : Processor} :
    p ∈ inRegion processors region ↔ p ∈ processors ∧ p.memoryRegionId = region := by
  rw [inRegion, List.mem_filter, decide_eq_true_iff]

theorem inRegion_append (xs ys : List Processor) (region : MemoryRegionId) :
    inRegion (xs ++ ys) region = inRegion xs region ++ inRegion ys region :=
  List.filter_append ..

theorem inRegion_singleton (p : Processor) (region : MemoryRegionId) :
    inRegion [p] region = if p.memoryRegionId = region then [p] else [] := by
  by_cases h : p.memoryRegionId = region
  · rw [if_pos h]
    exact List.filter_cons_of_pos (decide_eq_true h)
  · rw [if_neg h]
    exact List.filter_cons_of_neg (by simpa using h)

/-- The entries of a map, whose keys differ, are the regions of `candidates`. -/
structure Grouped (candidates : List Processor) (map : RegionMap) : Prop where
  keys : (map.map Prod.fst).Nodup
  entry : ∀ e ∈ map, e.2 = inRegion candidates e.1 ∧ e.2 ≠ []
  complete : ∀ p ∈ candidates, p.memoryRegionId ∈ map.map Prod.fst

namespace RegionMap

theorem get_of_mem {map : RegionMap} (hkeys : (map.map Prod.fst).Nodup)
    {e : MemoryRegionId × List Processor} (he : e ∈ map) : map.get e.1 = e.2 := by
  induction map with
  | nil => exact absurd he List.not_mem_nil
  | cons first rest ih =>
    rw [List.map_cons, List.nodup_cons] at hkeys
    rw [RegionMap.get]
    rcases List.mem_cons.mp he with rfl | hin
    · exact if_pos rfl
    · have hne : first.1 ≠ e.1 := fun h => hkeys.1 (h ▸ List.mem_map_of_mem hin)
      rw [if_neg hne]
      exact ih hkeys.2 hin

theorem get_of_not_mem {map : RegionMap} {region : MemoryRegionId}
    (h : region ∉ map.map Prod.fst) : map.get region = [] := by
  induction map with
  | nil => rfl
  | cons first rest ih =>
    rw [List.map_cons, List.mem_cons, not_or] at h
    rw [RegionMap.get, if_neg (Ne.symm h.1)]
    exact ih h.2

theorem keys_pushInto (region : MemoryRegionId) (p : Processor) (map : RegionMap) :
    (map.pushInto region p).map Prod.fst =
      if region ∈ map.map Prod.fst then map.map Prod.fst else map.map Prod.fst ++ [region] := by
  induction map with
  | nil => rfl
  | cons first rest ih =>
    rw [pushInto]
    by_cases h : first.1 = region
    · rw [if_pos h, if_pos (by rw [List.map_cons, h]; exact List.mem_cons_self ..)]
      rfl
    · rw [if_neg h, List.map_cons, ih, List.map_cons]
      by_cases hin : region ∈ rest.map Prod.fst
      · rw [if_pos hin, if_pos (List.mem_cons_of_mem _ hin)]
      · rw [if_neg hin, if_neg fun hcons => (List.mem_cons.mp hcons).elim (Ne.symm h) hin]
        rfl

theorem get_pushInto (region r : MemoryRegionId) (p : Processor) (map : RegionMap) :
    (map.pushInto region p).get r = if region = r then map.get r ++ [p] else map.get r := by
  induction map with
  | nil => rfl
  | cons first rest ih =>
    rw [pushInto]
    by_cases h : first.1 = region
    · rw [if_pos h, RegionMap.get, RegionMap.get, h]
      by_cases hr : region = r
      · rw [if_pos hr, if_pos hr, if_pos hr]
      · rw [if_neg hr, if_neg hr, if_neg hr]
    · rw [if_neg h, RegionMap.get, RegionMap.get, ih]
      by_cases hr : first.1 = r
      · rw [if_pos hr, if_pos hr, if_neg fun heq => h (hr.trans heq.symm)]
      · rw [if_neg hr, if_neg hr]

end RegionMap

namespace Grouped

variable {candidates : List Processor} {map : RegionMap}

theorem get (h : Grouped candidates map) (region : MemoryRegionId) :
    map.get region = inRegion candidates region := by
  by_cases hin : region ∈ map.map Prod.fst
  · obtain ⟨e, he, rfl⟩ := List.mem_map.mp hin
    rw [RegionMap.get_of_mem h.keys he, (h.entry e he).1]
  · rw [RegionMap.get_of_not_mem hin]
    refine (List.filter_eq_nil_iff.mpr fun p hp hregion => hin ?_).symm
    exact of_decide_eq_true hregion ▸ h.complete p hp

theorem perm (h : Grouped candidates map) {map' : RegionMap} (hperm : map'.Perm map) :
    Grouped candidates map' where
  keys := (hperm.map Prod.fst).nodup_iff.mpr h.keys
  entry e he := h.entry e (hperm.mem_iff.mp he)
  complete p hp := (hperm.map Prod.fst).mem_iff.mpr (h.complete p hp)

/-- One more candidate, at the end. -/
theorem push (h : Grouped candidates map) (p : Processor) :
    Grouped (candidates ++ [p]) (map.pushInto p.memoryRegionId p) := by
  have hkeys : ((map.pushInto p.memoryRegionId p).map Prod.fst).Nodup := by
    rw [RegionMap.keys_pushInto]
    split
    · exact h.keys
    · next hnew =>
      exact List.nodup_append.mpr ⟨h.keys, List.nodup_singleton _, fun a ha b hb heq =>
        hnew (List.mem_singleton.mp hb ▸ heq ▸ ha)⟩
  have hget : ∀ region, (map.pushInto p.memoryRegionId p).get region =
      inRegion (candidates ++ [p]) region := fun region => by
    rw [RegionMap.get_pushInto, inRegion_append, inRegion_singleton, h.get]
    split
    · rfl
    · rw [List.append_nil]
  have hmem : ∀ region, region ∈ (map.pushInto p.memoryRegionId p).map Prod.fst ↔
      region ∈ map.map Prod.fst ∨ region = p.memoryRegionId := fun region => by
    rw [RegionMap.keys_pushInto]
    split
    · next hold => exact ⟨.inl, fun hor => hor.elim id fun heq => heq ▸ hold⟩
    · rw [List.mem_append, List.mem_singleton]
  refine ⟨hkeys, fun e he => ?_, fun q hq => (hmem _).mpr ?_⟩
  · have hvalue : e.2 = inRegion (candidates ++ [p]) e.1 := by
      rw [← RegionMap.get_of_mem hkeys he, hget]
    refine ⟨hvalue, fun hnil => ?_⟩
    -- a region is in the map because a candidate is in the region
    have hnone : ∀ q ∈ candidates ++ [p], q.memoryRegionId ≠ e.1 := fun q hq heq =>
      List.not_mem_nil (hnil ▸ hvalue ▸ mem_inRegion.mpr ⟨hq, heq⟩)
    rcases (hmem e.1).mp (List.mem_map_of_mem he) with hold | hnew
    · obtain ⟨old, hin, heq⟩ := List.mem_map.mp hold
      obtain ⟨q, hq⟩ := List.exists_mem_of_ne_nil _ (h.entry old hin).2
      rw [(h.entry old hin).1] at hq
      exact hnone q (List.mem_append_left _ (mem_inRegion.mp hq).1)
        ((mem_inRegion.mp hq).2.trans heq)
    · exact hnone p (List.mem_append_right _ (List.mem_singleton_self _)) hnew.symm
  · exact (List.mem_append.mp hq).imp (h.complete q) fun hin =>
      congrArg Processor.memoryRegionId (List.mem_singleton.mp hin)

theorem foldl (h : Grouped candidates map) (more : List Processor) :
    Grouped (candidates ++ more)
      (more.foldl (fun map p => map.pushInto p.memoryRegionId p) map) := by
  induction more generalizing candidates map with
  | nil => exact (List.append_nil candidates).symm ▸ h
  | cons p more ih =>
    have hrest := ih (h.push p)
    rwa [List.append_assoc] at hrest

/-- The other entries are the candidates of the other regions. -/
theorem tail {first : MemoryRegionId × List Processor}
    (h : Grouped candidates (first :: map)) :
    Grouped (candidates.filter fun p => !decide (p.memoryRegionId = first.1)) map := by
  have hkeys := h.keys
  rw [List.map_cons, List.nodup_cons] at hkeys
  refine ⟨hkeys.2, fun e he => ?_, fun p hp => ?_⟩
  · obtain ⟨hvalue, hne⟩ := h.entry e (List.mem_cons_of_mem _ he)
    refine ⟨?_, hne⟩
    rw [hvalue, inRegion, inRegion, List.filter_filter]
    refine List.filter_congr fun p _ => ?_
    have hother : p.memoryRegionId = e.1 → p.memoryRegionId ≠ first.1 := fun heq hfirst =>
      hkeys.1 (hfirst ▸ heq ▸ List.mem_map_of_mem he)
    by_cases heq : p.memoryRegionId = e.1
    · simp [heq, heq ▸ hother heq]
    · simp [heq]
  · obtain ⟨hin, hne⟩ := List.mem_filter.mp hp
    have hregion := h.complete p hin
    rw [List.map_cons, List.mem_cons] at hregion
    exact hregion.resolve_left (by simpa using hne)

/-- The map holds every candidate once. -/
theorem perm_flatMap (h : Grouped candidates map) : (map.flatMap Prod.snd).Perm candidates := by
  induction map generalizing candidates with
  | nil =>
    cases candidates with
    | nil => exact .refl _
    | cons p rest => exact absurd (h.complete p (List.mem_cons_self ..)) List.not_mem_nil
  | cons first rest ih =>
    rw [List.flatMap_cons, (h.entry first (List.mem_cons_self ..)).1]
    exact ((ih h.tail).append_left _).trans (List.filter_append_perm _ candidates)

/-- The candidates of some regions, counted region by region. -/
theorem length_filter (h : Grouped candidates map) (chosen : MemoryRegionId → Bool) :
    (candidates.filter fun p => chosen p.memoryRegionId).length =
      ((map.filter fun e => chosen e.1).map fun e => e.2.length).sum := by
  induction map generalizing candidates with
  | nil => rw [← (h.perm_flatMap.filter _).length_eq]; rfl
  | cons first rest ih =>
    have hsplit := List.filter_append_perm (fun p => decide (p.memoryRegionId = first.1)) candidates
    rw [← (hsplit.filter _).length_eq, List.filter_append, List.length_append, ih h.tail]
    have hfirst : (candidates.filter fun p => decide (p.memoryRegionId = first.1)) = first.2 :=
      (h.entry first (List.mem_cons_self ..)).1.symm
    have hregion : ∀ p ∈ first.2, p.memoryRegionId = first.1 := fun p hp =>
      (mem_inRegion.mp ((h.entry first (List.mem_cons_self ..)).1 ▸ hp)).2
    rw [hfirst]
    -- either every candidate of the first region counts, or none does
    cases hc : chosen first.1 with
    | true =>
      have hall : first.2.filter (fun p => chosen p.memoryRegionId) = first.2 :=
        List.filter_eq_self.mpr fun p hp => by rw [hregion p hp, hc]
      rw [hall, List.filter_cons, if_pos hc, List.map_cons, List.sum_cons]
    | false =>
      have hnone : first.2.filter (fun p => chosen p.memoryRegionId) = [] :=
        List.filter_eq_nil_iff.mpr fun p hp => by
          rw [hregion p hp, hc]
          exact Bool.false_ne_true
      rw [hnone, List.filter_cons, if_neg (by rw [hc]; exact Bool.false_ne_true)]
      exact Nat.zero_add _

end Grouped

theorem grouped_candidatesByMemoryRegion (b : ProcessorSetBuilder) :
    Grouped b.candidates b.candidatesByMemoryRegion :=
  have hempty : Grouped [] [] := ⟨List.nodup_nil, fun _ he => absurd he List.not_mem_nil, nofun⟩
  hempty.foldl b.candidates

theorem ProcessorSetBuilder.nodup_candidates (b : ProcessorSetBuilder) :
    (b.candidates.map Processor.id).Nodup := by
  have hall : (b.allProcessors.toList.map Processor.id).Nodup := by
    rw [allProcessors, NonEmpty.toList_map, List.map_map]
    exact b.hardware.platform.nodup
  refine hall.sublist (List.Sublist.map _ (List.filter_sublist.trans ?_))
  unfold candidateProcessors
  split
  · exact List.filter_sublist
  · exact List.Sublist.refl _

end Folo.ManyCpus
