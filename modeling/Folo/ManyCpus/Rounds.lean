import Folo.ManyCpus.Selection

/-!
# Rounds over the regions

`prefer_different_memory_regions` takes a processor of each region that has
one left, round after round. At the start of a round the regions that are
still in the map have given one processor for each round before it, and the
others no more (`Dealt`).
-/

namespace Folo.ManyCpus

open Folo.Lib

variable {candidates processors : List Processor} {count : Nat} {map : RegionMap}

theorem count_inRegion (p : Processor) (xs : List Processor) :
    (inRegion xs p.memoryRegionId).count p = xs.count p :=
  List.count_filter (decide_eq_true rfl)

theorem subperm_of_inRegion {xs ys : List Processor}
    (h : ∀ region, (inRegion xs region).Subperm (inRegion ys region)) : xs.Subperm ys := by
  refine List.subperm_ext_iff.mpr fun p _ => ?_
  rw [← count_inRegion, ← count_inRegion p ys]
  exact (h _).count_le p

/-! ## One round -/

/-- The candidates of an entry are in its region. -/
def InRegions (map : RegionMap) : Prop :=
  ∀ e ∈ map, ∀ p ∈ e.2, p.memoryRegionId = e.1

/-- What a round does: a region gives at most one processor, and exactly one
when the round is not cut short. -/
structure RoundDone (count : Nat) (map : RegionMap) (processors : List Processor)
    (map' : RegionMap) (processors' : List Processor) : Prop where
  keys : map'.map Prod.fst = map.map Prod.fst
  regions : InRegions map'
  perm : ∀ region, (inRegion processors' region ++ map'.get region).Perm
    (inRegion processors region ++ map.get region)
  lower : ∀ region, (inRegion processors region).length ≤ (inRegion processors' region).length
  upper : ∀ region, (inRegion processors' region).length ≤
    (inRegion processors region).length + 1
  full : processors'.length = count ∨ processors'.length < count ∧ ∀ region ∈ map.map Prod.fst,
    (inRegion processors' region).length = (inRegion processors region).length + 1
  grows : processors.length ≤ processors'.length
  adds : map ≠ [] → processors.length < processors'.length

/-- At the start of a round, `n` rounds have been dealt. -/
structure Dealt (candidates : List Processor) (n : Nat) (map : RegionMap)
    (processors : List Processor) : Prop where
  keys : (map.map Prod.fst).Nodup
  regions : InRegions map
  left : ∀ e ∈ map, e.2 ≠ []
  perm : ∀ region, (inRegion processors region ++ map.get region).Perm
    (inRegion candidates region)
  level : ∀ region ∈ map.map Prod.fst, (inRegion processors region).length = n
  bound : ∀ region, (inRegion processors region).length ≤ n

theorem get_filter_left (hkeys : (map.map Prod.fst).Nodup) (region : MemoryRegionId) :
    RegionMap.get (map.filter fun e => !e.2.isEmpty) region = map.get region := by
  induction map with
  | nil => rfl
  | cons e rest ih =>
    rw [List.map_cons, List.nodup_cons] at hkeys
    rw [RegionMap.get]
    by_cases hempty : e.2.isEmpty = true
    · rw [List.filter_cons_of_neg (by rw [hempty]; exact Bool.false_ne_true), ih hkeys.2]
      by_cases hr : e.1 = region
      · rw [if_pos hr, List.isEmpty_iff.mp hempty, ← hr, RegionMap.get_of_not_mem hkeys.1]
      · rw [if_neg hr]
    · rw [List.filter_cons_of_pos (by rw [Bool.eq_false_of_not_eq_true hempty]; rfl), RegionMap.get,
        ih hkeys.2]

variable {map' : RegionMap} {processors' : List Processor} {n : Nat}

theorem Dealt.subperm (h : Dealt candidates n map processors)
    (hround : RoundDone count map processors map' processors') :
    processors'.Subperm candidates :=
  subperm_of_inRegion fun region =>
    ((List.sublist_append_left ..).subperm).trans
      ((hround.perm region).trans (h.perm region)).subperm

theorem Dealt.next (h : Dealt candidates n map processors)
    (hround : RoundDone count map processors map' processors')
    (hshort : processors'.length ≠ count) :
    Dealt candidates (n + 1) (map'.filter fun e => !e.2.isEmpty) processors' := by
  have hkeys : (map'.map Prod.fst).Nodup := hround.keys ▸ h.keys
  have heach := (hround.full.resolve_left hshort).2
  refine ⟨hkeys.sublist (List.filter_sublist.map _),
    fun e he => hround.regions e (List.mem_filter.mp he).1, fun e he hnil => ?_, fun region => ?_,
    fun region hr => ?_, fun region => ?_⟩
  · have hleft := (List.mem_filter.mp he).2
    rw [hnil] at hleft
    exact Bool.false_ne_true hleft
  · rw [get_filter_left hkeys]
    exact (hround.perm region).trans (h.perm region)
  · have hkey := hround.keys ▸ (List.filter_sublist.map _).subset hr
    rw [heach region hkey, h.level region hkey]
  · exact (hround.upper region).trans (Nat.succ_le_succ (h.bound region))

end Folo.ManyCpus
