import Folo.ManyCpus.Regions

/-!
# What `take` selects

A selection is of as many different candidates as were asked for, meets what
its selector requires, and is as good as the candidates allow in what its
selector prefers. `take` returns one whenever there is any, save that it
returns too many processors when the regions are filled one after another
and none of them ends where `count` does.
-/

namespace Folo.ManyCpus

open Folo.Lib

/-! ## What a selection is -/

/-- What the selector demands of a selection. -/
def MemoryRegionSelector.Requires (selector : MemoryRegionSelector)
    (processors : List Processor) : Prop :=
  match selector with
  | .requireSame => ∃ region, ∀ p ∈ processors, p.memoryRegionId = region
  | .requireDifferent => (processors.map Processor.memoryRegionId).Nodup
  | .any | .preferSame | .preferDifferent => True

/-- What the selector prefers: as few regions as can hold `count` candidates,
or no region ahead of another that has a candidate left by more than one. -/
def MemoryRegionSelector.Prefers (selector : MemoryRegionSelector) (candidates : List Processor)
    (count : Nat) (processors : List Processor) : Prop :=
  match selector with
  | .preferSame => ∀ regions : Finset MemoryRegionId,
      count ≤ (candidates.filter fun p => p.memoryRegionId ∈ regions).length →
        (processors.map Processor.memoryRegionId).toFinset.card ≤ regions.card
  | .preferDifferent => ∀ region other,
      (∃ p ∈ candidates, p.memoryRegionId = other ∧ p ∉ processors) →
        (inRegion processors region).length ≤ (inRegion processors other).length + 1
  | .any | .requireSame | .requireDifferent => True

/-- As many different candidates as were asked for. -/
structure Picks (candidates : List Processor) (count : Nat) (processors : List Processor) :
    Prop where
  length : processors.length = count
  distinct : (processors.map Processor.id).Nodup
  subset : ∀ p ∈ processors, p ∈ candidates

def Satisfiable (selector : MemoryRegionSelector) (candidates : List Processor) (count : Nat) :
    Prop :=
  ∃ processors, Picks candidates count processors ∧ selector.Requires processors

/-- The right result for a selector. -/
structure Selects (selector : MemoryRegionSelector) (candidates : List Processor) (count : Nat)
    (result : Option (List Processor)) : Prop where
  none_iff : result = none ↔ ¬ Satisfiable selector candidates count
  some : ∀ processors, result = some processors → Picks candidates count processors ∧
    selector.Requires processors ∧ selector.Prefers candidates count processors

section Picks

variable {candidates processors : List Processor} {count : Nat} {map : RegionMap}

theorem nodup_of_ids (hids : (candidates.map Processor.id).Nodup) : candidates.Nodup :=
  hids.of_map _

theorem picks_of_nodup (hids : (candidates.map Processor.id).Nodup)
    (hlen : processors.length = count) (hnodup : processors.Nodup)
    (hsub : ∀ p ∈ processors, p ∈ candidates) : Picks candidates count processors := by
  refine ⟨hlen, ?_, hsub⟩
  refine List.Nodup.map_on (fun p hp q hq heq => ?_) hnodup
  exact List.inj_on_of_nodup_map hids (hsub p hp) (hsub q hq) heq

theorem picks_of_subperm (hids : (candidates.map Processor.id).Nodup)
    (hlen : processors.length = count) (hsub : processors.Subperm candidates) :
    Picks candidates count processors := by
  refine picks_of_nodup hids hlen ?_ fun p hp => hsub.subset hp
  obtain ⟨zs, hperm, hzs⟩ := hsub
  exact hperm.nodup_iff.mp ((nodup_of_ids hids).sublist hzs)

theorem Picks.subperm (h : Picks candidates count processors) : processors.Subperm candidates :=
  List.subperm_of_subset (h.distinct.of_map _) h.subset

end Picks

/-! ## The selectors that draw once -/

section Draws

variable {candidates : List Processor} {count : Nat} {map : RegionMap}
  {result : Option (List Processor)}

theorem chooseEach_spec {entries : RegionMap}
    (hentries : ∀ e ∈ entries, ∀ p ∈ e.2, p ∈ candidates ∧ p.memoryRegionId = e.1)
    {processors : List Processor} (h : processors ∈ ProcessorSetBuilder.chooseEach entries) :
    processors.map Processor.memoryRegionId = entries.map Prod.fst ∧
      ∀ p ∈ processors, p ∈ candidates := by
  induction entries generalizing processors with
  | nil =>
    obtain rfl := List.mem_singleton.mp h
    exact ⟨rfl, nofun⟩
  | cons e entries ih =>
    obtain ⟨p, hp, hrest⟩ := List.mem_flatMap.mp h
    obtain ⟨others, hothers, rfl⟩ := List.mem_map.mp hrest
    obtain ⟨hregions, hsub⟩ := ih (fun e he => hentries e (List.mem_cons_of_mem _ he)) hothers
    obtain ⟨hin, hregion⟩ := hentries e (List.mem_cons_self ..) p hp
    refine ⟨?_, fun q hq => ?_⟩
    · rw [List.map_cons, List.map_cons, hregions, hregion]
    · exact (List.mem_cons.mp hq).elim (fun heq => heq ▸ hin) (hsub q)

theorem exists_mem_chooseEach {entries : RegionMap} (h : ∀ e ∈ entries, e.2 ≠ []) :
    ∃ processors, processors ∈ ProcessorSetBuilder.chooseEach entries := by
  induction entries with
  | nil => exact ⟨[], List.mem_singleton_self _⟩
  | cons e entries ih =>
    obtain ⟨others, hothers⟩ := ih fun e he => h e (List.mem_cons_of_mem _ he)
    obtain ⟨p, hp⟩ := List.exists_mem_of_ne_nil _ (h e (List.mem_cons_self ..))
    exact ⟨p :: others, List.mem_flatMap.mpr ⟨p, hp, List.mem_map_of_mem hothers⟩⟩

/-- One processor of each of some regions. -/
theorem picks_of_chooseEach (hids : (candidates.map Processor.id).Nodup)
    (h : Grouped candidates map) {entries : RegionMap} (hsub : entries.Subperm map)
    {processors : List Processor} (hp : processors ∈ ProcessorSetBuilder.chooseEach entries) :
    Picks candidates entries.length processors ∧
      (processors.map Processor.memoryRegionId).Nodup := by
  have hentries : ∀ e ∈ entries, ∀ p ∈ e.2, p ∈ candidates ∧ p.memoryRegionId = e.1 := by
    intro e he p hp
    rw [(h.entry e (hsub.subset he)).1] at hp
    exact mem_inRegion.mp hp
  obtain ⟨hregions, hin⟩ := chooseEach_spec hentries hp
  have hnodup : (processors.map Processor.memoryRegionId).Nodup := by
    rw [hregions]
    obtain ⟨zs, hperm, hzs⟩ := hsub
    exact (hperm.map Prod.fst).nodup_iff.mp (h.keys.sublist (hzs.map Prod.fst))
  refine ⟨picks_of_nodup hids ?_ (hnodup.of_map _) hin, hnodup⟩
  rw [← List.length_map (f := Processor.memoryRegionId), hregions, List.length_map]

end Draws

end Folo.ManyCpus
