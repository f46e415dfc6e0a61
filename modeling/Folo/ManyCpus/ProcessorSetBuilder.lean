import Mathlib.Data.PNat.Defs
import Mathlib.Data.Finset.Card
import Mathlib.Data.List.Sort
import Folo.Lib.Choices
import Folo.ManyCpus.Hardware

/-!
# `ProcessorSetBuilder::take` and `take_all`

The candidates are the processors that the filters leave, grouped by memory
region. The map of the groups is walked in the order of its hasher, which is
any order. What they may come to, for that order and for every draw, is the
list of their results.
-/

namespace Folo.ManyCpus

open Folo.Lib

inductive ProcessorTypeSelector where
  | any
  | performance
  | efficiency
  deriving DecidableEq

inductive MemoryRegionSelector where
  | any
  | requireSame
  | requireDifferent
  | preferSame
  | preferDifferent
  deriving DecidableEq

structure ProcessorSetBuilder where
  processorTypeSelector : ProcessorTypeSelector
  memoryRegionSelector : MemoryRegionSelector
  exceptIndexes : Finset ProcessorId
  obeyResourceQuota : Bool
  sourceProcessorIds : Option (Finset ProcessorId)
  hardware : SystemHardware

/-- `HashMap<MemoryRegionId, Vec<Processor>>`, the entries in the order in
which they are walked. -/
abbrev RegionMap := List (MemoryRegionId × List Processor)

namespace RegionMap

def get : RegionMap → MemoryRegionId → List Processor
  | [], _ => []
  | (region, processors) :: rest, r => if region = r then processors else RegionMap.get rest r

/-- `entry(region).or_insert_with(Vec::new).push(processor)` -/
def pushInto (region : MemoryRegionId) (processor : Processor) : RegionMap → RegionMap
  | [] => [(region, [processor])]
  | (r, processors) :: rest =>
    if r = region then (r, processors ++ [processor]) :: rest
    else (r, processors) :: pushInto region processor rest

end RegionMap

def usizeMax : Nat :=
  2 ^ 64 - 1

namespace ProcessorSetBuilder

variable (b : ProcessorSetBuilder)

def allProcessors : NonEmpty Processor :=
  b.hardware.platform.getAllProcessors.map (Processor.mk b.hardware.hardwareId)

def candidateProcessors : List Processor :=
  match b.sourceProcessorIds with
  | some sourceIds => b.allProcessors.toList.filter fun p => p.id ∈ sourceIds
  | none => b.allProcessors.toList

def isAcceptableType (p : Processor) : Bool :=
  match b.processorTypeSelector with
  | .any => true
  | .performance => p.efficiencyClass = .performance
  | .efficiency => p.efficiencyClass = .efficiency

/-- The processors that pass the filters. -/
def candidates : List Processor :=
  b.candidateProcessors.filter fun p => p.id ∉ b.exceptIndexes && b.isAcceptableType p

def candidatesByMemoryRegion : RegionMap :=
  b.candidates.foldl (fun map p => map.pushInto p.memoryRegionId p) []

/-- The quota in whole processors: never less than one, however little
processor time there is. -/
def resourceQuotaProcessorCountLimit : Option Nat :=
  if b.obeyResourceQuota then
    some (max (min b.hardware.platform.maxProcessorTime.floor.toNat usizeMax) 1)
  else none

def takeAny (candidates : RegionMap) (count : Nat) : List (Option (List Processor)) :=
  let allProcessors := candidates.flatMap Prod.snd
  if allProcessors.length < count then [none] else (samples allProcessors count).map some

/-- How many candidates of a region count for its place in the order. -/
def clampedLen (candidates : RegionMap) (count : Nat) (region : MemoryRegionId) : Nat :=
  min (candidates.get region).length count

/-- The loop over the regions, the largest of them first. `count` is what was
asked for, also when some of it has been chosen. -/
def fillFrom (candidates : RegionMap) (count : Nat) :
    List MemoryRegionId → List Processor → List (Option (List Processor))
  | [], processors => if processors.length < count then [none] else [some processors]
  | memoryRegion :: remaining, processors =>
    if processors.length < count then
      let processorsInRegion := candidates.get memoryRegion
      let chooseCount := min count processorsInRegion.length
      (samples processorsInRegion chooseCount).flatMap fun regionProcessors =>
        fillFrom candidates count remaining (processors ++ regionProcessors)
    else [some processors]

/-- The sort need not be stable, and need not be modelled as one that is not:
the shuffle has put regions of one size in any order before it. -/
def takePreferSame (candidates : RegionMap) (count : Nat) : List (Option (List Processor)) :=
  (shuffles (candidates.map Prod.fst)).flatMap fun regions =>
    let sorted := regions.insertionSort fun x y =>
      clampedLen candidates count x ≤ clampedLen candidates count y
    fillFrom candidates count sorted.reverse []

def takeRequireSame (candidates : RegionMap) (count : Nat) : List (Option (List Processor)) :=
  let qualifying := (candidates.filter fun e => count ≤ e.2.length).map Prod.fst
  (choices qualifying).flatMap fun
    | none => [none]
    | some memoryRegion => (samples (candidates.get memoryRegion) count).map some

/-- The `for` loop of a round: one processor from each region, until there are
enough. -/
def takeRound (count : Nat) :
    RegionMap → List Processor → List (Option (RegionMap × List Processor))
  | [], processors => [some ([], processors)]
  | (region, remaining) :: rest, processors =>
    (choices remaining.zipIdx).flatMap fun
      | none => [none]
      | some (processor, index) =>
        let entry := (region, remaining.eraseIdx index)
        let processors := processors ++ [processor]
        if processors.length = count then [some (entry :: rest, processors)]
        else
          (takeRound count rest processors).map fun done =>
            done.map fun (others, processors) => (entry :: others, processors)

/-- The rounds, while there are not enough. Each adds a processor, so that
`rounds` never run out when there are more of them than processors to find. -/
def takeRounds (count : Nat) : Nat → RegionMap → List Processor → List (Option (List Processor))
  | 0, _, _ => [none]
  | rounds + 1, candidates, processors =>
    if processors.length < count then
      if candidates.isEmpty then [none]
      else
        (takeRound count candidates processors).flatMap fun
          | none => [none]
          | some (candidates, processors) =>
            takeRounds count rounds (candidates.filter fun e => !e.2.isEmpty) processors
    else [some processors]

def takePreferDifferent (candidates : RegionMap) (count : Nat) : List (Option (List Processor)) :=
  takeRounds count (count + 1) candidates []

/-- One processor of each region. -/
def chooseEach : RegionMap → List (List Processor)
  | [] => [[]]
  | (_, processors) :: rest =>
    processors.flatMap fun processor => (chooseEach rest).map (processor :: ·)

def takeRequireDifferent (candidates : RegionMap) (count : Nat) :
    List (Option (List Processor)) :=
  if candidates.length < count then [none]
  else ((samples candidates count).flatMap chooseEach).map some

def select (candidates : RegionMap) (count : Nat) : List (Option (List Processor)) :=
  match b.memoryRegionSelector with
  | .any => takeAny candidates count
  | .preferSame => takePreferSame candidates count
  | .requireSame => takeRequireSame candidates count
  | .preferDifferent => takePreferDifferent candidates count
  | .requireDifferent => takeRequireDifferent candidates count

def exceedsQuota (count : Nat) : Bool :=
  match b.resourceQuotaProcessorCountLimit with
  | some maxCount => maxCount < count
  | none => false

def intoSet (processors : List Processor) : Option ProcessorSet :=
  (NonEmpty.fromVec processors).map fun processors => ⟨processors, b.hardware⟩

/-- All that `take` may return. -/
def take (count : ℕ+) : List (Option ProcessorSet) :=
  if b.exceedsQuota count then [none]
  else
    (shuffles b.candidatesByMemoryRegion).flatMap fun candidates =>
      if candidates.isEmpty then [none]
      else (b.select candidates count).map fun processors => processors.bind b.intoSet

/-! ## `take_all` -/

/-- The `while` loop that reduces the processors. -/
def popUntil (maxCount : Nat) (processors : List Processor) : List Processor :=
  if maxCount < processors.length then popUntil maxCount processors.dropLast else processors
termination_by processors.length
decreasing_by
  rw [List.length_dropLast]
  omega

def reduceProcessorsUntilUnderQuota (processors : List Processor) : List Processor :=
  match b.resourceQuotaProcessorCountLimit with
  | none => processors
  | some maxCount => popUntil maxCount processors

/-- All that the selector allows, the quota not being regarded. -/
def selectAll (candidates : RegionMap) : List (List Processor) :=
  match b.memoryRegionSelector with
  | .any | .preferSame | .preferDifferent => [candidates.flatMap Prod.snd]
  | .requireSame => (candidates.map Prod.fst).map candidates.get
  | .requireDifferent => chooseEach candidates

/-- All that `take_all` may return. -/
def takeAll : List (Option ProcessorSet) :=
  (shuffles b.candidatesByMemoryRegion).flatMap fun candidates =>
    if candidates.isEmpty then [none]
    else (b.selectAll candidates).map fun processors =>
      b.intoSet (b.reduceProcessorsUntilUnderQuota processors)

end ProcessorSetBuilder

end Folo.ManyCpus
