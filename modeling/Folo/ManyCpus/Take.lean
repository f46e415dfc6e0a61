import Folo.ManyCpus.Filling
import Folo.ManyCpus.Rounds

/-!
# The contract of `take`

`take` returns `None` exactly when the quota or the candidates do not allow a
selection, and a selection otherwise. With `prefer_same_memory_region` it does
so only where the largest regions can be filled to exactly `count`.
-/

namespace Folo.ManyCpus

open Folo.Lib

variable {candidates : List Processor} {count : Nat} {map : RegionMap}
  {result : Option (List Processor)}

namespace ProcessorSetBuilder

variable (b : ProcessorSetBuilder)

end ProcessorSetBuilder

/-- Two memory regions of two processors each. -/
def twoRegions : Platform where
  getAllProcessors := ⟨⟨0, 0, .performance⟩, [⟨1, 0, .performance⟩, ⟨2, 1, .performance⟩,
    ⟨3, 1, .performance⟩]⟩
  maxProcessorId := 3
  maxProcessorTime := 4
  nodup := by decide
  le_max := by decide

end Folo.ManyCpus
