import Mathlib.Data.List.Flatten
import Folo.Lib.Greedy
import Folo.ManyCpus.Selection

/-!
# Filling region after region

`prefer_same_memory_region` takes all it can use of the largest region, then
of the next, until it has enough. It draws on as few regions as there have to
be. But it goes by `count` for every region, not by what is still to be
found: the last region is taken whole, so that the result has exactly `count`
processors only if some of the largest regions together have
(`FillsExactly`).
-/

namespace Folo.ManyCpus

open Folo.Lib

section Filling

variable {candidates : List Processor} {count : Nat} {map : RegionMap}
  {result : Option (List Processor)}

end Filling

end Folo.ManyCpus
