import Mathlib.Data.List.Basic
import Mathlib.Data.List.Induction
import Mathlib.Order.Basic
import Mathlib.Order.Lattice

/-!
# The first of the least

The element of a list that has the least value, and of several the first: what
a loop holds that replaces its best only by what is strictly less.
-/

namespace Folo.Lib

variable {α β : Type*} [Preorder β]

/-- `x` is at place `i`, nothing has a smaller value, and all before it have a
larger one. -/
structure IsFirstLeast (value : α → β) (xs : List α) (i : Nat) (x : α) : Prop where
  place : xs[i]? = some x
  least : ∀ (j : Nat) (y : α), xs[j]? = some y → value x ≤ value y
  first : ∀ (j : Nat) (y : α), xs[j]? = some y → j < i → value x < value y

namespace IsFirstLeast

variable {value : α → β} {xs : List α} {i : Nat} {x y : α}

theorem lt_length (h : IsFirstLeast value xs i x) : i < xs.length :=
  (List.getElem?_eq_some_iff.mp h.place).1

theorem getElem?_append_singleton {xs : List α} {y z : α} {j : Nat}
    (h : (xs ++ [y])[j]? = some z) : xs[j]? = some z ∨ j = xs.length ∧ z = y := by
  rw [List.getElem?_append] at h
  split at h
  next => exact .inl h
  next hj =>
    obtain ⟨hlt, heq⟩ := List.getElem?_eq_some_iff.mp h
    rw [List.length_singleton] at hlt
    rw [List.getElem_singleton] at heq
    exact .inr ⟨by omega, heq.symm⟩

theorem singleton (value : α → β) (x : α) : IsFirstLeast value [x] 0 x where
  place := rfl
  least j y h := by
    rw [List.mem_singleton.mp (List.mem_of_getElem? h)]
  first j y _ hlt := absurd hlt (Nat.not_lt_zero j)

/-- What is strictly less takes the place. -/
theorem append_of_lt (h : IsFirstLeast value xs i x) (hlt : value y < value x) :
    IsFirstLeast value (xs ++ [y]) xs.length y where
  place := List.getElem?_concat_length
  least j z hz := by
    rcases getElem?_append_singleton hz with hz | ⟨-, rfl⟩
    · exact le_of_lt (lt_of_lt_of_le hlt (h.least j z hz))
    · exact le_refl _
  first j z hz hj := by
    rcases getElem?_append_singleton hz with hz | ⟨rfl, -⟩
    · exact lt_of_lt_of_le hlt (h.least j z hz)
    · exact absurd hj (Nat.lt_irrefl _)

/-- What is not does not. -/
theorem append_of_le (h : IsFirstLeast value xs i x) (hle : value x ≤ value y) :
    IsFirstLeast value (xs ++ [y]) i x where
  place := by
    rw [List.getElem?_append_left h.lt_length]
    exact h.place
  least j z hz := by
    rcases getElem?_append_singleton hz with hz | ⟨-, rfl⟩
    · exact h.least j z hz
    · exact hle
  first j z hz hj := by
    rcases getElem?_append_singleton hz with hz | ⟨rfl, -⟩
    · exact h.first j z hz hj
    · exact absurd hj (Nat.lt_asymm h.lt_length)

end IsFirstLeast

/-! ## The last of the greatest -/

section

variable {α β : Type*} [LinearOrder β]

/-- `max_by_key`: an element is replaced by a later one that is not less. -/
def maxByKey (key : α → β) (xs : List α) : Option α :=
  xs.foldl (fun best x => match best with
    | none => some x
    | some b => if key x < key b then some b else some x) none

theorem maxByKey_concat (key : α → β) (xs : List α) (x : α) :
    maxByKey key (xs ++ [x]) = match maxByKey key xs with
      | none => some x
      | some b => if key x < key b then some b else some x := by
  unfold maxByKey
  rw [List.foldl_append]
  rfl

/-- It is one of the elements, and none is greater. -/
theorem maxByKey_spec (key : α → β) (xs : List α) :
    (maxByKey key xs = none → xs = []) ∧
      ∀ best, maxByKey key xs = some best → best ∈ xs ∧ ∀ x ∈ xs, key x ≤ key best := by
  induction xs using List.reverseRecOn with
  | nil => exact ⟨fun _ => rfl, nofun⟩
  | append_singleton xs x ih =>
    obtain ⟨hnone, hsome⟩ := ih
    rw [maxByKey_concat]
    cases hbest : maxByKey key xs with
    | none =>
      obtain rfl := hnone hbest
      refine ⟨nofun, fun best h => ?_⟩
      obtain rfl := Option.some.inj h
      exact ⟨List.mem_singleton_self _, fun y hy => le_of_eq (by rw [List.mem_singleton.mp hy])⟩
    | some b =>
      obtain ⟨hmem, hge⟩ := hsome b hbest
      simp only
      split
      next hlt =>
        refine ⟨nofun, fun best h => ?_⟩
        obtain rfl := Option.some.inj h
        refine ⟨List.mem_append_left _ hmem, fun y hy => ?_⟩
        rcases List.mem_append.mp hy with hy | hy
        · exact hge y hy
        · rw [List.mem_singleton.mp hy]
          exact le_of_lt hlt
      next hnlt =>
        refine ⟨nofun, fun best h => ?_⟩
        obtain rfl := Option.some.inj h
        refine ⟨List.mem_append_right _ (List.mem_singleton_self _), fun y hy => ?_⟩
        rcases List.mem_append.mp hy with hy | hy
        · exact (hge y hy).trans (le_of_not_gt hnlt)
        · exact le_of_eq (by rw [List.mem_singleton.mp hy])

end

end Folo.Lib
