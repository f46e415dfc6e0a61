import Mathlib.Data.List.Sublists
import Mathlib.Data.List.Perm.Subperm
import Mathlib.Data.List.Permutation

/-!
# Random choices

A program that draws at random is the list of the results it may come to: a
draw is a list of what may be drawn, and what follows it is run on each. Every
order of a shuffle, every sample without replacement and every single choice
is among them.
-/

namespace Folo.Lib

variable {α β : Type}

/-- `shuffle`: the elements in any order. -/
def shuffles (xs : List α) : List (List α) :=
  xs.permutations'

/-- `sample`: `amount` of the elements, or all when there are fewer, none of
them drawn twice, in any order. -/
def samples (xs : List α) (amount : Nat) : List (List α) :=
  (xs.sublistsLen (min amount xs.length)).flatMap List.permutations'

/-- `choose`: one of the elements, when there is any. -/
def choices (xs : List α) : List (Option α) :=
  if xs.isEmpty then [none] else xs.map some

@[simp] theorem mem_shuffles {xs ys : List α} : ys ∈ shuffles xs ↔ ys.Perm xs :=
  List.mem_permutations'

theorem exists_mem_shuffles (xs : List α) : ∃ ys, ys ∈ shuffles xs :=
  ⟨xs, mem_shuffles.mpr (.refl _)⟩

/-- What follows a draw has a result when it has one for all that may be
drawn. -/
theorem exists_mem_flatMap {xs : List α} {f : α → List β} (hxs : ∃ x, x ∈ xs)
    (hf : ∀ x ∈ xs, ∃ y, y ∈ f x) : ∃ y, y ∈ xs.flatMap f := by
  obtain ⟨x, hx⟩ := hxs
  obtain ⟨y, hy⟩ := hf x hx
  exact ⟨y, List.mem_flatMap.mpr ⟨x, hx, hy⟩⟩

theorem exists_mem_map {xs : List α} (f : α → β) (hxs : ∃ x, x ∈ xs) : ∃ y, y ∈ xs.map f :=
  hxs.imp' f fun _ => List.mem_map_of_mem

end Folo.Lib
