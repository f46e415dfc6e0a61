import Mathlib.Data.List.Induction

/-!
# A store as the log of its changes

A change gives a key a value or takes it away. The value of a key is what
the last change to it left (`valueAt`), at any earlier position of the log
too: positions are numbers of changes, and `log.take n` is the log when it
had `n` of them.
-/

namespace Folo.Lib

/-- One change to a store, by an author. -/
structure Change (K V A : Type*) where
  author : A
  key : K
  value : Option V
  deriving DecidableEq

variable {K V A : Type*} [DecidableEq K]

/-- The value of a key after the changes of a log. -/
def valueAt (log : List (Change K V A)) (k : K) : Option V :=
  log.foldl (fun v c => if c.key = k then c.value else v) none

@[simp] theorem valueAt_nil (k : K) : valueAt ([] : List (Change K V A)) k = none := rfl

theorem valueAt_concat (log : List (Change K V A)) (c : Change K V A) (k : K) :
    valueAt (log ++ [c]) k = if c.key = k then c.value else valueAt log k := by
  rw [valueAt, List.foldl_append]
  rfl

/-- An entry of a longer log is an old one or the last one. -/
theorem getElem?_concat_cases {α : Type*} {log : List α} {c d : α} {i : Nat}
    (h : (log ++ [c])[i]? = some d) : log[i]? = some d ∨ i = log.length ∧ d = c := by
  have hlt := (List.getElem?_eq_some_iff.mp h).1
  rw [List.length_append, List.length_singleton] at hlt
  by_cases hi : i < log.length
  · exact .inl ((List.getElem?_append_left hi).symm.trans h)
  · obtain rfl : i = log.length := by omega
    rw [List.getElem?_concat_length] at h
    exact .inr ⟨rfl, (Option.some.inj h).symm⟩

theorem getElem?_concat_lt {α : Type*} {log : List α} (c : α) {i : Nat} (h : i < log.length) :
    (log ++ [c])[i]? = log[i]? :=
  List.getElem?_append_left h

/-- A value that is there was put there, and nothing has changed it since. -/
theorem change_of_valueAt {log : List (Change K V A)} {k : K} {v : V}
    (h : valueAt log k = some v) :
    ∃ (i : Nat) (c : Change K V A), log[i]? = some c ∧ c.key = k ∧ c.value = some v ∧
      ∀ (j : Nat) (d : Change K V A), i < j → log[j]? = some d → d.key ≠ k := by
  induction log using List.reverseRecOn with
  | nil => cases h
  | append_singleton log c ih =>
    rw [valueAt_concat] at h
    split at h
    next hk =>
      refine ⟨log.length, c, List.getElem?_concat_length .., hk, h, fun j d hj hd => ?_⟩
      have := (List.getElem?_eq_some_iff.mp hd).1
      rw [List.length_append, List.length_singleton] at this
      omega
    next hk =>
      obtain ⟨i, d, hi, hdk, hdv, hlast⟩ := ih h
      have hlt : i < log.length := (List.getElem?_eq_some_iff.mp hi).1
      refine ⟨i, d, (getElem?_concat_lt c hlt).trans hi, hdk, hdv, fun j e hj he => ?_⟩
      rcases getElem?_concat_cases he with hold | ⟨-, rfl⟩
      · exact hlast j e hj hold
      · exact hk

/-- After a change that gave a key a value, one at the same place or later
is what the key has, unless it was taken away. -/
theorem valueAt_of_change {log : List (Change K V A)} {k : K} {i : Nat} {c : Change K V A}
    (hi : log[i]? = some c) (hk : c.key = k) :
    ∃ (j : Nat) (d : Change K V A), i ≤ j ∧ log[j]? = some d ∧ d.key = k ∧
      valueAt log k = d.value := by
  induction log using List.reverseRecOn with
  | nil => cases hi
  | append_singleton log e ih =>
    rw [valueAt_concat]
    split
    next hek =>
      have hlt := (List.getElem?_eq_some_iff.mp hi).1
      rw [List.length_append, List.length_singleton] at hlt
      exact ⟨log.length, e, by omega, List.getElem?_concat_length .., hek, rfl⟩
    next hek =>
      have hold : log[i]? = some c := by
        rcases getElem?_concat_cases hi with hold | ⟨-, rfl⟩
        · exact hold
        · exact absurd hk hek
      obtain ⟨j, d, hij, hd, hdk, hv⟩ := ih hold
      have hjl := (List.getElem?_eq_some_iff.mp hd).1
      exact ⟨j, d, hij, (getElem?_concat_lt e hjl).trans hd, hdk, hv⟩

end Folo.Lib
