import Mathlib.Data.List.Dedup
import Mathlib.Data.List.Perm.Lattice

/-!
# Folds that depend on the elements alone

A step that may fail absorbs elements if two of them may come in either order
and one that came does nothing when it comes again. A fold of such a step
fails, or gives its result, by which elements the list has: neither their
order nor how often each of them comes matters (`Absorbing.foldlM_congr`).
-/

namespace Folo.Lib

variable {σ α β : Type}

structure Absorbing (step : σ → α → Option σ) : Prop where
  comm : ∀ s a b, (step s a).bind (step · b) = (step s b).bind (step · a)
  again : ∀ s a s', step s a = some s' → step s' a = some s'

namespace Absorbing

variable {step : σ → α → Option σ}

theorem foldlM_perm (h : Absorbing step) {xs ys : List α} (hperm : xs.Perm ys) (s : σ) :
    xs.foldlM step s = ys.foldlM step s := by
  induction hperm generalizing s with
  | nil => rfl
  | cons x _ ih =>
    rw [List.foldlM_cons, List.foldlM_cons]
    exact congrArg _ (funext fun s' => ih s')
  | swap x y rest =>
    simp only [List.foldlM_cons, Option.bind_eq_bind]
    rw [← Option.bind_assoc, ← Option.bind_assoc, h.comm s y x]
  | trans _ _ ih₁ ih₂ => exact (ih₁ s).trans (ih₂ s)

/-- An element that comes again does nothing. -/
theorem foldlM_cons_of_mem (h : Absorbing step) {x : α} {xs : List α} (hx : x ∈ xs) (s : σ) :
    (x :: xs).foldlM step s = xs.foldlM step s := by
  classical
  have hperm := List.perm_cons_erase hx
  rw [h.foldlM_perm (hperm.cons x) s, h.foldlM_perm hperm s]
  simp only [List.foldlM_cons, Option.bind_eq_bind]
  cases hstep : step s x with
  | none => rfl
  | some s' => rw [Option.bind_some, h.again s x s' hstep]

theorem foldlM_dedup [DecidableEq α] (h : Absorbing step) (xs : List α) (s : σ) :
    xs.dedup.foldlM step s = xs.foldlM step s := by
  induction xs generalizing s with
  | nil => rfl
  | cons x xs ih =>
    by_cases hx : x ∈ xs
    · rw [List.dedup_cons_of_mem hx, ih, h.foldlM_cons_of_mem hx]
    · rw [List.dedup_cons_of_notMem hx, List.foldlM_cons, List.foldlM_cons]
      exact congrArg _ (funext fun s' => ih s')

/-- Lists with the same elements. -/
theorem foldlM_congr (h : Absorbing step) {xs ys : List α} (hmem : ∀ x, x ∈ xs ↔ x ∈ ys) (s : σ) :
    xs.foldlM step s = ys.foldlM step s := by
  classical
  have hperm : xs.dedup.Perm ys.dedup :=
    (List.perm_ext_iff_of_nodup (List.nodup_dedup _) (List.nodup_dedup _)).mpr fun x => by
      rw [List.mem_dedup, List.mem_dedup, hmem]
  rw [← h.foldlM_dedup xs, ← h.foldlM_dedup ys, h.foldlM_perm hperm]

/-- Elements that each stand for some others. -/
theorem expand (h : Absorbing step) (parts : β → Option (List α)) :
    Absorbing fun s b => (parts b).bind fun xs => xs.foldlM step s where
  comm s b c := by
    cases hb : parts b with
    | none => simp
    | some xs =>
      cases hc : parts c with
      | none => simp
      | some ys =>
        show (xs.foldlM step s >>= fun s' => ys.foldlM step s') =
          (ys.foldlM step s >>= fun s' => xs.foldlM step s')
        rw [← List.foldlM_append, ← List.foldlM_append]
        exact h.foldlM_congr (fun x => by rw [List.mem_append, List.mem_append, or_comm]) s
  again s b s' hs := by
    cases hb : parts b with
    | none =>
      rw [hb] at hs
      nomatch hs
    | some xs =>
      rw [hb, Option.bind_some] at hs
      have htwice : (xs.foldlM step s >>= fun s' => xs.foldlM step s') = some s' := by
        have hsame : ∀ x, x ∈ xs ++ xs ↔ x ∈ xs := fun x => by simp
        rw [← List.foldlM_append, h.foldlM_congr hsame, hs]
      rw [hs] at htwice
      exact htwice

end Absorbing

end Folo.Lib
