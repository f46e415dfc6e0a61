import Mathlib.Data.List.SplitBy

/-!
# Runs

The runs of a list as its elements come one by one: an element goes on with the
last run, or starts one of its own. What the runs begin with is in the order of
the list.
-/

namespace Folo.Lib

variable {α : Type} {r : α → α → Bool}

/-- The last run is the only one that an element can go on with. -/
theorem splitBy_concat_of_rel {xs run : List α} {front : List (List α)} {x : α}
    (h : xs.splitBy r = front ++ [run]) (hrel : ∀ y ∈ xs.getLast?, r y x = true) :
    (xs ++ [x]).splitBy r = front ++ [run ++ [x]] := by
  obtain ⟨hflat, hne, hchain, hbreaks⟩ := List.splitBy_eq_iff.mp h
  rw [List.mem_append, List.mem_singleton, not_or] at hne
  have hrun : run ≠ [] := Ne.symm hne.2
  refine List.splitBy_eq_iff.mpr ⟨?_, ?_, ?_, ?_⟩
  · rw [hflat, List.flatten_concat, List.flatten_concat, List.append_assoc]
  · rw [List.mem_append, List.mem_singleton, not_or]
    exact ⟨hne.1, (List.append_ne_nil_of_right_ne_nil _ (List.cons_ne_nil _ _)).symm⟩
  · intro m hm
    rcases List.mem_append.mp hm with hm | hm
    · exact hchain m (List.mem_append_left _ hm)
    · obtain rfl := List.mem_singleton.mp hm
      have hlast := hchain run (List.mem_append_right _ (List.mem_singleton_self _))
      refine List.isChain_append.mpr ⟨hlast, List.isChain_singleton _, fun y hy z hz => ?_⟩
      obtain rfl : x = z := Option.some.inj hz
      refine hrel y ?_
      rw [hflat, List.flatten_concat, List.getLast?_append_of_ne_nil _ hrun]
      exact hy
  · rw [List.isChain_append] at hbreaks ⊢
    refine ⟨hbreaks.1, List.isChain_singleton _, fun m hm n hn => ?_⟩
    obtain rfl : run ++ [x] = n := Option.some.inj hn
    obtain ⟨hm', _, hbreak⟩ := hbreaks.2.2 m hm run rfl
    refine ⟨hm', List.append_ne_nil_of_right_ne_nil _ (List.cons_ne_nil _ _), ?_⟩
    rw [List.head_append_of_ne_nil hrun]
    exact hbreak

/-! ## Runs of one key -/

section Keys

variable {κ : Type} [DecidableEq κ] {key : α → κ} {xs run : List α}

/-- The longest stretches of elements that have one key. -/
def runsBy (key : α → κ) (xs : List α) : List (List α) :=
  xs.splitBy fun x y => decide (key x = key y)

theorem flatten_runsBy (key : α → κ) (xs : List α) : (runsBy key xs).flatten = xs :=
  List.flatten_splitBy _ xs

theorem ne_nil_of_mem_runsBy (h : run ∈ runsBy key xs) : run ≠ [] :=
  List.ne_nil_of_mem_splitBy h

theorem key_eq_of_mem_runsBy (h : run ∈ runsBy key xs) {x y : α} (hx : x ∈ run) (hy : y ∈ run) :
    key x = key y := by
  have hchain := (List.isChain_of_mem_splitBy h).imp fun _ _ => of_decide_eq_true
  have : IsTrans α fun x y => key x = key y := ⟨fun _ _ _ => Eq.trans⟩
  have : Std.Symm fun x y : α => key x = key y := ⟨fun _ _ => Eq.symm⟩
  have hpair : run.Pairwise fun x y => key x = key y := List.isChain_iff_pairwise.mp hchain
  exact List.Pairwise.forall_of_forall (R := fun x y : α => key x = key y) (fun _ _ => rfl) hpair
    hx hy

theorem getLast?_of_runsBy {front : List (List α)} (h : runsBy key xs = front ++ [run]) :
    xs.getLast? = run.getLast? := by
  have hne : run ≠ [] := ne_nil_of_mem_runsBy (h ▸ List.mem_append_right _ (List.mem_singleton_self _))
  conv_lhs => rw [← flatten_runsBy key xs, h, List.flatten_concat]
  exact List.getLast?_append_of_ne_nil _ hne

theorem runsBy_concat_of_eq {front : List (List α)} {first x : α}
    (h : runsBy key xs = front ++ [run]) (hfirst : first ∈ run) (heq : key first = key x) :
    runsBy key (xs ++ [x]) = front ++ [run ++ [x]] := by
  refine splitBy_concat_of_rel h fun y hy => decide_eq_true ?_
  rw [getLast?_of_runsBy h] at hy
  have hrun : run ∈ runsBy key xs := h ▸ List.mem_append_right _ (List.mem_singleton_self _)
  exact (key_eq_of_mem_runsBy hrun (List.mem_of_mem_getLast? hy) hfirst).trans heq

theorem runsBy_concat_of_ne {front : List (List α)} {first x : α}
    (h : runsBy key xs = front ++ [run]) (hfirst : first ∈ run) (hne : key first ≠ key x) :
    runsBy key (xs ++ [x]) = front ++ [run] ++ [[x]] := by
  rw [← h]
  refine List.splitBy_append_cons [] fun y hy => decide_eq_false ?_
  rw [getLast?_of_runsBy h] at hy
  have hrun : run ∈ runsBy key xs := h ▸ List.mem_append_right _ (List.mem_singleton_self _)
  rw [key_eq_of_mem_runsBy hrun (List.mem_of_mem_getLast? hy) hfirst]
  exact hne

end Keys

/-- What the runs begin with. -/
theorem filterMap_head?_sublist (runs : List (List α)) :
    (runs.filterMap List.head?).Sublist runs.flatten := by
  induction runs with
  | nil => exact .slnil
  | cons run runs ih =>
    cases run with
    | nil => exact ih
    | cons x run =>
      show (x :: runs.filterMap List.head?).Sublist (x :: (run ++ runs.flatten))
      exact (ih.trans (List.sublist_append_right ..)).cons_cons x

end Folo.Lib
