import Folo.BenchHistory.Load

/-!
# What a run index counts

A run index counts the objects that were recorded in it (`Tallies`), up to
where a `usize` ends. Recording adds one, and merging puts the objects of the
other index behind those of this one. An index does not depend on the order
of its objects (`Tallies.eq_of_perm`): no two commits share a position, so it
does not matter either which object gave a tally its label.
-/

namespace Folo.BenchHistory

open Folo.Lib Std

variable {order : CommitOrder}

/-- The tally of some objects that are at one commit. -/
def tally (objects : List (RankedObject order)) : Option CommitCounts :=
  objects.head?.map fun first =>
    { commit := first.parsed.commit
      clean := min (objects.countP fun o => !o.parsed.isDirty) usizeMax
      dirty := min (objects.countP fun o => o.parsed.isDirty) usizeMax }

/-- Saturating sums add up. -/
theorem saturatingAdd_min (a b : Nat) :
    saturatingAdd (min a usizeMax) (min b usizeMax) = min (a + b) usizeMax := by
  unfold saturatingAdd
  omega

theorem tally_append (xs ys : List (RankedObject order)) :
    tally (xs ++ ys) = (tally ys).elim (tally xs) fun counts =>
      some (RunIndex.addCounts counts
        ((tally xs).getD { commit := counts.commit, clean := 0, dirty := 0 })) := by
  cases ys with
  | nil => simp [tally]
  | cons y ys =>
    cases xs with
    | nil =>
      simp only [tally, List.nil_append, List.head?_cons, Option.map_some, Option.elim_some,
        List.head?_nil, Option.map_none, Option.getD_none, RunIndex.addCounts, Option.some.injEq,
        CommitCounts.mk.injEq, true_and]
      have hzero : ∀ n, min n usizeMax = saturatingAdd 0 (min n usizeMax) := fun n => by
        simp [saturatingAdd]
      exact ⟨hzero _, hzero _⟩
    | cons x xs =>
      simp only [tally, List.cons_append, List.head?_cons, Option.map_some, Option.elim_some,
        Option.getD_some, RunIndex.addCounts, saturatingAdd_min, ← List.countP_append,
        List.cons_append]

theorem tally_concat (xs : List (RankedObject order)) (o : RankedObject order) :
    tally (xs ++ [o]) = some (RunIndex.countRun o.parsed.isDirty
      ((tally xs).getD { commit := o.parsed.commit, clean := 0, dirty := 0 })) := by
  have hone : min 1 usizeMax = 1 := rfl
  have hzero : ∀ n, saturatingAdd (min n usizeMax) 0 = min n usizeMax :=
    fun n => saturatingAdd_min n 0
  have hnone : saturatingAdd 0 0 = 0 := rfl
  rw [tally_append]
  cases hd : o.parsed.isDirty <;> cases xs <;>
    simp [tally, RunIndex.countRun, RunIndex.addCounts, hd, hone, hzero, hnone]

/-- The objects of a set at a position. -/
def atCommit (objects : List (RankedObject order)) (set : DiscriminantSet) (i : Nat) :
    List (RankedObject order) :=
  objects.filter fun o => decide (o.parsed.set = set ∧ o.topoIndex = i)

/-- The index counts these objects. -/
structure Tallies (idx : RunIndex) (objects : List (RankedObject order)) : Prop where
  total : idx.total = min objects.length usizeMax
  sets : ∀ set, idx.sets[set]? = none ↔ ∀ o ∈ objects, o.parsed.set ≠ set
  counts : ∀ set (i : Nat),
    (idx.sets[set]?.bind fun byCommit => byCommit[i]?) = tally (atCommit objects set i)

theorem tallies_empty : Tallies .empty ([] : List (RankedObject order)) where
  total := rfl
  sets set := by simp [RunIndex.empty]
  counts set i := by simp [RunIndex.empty, atCommit, tally]

theorem getElem?_getD_byCommit (entry : Option ByCommit) (i : Nat) :
    (entry.getD ∅)[i]? = entry.bind fun byCommit => byCommit[i]? := by
  cases entry with
  | none => simp
  | some byCommit => rfl

theorem Tallies.record {idx : RunIndex} {objects : List (RankedObject order)}
    (h : Tallies idx objects) (o : RankedObject order) :
    Tallies (idx.record o.parsed.set o.topoIndex o.parsed.commit o.parsed.isDirty)
      (objects ++ [o]) where
  total := by
    rw [RunIndex.record, h.total, List.length_append]
    exact saturatingAdd_min objects.length 1
  sets set := by
    rw [RunIndex.record, getElem?_upsert]
    split
    next hset => simp [hset]
    next hset => simp [h.sets, hset, or_imp, forall_and]
  counts set i := by
    rw [RunIndex.record, getElem?_upsert, atCommit, List.filter_append]
    by_cases hset : o.parsed.set = set
    · subst hset
      rw [if_pos rfl, Option.bind_some, getElem?_upsert]
      by_cases hi : o.topoIndex = i
      · subst hi
        rw [if_pos rfl, getElem?_getD_byCommit, h.counts, List.filter_cons_of_pos (by simp),
          List.filter_nil, tally_concat]
        rfl
      · rw [if_neg hi, getElem?_getD_byCommit, h.counts,
          List.filter_cons_of_neg (by simp [hi]), List.filter_nil, List.append_nil]
        rfl
    · rw [if_neg hset, h.counts, List.filter_cons_of_neg (by simp [hset]), List.filter_nil,
        List.append_nil]
      rfl

theorem getElem?_mergeCommits (dest other : ByCommit) (i : Nat) :
    (other.toList.foldl RunIndex.mergeCommit dest)[i]? =
      other[i]?.elim dest[i]? fun counts =>
        some (RunIndex.addCounts counts
          (dest[i]?.getD { commit := counts.commit, clean := 0, dirty := 0 })) :=
  Iteration.sorted.getElem?_foldl RunIndex.mergeCommit
    (fun _ counts entry => RunIndex.addCounts counts
      (entry.getD { commit := counts.commit, clean := 0, dirty := 0 }))
    (fun m k _ a => getElem?_upsert m k a _ _) other dest i

theorem Tallies.merge {idx other : RunIndex} {xs ys : List (RankedObject order)}
    (hx : Tallies idx xs) (hy : Tallies other ys) : Tallies (idx.merge other) (xs ++ ys) := by
  have hsets : ∀ set : DiscriminantSet, (idx.merge other).sets[set]? =
      other.sets[set]?.elim idx.sets[set]? fun theirs =>
        some (theirs.toList.foldl RunIndex.mergeCommit (idx.sets[set]?.getD ∅)) :=
    Iteration.sorted.getElem?_foldl RunIndex.mergeSet
      (fun _ theirs entry => theirs.toList.foldl RunIndex.mergeCommit (entry.getD ∅))
      (fun m k _ a => getElem?_upsert m k a _ _) other.sets idx.sets
  refine ⟨?_, fun set => ?_, fun set i => ?_⟩
  · rw [RunIndex.merge, hx.total, hy.total, saturatingAdd_min, List.length_append]
  · have hor : (∀ o ∈ xs ++ ys, o.parsed.set ≠ set) ↔
        idx.sets[set]? = none ∧ other.sets[set]? = none := by
      rw [hx.sets, hy.sets]
      simp only [List.mem_append, or_imp, forall_and]
    rw [hor, hsets]
    cases other.sets[set]? with
    | none => simp
    | some theirs => simp
  · have happend : atCommit (xs ++ ys) set i = atCommit xs set i ++ atCommit ys set i :=
      List.filter_append ..
    rw [happend, tally_append, hsets, ← hx.counts, ← hy.counts]
    cases other.sets[set]? with
    | none => rfl
    | some theirs =>
      rw [Option.elim_some, Option.bind_some, getElem?_mergeCommits, getElem?_getD_byCommit]
      rfl

/-! ## One index for one set of objects -/

/-- Objects at one commit have one label. -/
theorem tally_eq_of_perm {xs ys : List (RankedObject order)} (hperm : xs.Perm ys) {i : Nat}
    (hat : ∀ o ∈ xs, o.topoIndex = i) : tally xs = tally ys := by
  unfold tally
  rw [← hperm.countP_eq, ← hperm.countP_eq]
  cases xs with
  | nil => rw [hperm.nil_eq]
  | cons x xs =>
    cases ys with
    | nil => exact absurd hperm.symm.nil_eq (List.cons_ne_nil _ _).symm
    | cons y ys =>
      have hy : y.topoIndex = i := hat y (hperm.symm.subset (List.mem_cons_self ..))
      have hx : x.topoIndex = i := hat x (List.mem_cons_self ..)
      have hcommit : x.parsed.commit = y.parsed.commit :=
        order.injective _ _ i (hx ▸ x.onHistory) (hy ▸ y.onHistory)
      simp [hcommit]

/-- The order of the objects leaves no trace in an index. -/
theorem Tallies.eq_of_perm {idx other : RunIndex} {xs ys : List (RankedObject order)}
    (hx : Tallies idx xs) (hy : Tallies other ys) (hperm : xs.Perm ys) : idx = other := by
  refine RunIndex.ext ?_ (ExtTreeMap.ext_getElem? fun set => ?_)
  · rw [hx.total, hy.total, hperm.length_eq]
  · have hnone : idx.sets[set]? = none ↔ other.sets[set]? = none := by
      rw [hx.sets, hy.sets]
      exact forall_congr' fun o => imp_congr_left hperm.mem_iff
    have hcounts : ∀ i : Nat, (idx.sets[set]?.bind fun byCommit => byCommit[i]?) =
        other.sets[set]?.bind fun byCommit => byCommit[i]? := fun i => by
      rw [hx.counts, hy.counts]
      refine tally_eq_of_perm (hperm.filter _) (i := i) fun o ho => ?_
      exact (of_decide_eq_true (List.mem_filter.mp ho).2).2
    cases hm : idx.sets[set]? with
    | none => rw [hnone.mp hm]
    | some mine =>
      cases ho : other.sets[set]? with
      | none => rw [hnone.mpr ho] at hm; nomatch hm
      | some theirs =>
        simp only [hm, ho, Option.bind_some] at hcounts
        rw [ExtTreeMap.ext_getElem? hcounts]

end Folo.BenchHistory
