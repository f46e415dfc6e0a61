import Mathlib.Data.List.Sort
import Mathlib.Data.List.Nodup
import Mathlib.Data.List.Destutter

/-!
# Sorts that need not be stable

An unstable sort returns its argument in order and promises nothing about
elements that compare equal. Where no two do, there is only one result
(`UnstableSort.sortByKey_eq`): it depends neither on the sort nor on the
order in which the elements came. A list in order is cut at a bound by a binary
search (`PartitionPoint`), and may be walked along with another one instead of
looking things up in it (`updateAlong_eq_map`).
-/

namespace Folo.Lib

/-- Any sort, stable or not. -/
structure UnstableSort (α : Type) where
  sort : (α → α → Bool) → List α → List α
  perm : ∀ le xs, (sort le xs).Perm xs
  ordered : ∀ le, (∀ a b c, le a b = true → le b c = true → le a c = true) →
    (∀ a b, (le a b || le b a) = true) → ∀ xs, (sort le xs).Pairwise fun a b => le a b = true

variable {α κ : Type} [LinearOrder κ]

/-- Two lists in strict order with the same elements are one. -/
theorem eq_of_strict {key : α → κ} {xs ys : List α}
    (hx : xs.Pairwise fun a b => key a < key b) (hy : ys.Pairwise fun a b => key a < key b)
    (hmem : ∀ a, a ∈ xs ↔ a ∈ ys) : xs = ys := by
  have hperm : xs.Perm ys :=
    (List.perm_ext_iff_of_nodup (hx.imp fun h heq => absurd (heq ▸ h) (lt_irrefl _))
      (hy.imp fun h heq => absurd (heq ▸ h) (lt_irrefl _))).mpr hmem
  exact hperm.eq_of_pairwise (fun _ _ _ _ h₁ h₂ => absurd h₂ (lt_asymm h₁)) hx hy

namespace UnstableSort

/-- A sort that is stable. -/
def stable {α : Type} : UnstableSort α where
  sort le xs := xs.mergeSort le
  perm le xs := List.mergeSort_perm xs le
  ordered _ htrans htotal _ := List.pairwise_mergeSort htrans htotal _

/-- `sort_unstable_by`, the elements compared by a key. -/
def sortByKey (s : UnstableSort α) (key : α → κ) (xs : List α) : List α :=
  s.sort (fun a b => decide (key a ≤ key b)) xs

theorem perm_sortByKey (s : UnstableSort α) (key : α → κ) (xs : List α) :
    (s.sortByKey key xs).Perm xs :=
  s.perm _ _

theorem pairwise_sortByKey (s : UnstableSort α) (key : α → κ) (xs : List α) :
    (s.sortByKey key xs).Pairwise fun a b => key a ≤ key b := by
  refine (s.ordered _ (fun a b c hab hbc => ?_) (fun a b => ?_) xs).imp of_decide_eq_true
  · exact decide_eq_true ((of_decide_eq_true hab).trans (of_decide_eq_true hbc))
  · rw [Bool.or_eq_true, decide_eq_true_iff, decide_eq_true_iff]
    exact le_total _ _

/-- Elements with different keys come out in strict order. -/
theorem strict_sortByKey (s : UnstableSort α) {key : α → κ} {xs : List α}
    (hkeys : (xs.map key).Nodup) : (s.sortByKey key xs).Pairwise fun a b => key a < key b := by
  have hne : (s.sortByKey key xs).Pairwise fun a b => key a ≠ key b :=
    List.pairwise_map.mp (((s.perm_sortByKey key xs).map key).nodup_iff.mpr hkeys)
  exact ((s.pairwise_sortByKey key xs).and hne).imp fun h => lt_of_le_of_ne h.1 h.2

theorem sortByKey_eq (s t : UnstableSort α) {key : α → κ} {xs ys : List α}
    (hkeys : (xs.map key).Nodup) (hperm : xs.Perm ys) :
    s.sortByKey key xs = t.sortByKey key ys := by
  refine eq_of_strict (s.strict_sortByKey hkeys)
    (t.strict_sortByKey ((hperm.map key).nodup_iff.mp hkeys)) fun a => ?_
  rw [(s.perm_sortByKey key xs).mem_iff, (t.perm_sortByKey key ys).mem_iff, hperm.mem_iff]

end UnstableSort

section Repetitions

variable {α : Type} [DecidableEq α]

theorem mem_destutter'_ne (x head : α) (tail : List α) :
    x ∈ tail.destutter' (· ≠ ·) head ↔ x ∈ head :: tail := by
  induction tail generalizing head with
  | nil => rfl
  | cons next tail ih =>
    by_cases hne : head ≠ next
    · rw [List.destutter'_cons_pos _ hne, List.mem_cons, ih, List.mem_cons (a := x) (b := head)]
    · rw [List.destutter'_cons_neg _ hne, ih]
      obtain rfl := not_ne_iff.mp hne
      simp

/-- Dropping repetitions loses no element. -/
theorem mem_destutter_ne (x : α) (xs : List α) : x ∈ xs.destutter (· ≠ ·) ↔ x ∈ xs := by
  cases xs with
  | nil => rfl
  | cons head tail => exact mem_destutter'_ne x head tail

variable [LE α] [LT α] [DecidableLE α] [Std.IsLinearOrder α] [Std.LawfulOrderLT α]

/-- A `BTreeSet` of the elements: in order and each of them once. -/
def treeSet (xs : List α) : List α := (xs.insertionSort (· ≤ ·)).destutter (· ≠ ·)

omit [LT α] [Std.IsLinearOrder α] [Std.LawfulOrderLT α] in
theorem mem_treeSet {x : α} {xs : List α} : x ∈ treeSet xs ↔ x ∈ xs := by
  unfold treeSet
  rw [mem_destutter_ne, List.mem_insertionSort]

theorem strict_treeSet (xs : List α) : (treeSet xs).Pairwise (· < ·) := by
  have hsorted : (xs.insertionSort (· ≤ ·)).Pairwise (· ≤ ·) := List.pairwise_insertionSort _ xs
  have hle := hsorted.sublist (List.destutter_sublist (· ≠ ·) _)
  have hne : (treeSet xs).IsChain (· ≠ ·) := List.isChain_destutter _ _
  have hchain : (treeSet xs).IsChain (· < ·) := by
    change (treeSet xs).Pairwise (· ≤ ·) at hle
    generalize treeSet xs = ys at hle hne
    induction hne with
    | nil => exact .nil
    | singleton => exact .singleton _
    | cons_cons hab _ ih =>
      have hab' := List.rel_of_pairwise_cons hle (List.mem_cons_self ..)
      exact .cons_cons (Std.lt_of_le_of_ne hab' hab) (ih hle.of_cons)
  have : IsTrans α (· < ·) := ⟨fun _ _ _ hab hbc => Std.lt_trans hab hbc⟩
  exact List.isChain_iff_pairwise.mp hchain

omit [DecidableEq α] [DecidableLE α] in
/-- Two lists in strict order with the same elements are one. -/
theorem eq_of_strict_of_mem {xs ys : List α} (hx : xs.Pairwise (· < ·)) (hy : ys.Pairwise (· < ·))
    (hmem : ∀ x, x ∈ xs ↔ x ∈ ys) : xs = ys := by
  have hne : ∀ {a b : α}, a < b → a ≠ b := fun h heq => Std.lt_irrefl (heq ▸ h)
  have hperm := (List.perm_ext_iff_of_nodup (hx.imp hne) (hy.imp hne)).mpr hmem
  exact hperm.eq_of_pairwise (fun _ _ _ _ h₁ h₂ => absurd (Std.lt_trans h₁ h₂) Std.lt_irrefl) hx hy

theorem nodup_treeSet (xs : List α) : (treeSet xs).Nodup := by
  refine (strict_treeSet xs).imp fun {a b} h heq => ?_
  exact Std.lt_irrefl (heq ▸ h : a < a)

/-- The set depends on the elements alone. -/
theorem treeSet_congr {xs ys : List α} (h : ∀ x, x ∈ xs ↔ x ∈ ys) : treeSet xs = treeSet ys :=
  eq_of_strict_of_mem (strict_treeSet xs) (strict_treeSet ys) fun x => by
    rw [mem_treeSet, mem_treeSet, h x]

end Repetitions

/-- One more element excluded leaves fewer. -/
theorem filter_notMem_lt {α : Type} [BEq α] [LawfulBEq α] {x : α} {xs excluded : List α}
    (hx : x ∈ xs) (hnew : x ∉ excluded) :
    (xs.filter fun y => !(x :: excluded).contains y).length <
      (xs.filter fun y => !excluded.contains y).length := by
  have hsub : (xs.filter fun y => !(x :: excluded).contains y) =
      (xs.filter fun y => !excluded.contains y).filter fun y => !(y == x) := by
    rw [List.filter_filter]
    refine List.filter_congr fun y _ => ?_
    rw [List.contains_cons, Bool.not_or]
  rw [hsub, List.length_filter_lt_length_iff_exists]
  refine ⟨x, List.mem_filter.mpr ⟨hx, ?_⟩, by simp⟩
  rw [Bool.not_eq_true', ← Bool.not_eq_true, List.contains_iff_mem]
  exact hnew

/-! ## Where a list in order is cut -/

/-- `partition_point`, a binary search: where the elements that satisfy the
predicate all come first, the number of them. -/
structure PartitionPoint (α : Type) where
  index : (α → Bool) → List α → Nat
  index_append : ∀ p front back, (∀ a ∈ front, p a = true) → (∀ a ∈ back, p a = false) →
    index p (front ++ back) = front.length

namespace PartitionPoint

variable {α κ : Type} [LinearOrder κ]

/-- What is below a bound comes first. -/
theorem filter_append_filter {key : α → κ} {xs : List α}
    (hsorted : xs.Pairwise fun a b => key a ≤ key b) (bound : κ) :
    (xs.filter fun a => key a < bound) ++ (xs.filter fun a => bound ≤ key a) = xs := by
  induction xs with
  | nil => rfl
  | cons x xs ih =>
    obtain ⟨hx, hrest⟩ := List.pairwise_cons.mp hsorted
    by_cases hlt : key x < bound
    · rw [List.filter_cons_of_pos (p := fun a => decide (key a < bound)) (decide_eq_true hlt),
        List.filter_cons_of_neg (by simpa using hlt), List.cons_append, ih hrest]
    · have hle : bound ≤ key x := le_of_not_gt hlt
      -- no later element is below the bound either
      have hnone : (xs.filter fun a => decide (key a < bound)) = [] :=
        List.filter_eq_nil_iff.mpr fun a ha hbelow =>
          absurd (lt_of_le_of_lt (hx a ha) (of_decide_eq_true hbelow)) hlt
      rw [List.filter_cons_of_neg (by simpa using hle),
        List.filter_cons_of_pos (p := fun a => decide (bound ≤ key a)) (decide_eq_true hle), hnone,
        List.nil_append]
      refine congrArg (x :: ·) (List.filter_eq_self.mpr fun a ha => decide_eq_true ?_)
      exact hle.trans (hx a ha)

/-- The elements from the bound on. -/
theorem drop_index (s : PartitionPoint α) {key : α → κ} {xs : List α}
    (hsorted : xs.Pairwise fun a b => key a ≤ key b) (bound : κ) :
    xs.drop (s.index (fun a => key a < bound) xs) = xs.filter fun a => bound ≤ key a := by
  have hindex := s.index_append (fun a => key a < bound) (xs.filter fun a => key a < bound)
    (xs.filter fun a => bound ≤ key a) (fun a ha => (List.mem_filter.mp ha).2) fun a ha => by
      have hle := of_decide_eq_true (List.mem_filter.mp ha).2
      exact decide_eq_false (not_lt_of_ge hle)
  rw [filter_append_filter hsorted bound] at hindex
  rw [hindex]
  conv_lhs =>
    arg 2
    rw [← filter_append_filter hsorted bound]
  exact List.drop_left

/-- A search from the front. -/
def linear (α : Type) : PartitionPoint α where
  index p xs := (xs.takeWhile p).length
  index_append p front back hfront hback := by
    rw [List.takeWhile_append_of_pos hfront]
    cases back with
    | nil => rw [List.takeWhile_nil, List.append_nil]
    | cons a back =>
      rw [List.takeWhile_cons_of_neg (by rw [hback a (List.mem_cons_self ..)]; decide),
        List.append_nil]

end PartitionPoint

/-! ## Two lists in the order of their keys -/

section

variable {α β κ : Type} [LinearOrder κ]

/-- Elements updated from a second list, which is walked once along with the
first: what comes before an element is passed over, and at the end of the
second list the rest stays as it is. -/
def updateAlong (key : α → κ) (key' : β → κ) (update : α → β → α) : List α → List β → List α
  | [], _ => []
  | x :: xs, ys =>
    match ys.dropWhile fun y => key' y < key x with
    | [] => x :: xs
    | y :: ys =>
      (if key' y = key x then update x y else x) :: updateAlong key key' update xs (y :: ys)

variable {key : α → κ} {key' : β → κ} {update : α → β → α}

/-- What an element becomes when its counterpart is looked up. -/
def updateFrom (key : α → κ) (key' : β → κ) (update : α → β → α) (ys : List β) (x : α) : α :=
  match ys.find? fun y => key' y = key x with
  | some y => update x y
  | none => x

theorem updateFrom_dropWhile {ys : List β} {x x' : α} (hle : key x ≤ key x') :
    updateFrom key key' update (ys.dropWhile fun y => key' y < key x) x' =
      updateFrom key key' update ys x' := by
  induction ys with
  | nil => rfl
  | cons y ys ih =>
    rw [List.dropWhile_cons]
    split
    next hlt =>
      -- what is passed over has a smaller key
      have hne : key' y ≠ key x' := ne_of_lt (lt_of_lt_of_le (of_decide_eq_true hlt) hle)
      rw [ih]
      unfold updateFrom
      rw [List.find?_cons_of_neg (by simpa using hne)]
    next => rfl

theorem updateFrom_eq_self {ys : List β} {x : α} (h : ∀ y ∈ ys, key' y ≠ key x) :
    updateFrom key key' update ys x = x := by
  have hnone : (ys.find? fun y => decide (key' y = key x)) = none :=
    List.find?_eq_none.mpr fun y hy heq => h y hy (of_decide_eq_true heq)
  unfold updateFrom
  rw [hnone]

/-- The counterpart is the only element with the key. -/
theorem updateFrom_of_mem {ys : List β} (hys : ys.Pairwise fun y y' => key' y < key' y')
    {x : α} {y : β} (hy : y ∈ ys) (heq : key' y = key x) :
    updateFrom key key' update ys x = update x y := by
  have hnodup : (ys.map key').Nodup := List.pairwise_map.mpr (hys.imp ne_of_lt)
  unfold updateFrom
  split
  next found hfind =>
    have hkey := List.find?_some hfind
    rw [decide_eq_true_eq] at hkey
    rw [List.inj_on_of_nodup_map hnodup (List.mem_of_find?_eq_some hfind) hy
      (hkey.trans heq.symm)]
  next hfind => exact absurd (decide_eq_true heq) (List.find?_eq_none.mp hfind y hy)

/-- Walking along is looking up. -/
theorem updateAlong_eq_map {xs : List α} {ys : List β}
    (hxs : xs.Pairwise fun x x' => key x ≤ key x') (hys : ys.Pairwise fun y y' => key' y < key' y') :
    updateAlong key key' update xs ys = xs.map (updateFrom key key' update ys) := by
  induction xs generalizing ys with
  | nil => rfl
  | cons x xs ih =>
    obtain ⟨hx, hrest⟩ := List.pairwise_cons.mp hxs
    have hsub : (ys.dropWhile fun y => decide (key' y < key x)).Sublist ys :=
      (List.dropWhile_suffix _).sublist
    have hskip : ∀ x' ∈ x :: xs, updateFrom key key' update
        (ys.dropWhile fun y => key' y < key x) x' = updateFrom key key' update ys x' := by
      intro x' hx'
      refine updateFrom_dropWhile ?_
      rcases List.mem_cons.mp hx' with rfl | hx'
      · exact le_refl _
      · exact hx x' hx'
    rw [updateAlong, ← List.map_congr_left hskip]
    cases hdrop : ys.dropWhile fun y => decide (key' y < key x) with
    | nil => exact (List.map_id' _).symm
    | cons y rest =>
      rw [hdrop] at hsub
      have hge : key x ≤ key' y := by
        have hnot := List.head_dropWhile_not (l := ys) (fun y => decide (key' y < key x))
          (by rw [hdrop]; exact List.cons_ne_nil _ _)
        simp only [hdrop, List.head_cons, decide_eq_false_iff_not] at hnot
        exact le_of_not_gt hnot
      simp only
      rw [ih hrest (hys.sublist hsub), List.map_cons]
      congr 1
      by_cases heq : key' y = key x
      · rw [if_pos heq]
        unfold updateFrom
        rw [List.find?_cons_of_pos (p := fun y => decide (key' y = key x)) (decide_eq_true heq)]
      · rw [if_neg heq]
        refine (updateFrom_eq_self fun y' hy' => ne_of_gt ?_).symm
        have hlt : key x < key' y := lt_of_le_of_ne hge (Ne.symm heq)
        rcases List.mem_cons.mp hy' with rfl | hy'
        · exact hlt
        · exact hlt.trans (List.rel_of_pairwise_cons (hys.sublist hsub) hy')

end

end Folo.Lib
