import Mathlib.Data.List.Basic
import Mathlib.Order.Lattice.Nat

/-!
# Edit scripts and furthest-reaching paths

An edit script aligns two lists. Myers' search goes by the number of edits: of
the paths that end on a diagonal after that many edits it keeps the one that is
furthest along (`furthest`). A path may leave the grid of the two lists, but
then a path with one edit less was as far before (`furthest_outside_left`,
`furthest_outside_right`), so that the first path past the far corner ends
at the corner (`eq_corner_of_first`), and following the choices back from there
gives a script that aligns the lists (`aligns_of_first`). No script is ahead of
the furthest paths (`arrived_of_aligns`), so that it is a shortest one
(`eq_editDistance_of_first`).
-/

namespace Folo.Lib

inductive Edit
  | keep
  | delete
  | insert
  deriving DecidableEq

variable {α : Type}

/-- The script turns the first list into the second one. -/
inductive Aligns : List Edit → List α → List α → Prop
  | nil : Aligns [] [] []
  | keep {script xs ys} (x : α) : Aligns script xs ys → Aligns (.keep :: script) (x :: xs) (x :: ys)
  | delete {script xs ys} (x : α) : Aligns script xs ys → Aligns (.delete :: script) (x :: xs) ys
  | insert {script xs ys} (y : α) : Aligns script xs ys → Aligns (.insert :: script) xs (y :: ys)

theorem Aligns.keeps {script : List Edit} {xs ys : List α} (h : Aligns script xs ys)
    (both : List α) :
    Aligns (List.replicate both.length .keep ++ script) (both ++ xs) (both ++ ys) := by
  induction both with
  | nil => exact h
  | cons x both ih => exact .keep x ih

theorem Aligns.deletes {script : List Edit} {xs ys : List α} (h : Aligns script xs ys)
    (gone : List α) :
    Aligns (List.replicate gone.length .delete ++ script) (gone ++ xs) ys := by
  induction gone with
  | nil => exact h
  | cons x gone ih => exact .delete x ih

theorem aligns_inserts (ys : List α) : Aligns (List.replicate ys.length .insert) [] ys := by
  induction ys with
  | nil => exact .nil
  | cons y ys ih => exact .insert y ih

/-- Deleting everything and inserting everything is a script. -/
theorem aligns_whole (xs ys : List α) : Aligns
    (List.replicate xs.length .delete ++ List.replicate ys.length .insert) xs ys := by
  have h := (aligns_inserts ys).deletes xs
  rwa [List.append_nil] at h

/-- A script that only keeps aligns a list with itself. -/
theorem Aligns.eq_of_keeps {script : List Edit} {xs ys : List α} (h : Aligns script xs ys)
    (hkeeps : ∀ e ∈ script, e = .keep) : xs = ys := by
  induction h with
  | nil => rfl
  | keep x _ ih => rw [ih fun e he => hkeeps e (List.mem_cons_of_mem _ he)]
  | delete x _ _ => nomatch hkeeps _ (List.mem_cons_self ..)
  | insert y _ _ => nomatch hkeeps _ (List.mem_cons_self ..)

/-! ## The number of edits -/

/-- The deletions and insertions of a script. -/
def edits (script : List Edit) : Nat := script.count .delete + script.count .insert

theorem edits_cons (edit : Edit) (script : List Edit) :
    edits (edit :: script) = (if edit = .keep then 0 else 1) + edits script := by
  unfold edits
  rw [List.count_cons, List.count_cons]
  cases edit with
  | keep => simp
  | delete =>
    simp only [beq_self_eq_true, if_true, reduceCtorEq, beq_iff_eq, if_false]
    omega
  | insert =>
    simp only [beq_self_eq_true, if_true, reduceCtorEq, beq_iff_eq, if_false]
    omega

theorem edits_keeps (n : Nat) (script : List Edit) :
    edits (List.replicate n .keep ++ script) = edits script := by
  induction n with
  | zero => rfl
  | succ n ih =>
    rw [List.replicate_succ, List.cons_append, edits_cons, if_pos rfl, ih, Nat.zero_add]

/-- A script without edits only keeps. -/
theorem keeps_of_edits {script : List Edit} (h : edits script = 0) : ∀ e ∈ script, e = .keep := by
  unfold edits at h
  intro e he
  cases e with
  | keep => rfl
  | delete => exact absurd he (List.count_eq_zero.mp (by omega))
  | insert => exact absurd he (List.count_eq_zero.mp (by omega))

/-- The edits of the shortest scripts. -/
noncomputable def editDistance (xs ys : List α) : Nat :=
  sInf { n | ∃ script, Aligns script xs ys ∧ edits script = n }

theorem exists_editDistance (xs ys : List α) :
    ∃ script, Aligns script xs ys ∧ edits script = editDistance xs ys :=
  Nat.sInf_mem (s := { n | ∃ script, Aligns script xs ys ∧ edits script = n })
    ⟨_, _, aligns_whole xs ys, rfl⟩

theorem editDistance_le {script : List Edit} {xs ys : List α} (h : Aligns script xs ys) :
    editDistance xs ys ≤ edits script := Nat.sInf_le ⟨script, h, rfl⟩

theorem editDistance_le_length (xs ys : List α) : editDistance xs ys ≤ xs.length + ys.length := by
  refine Nat.le_trans (editDistance_le (aligns_whole xs ys)) ?_
  unfold edits
  rw [List.count_append, List.count_append, List.count_replicate_self, List.count_replicate_self,
    List.count_replicate, List.count_replicate, if_neg (by decide), if_neg (by decide)]
  omega

/-! ## Shared lines -/

variable [DecidableEq α]

/-- How many leading elements both lists share. -/
def shared (xs ys : List α) : Nat := ((xs.zip ys).takeWhile fun p => decide (p.1 = p.2)).length

theorem shared_cons (x y : α) (xs ys : List α) :
    shared (x :: xs) (y :: ys) = if x = y then shared xs ys + 1 else 0 := by
  unfold shared
  rw [List.zip_cons_cons, List.takeWhile_cons]
  by_cases heq : x = y
  · rw [if_pos heq, if_pos (decide_eq_true heq), List.length_cons]
  · rw [if_neg heq, if_neg (by simpa using heq), List.length_nil]

/-- What is shared is a prefix of both. -/
theorem exists_shared (xs ys : List α) : ∃ both, both.length = shared xs ys ∧
    xs = both ++ xs.drop (shared xs ys) ∧ ys = both ++ ys.drop (shared xs ys) := by
  induction xs generalizing ys with
  | nil => exact ⟨[], rfl, rfl, rfl⟩
  | cons x xs ih =>
    cases ys with
    | nil => exact ⟨[], rfl, rfl, rfl⟩
    | cons y ys =>
      rw [shared_cons]
      by_cases heq : x = y
      · obtain ⟨both, hlength, hxs, hys⟩ := ih ys
        rw [if_pos heq]
        refine ⟨x :: both, by rw [List.length_cons, hlength], ?_, ?_⟩
        · rw [List.drop_succ_cons, List.cons_append, ← hxs]
        · rw [List.drop_succ_cons, List.cons_append, ← hys, heq]
      · rw [if_neg heq]
        exact ⟨[], rfl, rfl, rfl⟩

theorem shared_le (xs ys : List α) : shared xs ys ≤ xs.length ∧ shared xs ys ≤ ys.length := by
  have h := (List.takeWhile_prefix (l := xs.zip ys) fun p => decide (p.1 = p.2)).length_le
  rw [List.length_zip] at h
  unfold shared
  omega

/-- After what is shared the lists differ, or one of them ends. -/
theorem shared_stops (xs ys : List α) {x : α} (hx : xs[shared xs ys]? = some x) :
    ys[shared xs ys]? ≠ some x := by
  induction xs generalizing ys with
  | nil => nomatch hx
  | cons a xs ih =>
    cases ys with
    | nil => nofun
    | cons b ys =>
      rw [shared_cons] at hx ⊢
      split at hx
      next heq =>
        rw [if_pos heq, List.getElem?_cons_succ]
        exact ih ys hx
      next hne =>
        rw [if_neg hne, List.getElem?_cons_zero]
        rw [List.getElem?_cons_zero, Option.some.injEq] at hx
        intro hb
        exact hne (hx.trans (Option.some.inj hb).symm)

/-- What is left of a list at a position, which may be outside of it. -/
def remaining (xs : List α) (index : Int) : List α :=
  if 0 ≤ index then xs.drop index.toNat else []

/-- The position on a diagonal after what both lists share from there. -/
def slide (xs ys : List α) (k x : Int) : Int :=
  x + shared (remaining xs x) (remaining ys (x - k))

variable {xs ys : List α}

theorem le_slide (xs ys : List α) (k x : Int) : x ≤ slide xs ys k x := by
  unfold slide
  omega

/-- A slide that moves stays inside both lists. -/
theorem slide_inside {k x : Int} (h : x < slide xs ys k x) :
    slide xs ys k x ≤ xs.length ∧ slide xs ys k x - k ≤ ys.length := by
  have hle := shared_le (remaining xs x) (remaining ys (x - k))
  unfold slide at h ⊢
  have hlength : ∀ (zs : List α) i, (remaining zs i).length = if 0 ≤ i then
      zs.length - i.toNat else 0 := by
    intro zs i
    unfold remaining
    split
    · rw [List.length_drop]
    · rfl
  rw [hlength, hlength] at hle
  split at hle
  next hx =>
    split at hle
    next hy => omega
    next hy => omega
  next hx => omega

/-- A slide goes on until the lists differ. -/
theorem slide_stops {k x : Int} (hx : 0 ≤ x) (hy : 0 ≤ x - k) {a : α}
    (ha : xs[(slide xs ys k x).toNat]? = some a) : ys[(slide xs ys k x - k).toNat]? ≠ some a := by
  unfold slide remaining at *
  rw [if_pos hx, if_pos hy] at *
  have hstops := shared_stops (xs.drop x.toNat) (ys.drop (x - k).toNat) (x := a)
  generalize shared (xs.drop x.toNat) (ys.drop (x - k).toNat) = n at *
  rw [List.getElem?_drop, List.getElem?_drop] at hstops
  rw [show (x + (n : Int)).toNat = x.toNat + n by omega] at ha
  rw [show (x + (n : Int) - k).toNat = (x - k).toNat + n by omega]
  exact hstops ha

/-! ## Furthest-reaching paths -/

/-- The diagonals that some number of edits may end on. -/
def OnDiagonal (e : Nat) (k : Int) : Prop := -(e : Int) ≤ k ∧ k ≤ e ∧ (k + e) % 2 = 0

/-- Whether a diagonal is entered by an insertion, from the one above, or by a
deletion, from the one below. -/
def entersByInsertion (row : Int → Int) (e : Nat) (k : Int) : Bool :=
  if k = -(e : Int) then true
  else if k = e then false
  else decide (row (k - 1) < row (k + 1))

/-- Where a diagonal is entered. -/
def enter (row : Int → Int) (e : Nat) (k : Int) : Int :=
  if entersByInsertion row e k then row (k + 1) else row (k - 1) + 1

/-- The position in the first list that the furthest path on a diagonal has
after a number of edits. -/
def furthest (xs ys : List α) : Nat → Int → Int
  | 0, k => slide xs ys k 0
  | e + 1, k => slide xs ys k (enter (furthest xs ys e) (e + 1) k)

/-- The path is past the end of both lists. -/
def Arrived (xs ys : List α) (e : Nat) (k : Int) : Prop :=
  (xs.length : Int) ≤ furthest xs ys e k ∧ (ys.length : Int) ≤ furthest xs ys e k - k

/-- Where a diagonal is entered: from the furthest of the paths next to it. -/
theorem enter_spec (row : Int → Int) {e : Nat} {k : Int} (hk : OnDiagonal (e + 1) k) :
    (entersByInsertion row (e + 1) k = true ∧ OnDiagonal e (k + 1) ∧
        enter row (e + 1) k = row (k + 1) ∨
      entersByInsertion row (e + 1) k = false ∧ OnDiagonal e (k - 1) ∧
        enter row (e + 1) k = row (k - 1) + 1) ∧
    (OnDiagonal e (k + 1) → row (k + 1) ≤ enter row (e + 1) k) ∧
    (OnDiagonal e (k - 1) → row (k - 1) + 1 ≤ enter row (e + 1) k) := by
  unfold OnDiagonal at *
  unfold enter entersByInsertion
  obtain ⟨hlow, hhigh, hparity⟩ := hk
  push_cast at *
  by_cases hbottom : k = -((e : Int) + 1)
  · rw [if_pos hbottom, if_pos rfl]
    refine ⟨.inl ⟨rfl, by omega, rfl⟩, fun _ => Int.le_refl _, fun h => by omega⟩
  · rw [if_neg hbottom]
    by_cases htop : k = (e : Int) + 1
    · rw [if_pos htop, if_neg Bool.false_ne_true]
      exact ⟨.inr ⟨rfl, by omega, rfl⟩, fun h => by omega, fun _ => Int.le_refl _⟩
    · rw [if_neg htop]
      by_cases hlt : row (k - 1) < row (k + 1)
      · rw [if_pos (decide_eq_true hlt)]
        exact ⟨.inl ⟨decide_eq_true hlt, by omega, rfl⟩, fun _ => Int.le_refl _, fun _ => by omega⟩
      · rw [if_neg (by simpa using hlt)]
        exact ⟨.inr ⟨decide_eq_false hlt, by omega, rfl⟩, fun _ => by omega, fun _ => Int.le_refl _⟩

theorem furthest_insertion_le {e : Nat} {k : Int} (hk : OnDiagonal (e + 1) k)
    (h : OnDiagonal e (k + 1)) : furthest xs ys e (k + 1) ≤ furthest xs ys (e + 1) k :=
  Int.le_trans ((enter_spec _ hk).2.1 h) (le_slide ..)

theorem furthest_deletion_le {e : Nat} {k : Int} (hk : OnDiagonal (e + 1) k)
    (h : OnDiagonal e (k - 1)) : furthest xs ys e (k - 1) + 1 ≤ furthest xs ys (e + 1) k :=
  Int.le_trans ((enter_spec _ hk).2.2 h) (le_slide ..)

/-- Paths stay at and after the start of both lists. -/
theorem furthest_nonneg {e : Nat} {k : Int} (hk : OnDiagonal e k) :
    0 ≤ furthest xs ys e k ∧ 0 ≤ furthest xs ys e k - k := by
  induction e generalizing k with
  | zero =>
    have hle : 0 ≤ furthest xs ys 0 k := le_slide xs ys k 0
    unfold OnDiagonal at hk
    omega
  | succ e ih =>
    have hle : enter (furthest xs ys e) (e + 1) k ≤ furthest xs ys (e + 1) k := le_slide ..
    obtain ⟨⟨-, hfrom, heq⟩ | ⟨-, hfrom, heq⟩, -⟩ := enter_spec (furthest xs ys e) hk
    · have := ih hfrom
      omega
    · have := ih hfrom
      omega

/-- A path that is past the end of the first list: one with an edit less was
past it, on the diagonal below. -/
theorem furthest_outside_left {e : Nat} {k : Int} (hk : OnDiagonal e k)
    (h : (xs.length : Int) < furthest xs ys e k) : ∃ e', e = e' + 1 ∧ OnDiagonal e' (k - 1) ∧
      furthest xs ys e k - 1 ≤ furthest xs ys e' (k - 1) := by
  induction e generalizing k with
  | zero =>
    have hinside : 0 < slide xs ys k 0 → slide xs ys k 0 ≤ xs.length := fun hlt =>
      (slide_inside hlt).1
    have hstart : furthest xs ys 0 k = slide xs ys k 0 := rfl
    omega
  | succ e ih =>
    -- the path has not moved after it entered the diagonal
    have hstay : furthest xs ys (e + 1) k = enter (furthest xs ys e) (e + 1) k := by
      have hle : enter (furthest xs ys e) (e + 1) k ≤ furthest xs ys (e + 1) k := le_slide ..
      have hinside : enter (furthest xs ys e) (e + 1) k < furthest xs ys (e + 1) k →
          furthest xs ys (e + 1) k ≤ xs.length := fun hlt => (slide_inside hlt).1
      omega
    obtain ⟨⟨-, hfrom, heq⟩ | ⟨-, hfrom, heq⟩, -⟩ := enter_spec (furthest xs ys e) hk
    · obtain ⟨e', rfl, hon, hle⟩ := ih hfrom (by omega)
      rw [show k + 1 - 1 = k by omega] at hon hle
      have hnext : OnDiagonal (e' + 1) (k - 1) := by
        unfold OnDiagonal at *
        omega
      have hmore : furthest xs ys e' (k - 1 + 1) ≤ furthest xs ys (e' + 1) (k - 1) :=
        furthest_insertion_le hnext (by
          rw [show k - 1 + 1 = k by omega]
          exact hon)
      rw [show k - 1 + 1 = k by omega] at hmore
      exact ⟨e' + 1, rfl, hnext, by omega⟩
    · exact ⟨e, rfl, hfrom, by omega⟩

/-- Past the end of the second list, one with an edit less was past it, on the
diagonal above. -/
theorem furthest_outside_right {e : Nat} {k : Int} (hk : OnDiagonal e k)
    (h : (ys.length : Int) < furthest xs ys e k - k) : ∃ e', e = e' + 1 ∧
      OnDiagonal e' (k + 1) ∧ furthest xs ys e k ≤ furthest xs ys e' (k + 1) := by
  induction e generalizing k with
  | zero =>
    have hinside : 0 < slide xs ys k 0 → slide xs ys k 0 - k ≤ ys.length := fun hlt =>
      (slide_inside hlt).2
    have hle : 0 ≤ slide xs ys k 0 := le_slide ..
    have hstart : furthest xs ys 0 k = slide xs ys k 0 := rfl
    unfold OnDiagonal at hk
    omega
  | succ e ih =>
    have hstay : furthest xs ys (e + 1) k = enter (furthest xs ys e) (e + 1) k := by
      have hle : enter (furthest xs ys e) (e + 1) k ≤ furthest xs ys (e + 1) k := le_slide ..
      have hinside : enter (furthest xs ys e) (e + 1) k < furthest xs ys (e + 1) k →
          furthest xs ys (e + 1) k - k ≤ ys.length := fun hlt => (slide_inside hlt).2
      omega
    obtain ⟨⟨-, hfrom, heq⟩ | ⟨-, hfrom, heq⟩, -⟩ := enter_spec (furthest xs ys e) hk
    · exact ⟨e, rfl, hfrom, by omega⟩
    · obtain ⟨e', rfl, hon, hle⟩ := ih hfrom (by omega)
      rw [show k - 1 + 1 = k by omega] at hon hle
      have hnext : OnDiagonal (e' + 1) (k + 1) := by
        unfold OnDiagonal at *
        omega
      have hmore : furthest xs ys e' (k + 1 - 1) + 1 ≤ furthest xs ys (e' + 1) (k + 1) :=
        furthest_deletion_le hnext (by
          rw [show k + 1 - 1 = k by omega]
          exact hon)
      rw [show k + 1 - 1 = k by omega] at hmore
      exact ⟨e' + 1, rfl, hnext, by omega⟩

/-- The first path that is past the end of both lists is at their corner. -/
theorem eq_corner_of_first {e : Nat} {k : Int} (hk : OnDiagonal e k) (h : Arrived xs ys e k)
    (hfirst : ∀ e' < e, ∀ k', OnDiagonal e' k' → ¬ Arrived xs ys e' k') :
    furthest xs ys e k = xs.length ∧ k = (xs.length : Int) - ys.length := by
  obtain ⟨hleft, hright⟩ := h
  have hx : furthest xs ys e k ≤ xs.length := by
    by_contra hlt
    obtain ⟨e', rfl, hon, hle⟩ := furthest_outside_left hk (Int.not_le.mp hlt)
    refine hfirst e' (by omega) _ hon ⟨by omega, by omega⟩
  have hy : furthest xs ys e k - k ≤ ys.length := by
    by_contra hlt
    obtain ⟨e', rfl, hon, hle⟩ := furthest_outside_right hk (Int.not_le.mp hlt)
    refine hfirst e' (by omega) _ hon ⟨by omega, by omega⟩
  omega

/-! ## No script is ahead of the furthest path -/

/-- A furthest path has slid from a position after the start of both lists. -/
theorem exists_slide {e : Nat} {k : Int} (hk : OnDiagonal e k) :
    ∃ x, 0 ≤ x ∧ 0 ≤ x - k ∧ furthest xs ys e k = slide xs ys k x := by
  cases e with
  | zero =>
    unfold OnDiagonal at hk
    exact ⟨0, Int.le_refl 0, by omega, rfl⟩
  | succ e =>
    refine ⟨enter (furthest xs ys e) (e + 1) k, ?_, ?_, rfl⟩ <;>
    · obtain ⟨⟨-, hfrom, heq⟩ | ⟨-, hfrom, heq⟩, -⟩ := enter_spec (furthest xs ys e) hk
      · obtain ⟨hx, hy⟩ : 0 ≤ furthest xs ys e _ ∧ 0 ≤ furthest xs ys e _ - _ :=
          furthest_nonneg hfrom
        omega
      · obtain ⟨hx, hy⟩ : 0 ≤ furthest xs ys e _ ∧ 0 ≤ furthest xs ys e _ - _ :=
          furthest_nonneg hfrom
        omega

/-- A line that both lists share at a position is passed without an edit. -/
theorem succ_le_furthest {e i j : Nat} (hk : OnDiagonal e ((i : Int) - j))
    (hle : (i : Int) ≤ furthest xs ys e (i - j)) {a : α} (hx : xs[i]? = some a)
    (hy : ys[j]? = some a) : ((i + 1 : Nat) : Int) ≤ furthest xs ys e (i - j) := by
  by_contra hlt
  obtain ⟨x, hx0, hy0, hslide⟩ :
      ∃ x : Int, 0 ≤ x ∧ 0 ≤ x - (i - j) ∧
        furthest xs ys e (i - j) = slide xs ys (i - j) x :=
    exists_slide hk
  -- the path would stop where the lists agree
  have hstop : slide xs ys (i - j) x = i := by omega
  have hend : ((i : Int) - (i - j)).toNat = j := by omega
  have hstops : ys[(slide xs ys (i - j) x - (i - j)).toNat]? ≠ some a := by
    refine slide_stops hx0 hy0 ?_
    rw [hstop, Int.toNat_natCast]
    exact hx
  rw [hstop, hend] at hstops
  exact hstops hy

/-- From a position that the furthest path has reached, with as many edits, the
rest of a script goes to the far corner. -/
theorem arrived_of_drop {script : List Edit} {e i j : Nat} (hk : OnDiagonal e ((i : Int) - j))
    (hle : (i : Int) ≤ furthest xs ys e (i - j)) (hi : i ≤ xs.length) (hj : j ≤ ys.length)
    (h : Aligns script (xs.drop i) (ys.drop j)) :
    ∃ k, OnDiagonal (e + edits script) k ∧ Arrived xs ys (e + edits script) k := by
  -- what a position of a list holds, and what is left after it
  have hnext : ∀ {zs : List α} {n : Nat} {a : α} {rest}, zs.drop n = a :: rest →
      zs[n]? = some a ∧ rest = zs.drop (n + 1) ∧ n + 1 ≤ zs.length := by
    intro zs n a rest heq
    have hget : zs[n]? = some a := by
      rw [← Nat.add_zero n, ← List.getElem?_drop, heq, List.getElem?_cons_zero]
    refine ⟨hget, ?_, (List.getElem?_eq_some_iff.mp hget).1⟩
    rw [← List.drop_drop, heq, List.drop_one, List.tail_cons]
  generalize hxs : xs.drop i = left at h
  generalize hys : ys.drop j = right at h
  induction h generalizing e i j with
  | nil =>
    have hx := List.drop_eq_nil_iff.mp hxs
    have hy := List.drop_eq_nil_iff.mp hys
    refine ⟨_, hk, ?_⟩
    show Arrived xs ys e _
    unfold Arrived
    omega
  | keep a _ ih =>
    obtain ⟨hx, rfl, hi'⟩ := hnext hxs
    obtain ⟨hy, rfl, hj'⟩ := hnext hys
    have hsame : ((i + 1 : Nat) : Int) - (j + 1 : Nat) = i - j := by omega
    have hpassed := succ_le_furthest hk hle hx hy
    rw [edits_cons, if_pos rfl, Nat.zero_add]
    exact ih (by rw [hsame]; exact hk) (by rw [hsame]; exact hpassed) hi' hj' rfl rfl
  | delete a _ ih =>
    obtain ⟨hx, rfl, hi'⟩ := hnext hxs
    have hmore : OnDiagonal (e + 1) (((i + 1 : Nat) : Int) - j) := by
      unfold OnDiagonal at *
      omega
    have hfrom : ((i + 1 : Nat) : Int) - j - 1 = i - j := by omega
    have hdeleted : furthest xs ys e (((i + 1 : Nat) : Int) - j - 1) + 1 ≤
        furthest xs ys (e + 1) (((i + 1 : Nat) : Int) - j) :=
      furthest_deletion_le hmore (by rw [hfrom]; exact hk)
    rw [hfrom] at hdeleted
    rw [edits_cons, if_neg nofun, ← Nat.add_assoc]
    exact ih hmore (by omega) hi' hj rfl hys
  | insert b _ ih =>
    obtain ⟨hy, rfl, hj'⟩ := hnext hys
    have hmore : OnDiagonal (e + 1) ((i : Int) - (j + 1 : Nat)) := by
      unfold OnDiagonal at *
      omega
    have hfrom : (i : Int) - (j + 1 : Nat) + 1 = i - j := by omega
    have hinserted : furthest xs ys e ((i : Int) - (j + 1 : Nat) + 1) ≤
        furthest xs ys (e + 1) ((i : Int) - (j + 1 : Nat)) :=
      furthest_insertion_le hmore (by rw [hfrom]; exact hk)
    rw [hfrom] at hinserted
    rw [edits_cons, if_neg nofun, ← Nat.add_assoc]
    exact ih hmore (by omega) hi hj' hxs rfl

/-- With the edits of a script some path is past the end of both lists. -/
theorem arrived_of_aligns {script : List Edit} (h : Aligns script xs ys) :
    ∃ k, OnDiagonal (edits script) k ∧ Arrived xs ys (edits script) k := by
  have hstart : (0 : Int) ≤ furthest xs ys 0 0 := le_slide xs ys 0 0
  have hdiagonal : OnDiagonal 0 0 := by
    unfold OnDiagonal
    omega
  have harrived := arrived_of_drop (e := 0) (i := 0) (j := 0) hdiagonal hstart (Nat.zero_le _)
    (Nat.zero_le _) h
  rwa [Nat.zero_add] at harrived

/-! ## Following the choices back -/

/-- The script of the furthest path on a diagonal, in front of one. -/
def retrace (xs ys : List α) : Nat → Int → List Edit → List Edit
  | 0, k, script => List.replicate (furthest xs ys 0 k).toNat .keep ++ script
  | e + 1, k, script =>
    let entered := enter (furthest xs ys e) (e + 1) k
    let script := List.replicate (furthest xs ys (e + 1) k - entered).toNat .keep ++ script
    if entersByInsertion (furthest xs ys e) (e + 1) k then
      retrace xs ys e (k + 1) (.insert :: script)
    else retrace xs ys e (k - 1) (.delete :: script)

/-- What a slide moves over is shared. -/
theorem aligns_slide {script : List Edit} {k x : Int} (hx : 0 ≤ x) (hy : 0 ≤ x - k)
    (h : Aligns script (xs.drop (slide xs ys k x).toNat) (ys.drop (slide xs ys k x - k).toNat)) :
    Aligns (List.replicate (slide xs ys k x - x).toNat .keep ++ script) (xs.drop x.toNat)
      (ys.drop (x - k).toNat) := by
  obtain ⟨both, hlength, hxs, hys⟩ := exists_shared (xs.drop x.toNat) (ys.drop (x - k).toNat)
  have hslide : slide xs ys k x = x + shared (xs.drop x.toNat) (ys.drop (x - k).toNat) := by
    unfold slide remaining
    rw [if_pos hx, if_pos hy]
  rw [List.drop_drop] at hxs hys
  rw [hslide] at h ⊢
  rw [show (x + shared (xs.drop x.toNat) (ys.drop (x - k).toNat)).toNat =
    x.toNat + shared (xs.drop x.toNat) (ys.drop (x - k).toNat) by omega] at h
  rw [show (x + shared (xs.drop x.toNat) (ys.drop (x - k).toNat) - k).toNat =
    (x - k).toNat + shared (xs.drop x.toNat) (ys.drop (x - k).toNat) by omega] at h
  have hkeeps := h.keeps both
  rw [← hxs, ← hys, hlength] at hkeeps
  rwa [show (x + (shared (xs.drop x.toNat) (ys.drop (x - k).toNat) : Int) - x).toNat =
    shared (xs.drop x.toNat) (ys.drop (x - k).toNat) by omega]

/-- From a path inside of the grid, and a script for what is left after it, the
choices give a script for the lists. -/
theorem aligns_retrace {e : Nat} {k : Int} (hk : OnDiagonal e k)
    (hx : furthest xs ys e k ≤ xs.length) (hy : furthest xs ys e k - k ≤ ys.length)
    {script : List Edit} (h : Aligns script (xs.drop (furthest xs ys e k).toNat)
      (ys.drop (furthest xs ys e k - k).toNat)) : Aligns (retrace xs ys e k script) xs ys := by
  induction e generalizing k script with
  | zero =>
    have hzero : k = 0 := by
      unfold OnDiagonal at hk
      omega
    subst hzero
    have hslide := aligns_slide (k := 0) (x := 0) (by omega) (by omega) h
    rw [show (slide xs ys 0 0 - 0).toNat = (slide xs ys 0 0).toNat by omega] at hslide
    exact hslide
  | succ e ih =>
    obtain ⟨hentered, -⟩ := enter_spec (furthest xs ys e) hk
    have hle : enter (furthest xs ys e) (e + 1) k ≤ furthest xs ys (e + 1) k := le_slide ..
    unfold retrace
    dsimp only
    rcases hentered with ⟨hinsertion, hfrom, heq⟩ | ⟨hinsertion, hfrom, heq⟩
    · obtain ⟨hx', hy'⟩ : 0 ≤ furthest xs ys e _ ∧ 0 ≤ furthest xs ys e _ - _ :=
        furthest_nonneg hfrom
      have hslide := aligns_slide (x := enter (furthest xs ys e) (e + 1) k) (by omega)
        (by omega) h
      rw [if_pos hinsertion]
      refine ih hfrom (by omega) (by omega) ?_
      -- the element that is inserted comes right before where the diagonal is entered
      have hlt : (furthest xs ys e (k + 1) - (k + 1)).toNat < ys.length := by omega
      rw [List.drop_eq_getElem_cons hlt]
      rw [show (furthest xs ys e (k + 1) - (k + 1)).toNat + 1 =
        (enter (furthest xs ys e) (e + 1) k - k).toNat by omega]
      have hsame : xs.drop (furthest xs ys e (k + 1)).toNat =
          xs.drop (enter (furthest xs ys e) (e + 1) k).toNat := by rw [heq]
      rw [hsame]
      exact .insert _ hslide
    · obtain ⟨hx', hy'⟩ : 0 ≤ furthest xs ys e _ ∧ 0 ≤ furthest xs ys e _ - _ :=
        furthest_nonneg hfrom
      have hslide := aligns_slide (x := enter (furthest xs ys e) (e + 1) k) (by omega)
        (by omega) h
      rw [if_neg (by rw [hinsertion]; exact Bool.false_ne_true)]
      refine ih hfrom (by omega) (by omega) ?_
      have hlt : (furthest xs ys e (k - 1)).toNat < xs.length := by omega
      rw [List.drop_eq_getElem_cons hlt]
      rw [show (furthest xs ys e (k - 1)).toNat + 1 =
        (enter (furthest xs ys e) (e + 1) k).toNat by omega,
        show (furthest xs ys e (k - 1) - (k - 1)).toNat =
          (enter (furthest xs ys e) (e + 1) k - k).toNat by omega]
      exact .delete _ hslide

/-- Every choice but the first one is an edit. -/
theorem edits_retrace (e : Nat) (k : Int) (script : List Edit) :
    edits (retrace xs ys e k script) = e + edits script := by
  induction e generalizing k script with
  | zero => rw [retrace, edits_keeps, Nat.zero_add]
  | succ e ih =>
    unfold retrace
    dsimp only
    split
    next =>
      rw [ih, edits_cons, if_neg nofun, edits_keeps]
      omega
    next =>
      rw [ih, edits_cons, if_neg nofun, edits_keeps]
      omega

/-- The first path past the end of both lists gives a script. -/
theorem aligns_of_first {e : Nat} {k : Int} (hk : OnDiagonal e k) (h : Arrived xs ys e k)
    (hfirst : ∀ e' < e, ∀ k', OnDiagonal e' k' → ¬ Arrived xs ys e' k') :
    Aligns (retrace xs ys e k []) xs ys := by
  obtain ⟨hx, hk'⟩ := eq_corner_of_first hk h hfirst
  have hy : furthest xs ys e k - k = ys.length := by omega
  refine aligns_retrace hk (by omega) (by omega) ?_
  rw [hy, hx, Int.toNat_natCast, Int.toNat_natCast, List.drop_length, List.drop_length]
  exact .nil

/-- It has no more edits than any other. -/
theorem eq_editDistance_of_first {e : Nat} {k : Int} (hk : OnDiagonal e k)
    (h : Arrived xs ys e k)
    (hfirst : ∀ e' < e, ∀ k', OnDiagonal e' k' → ¬ Arrived xs ys e' k') :
    e = editDistance xs ys := by
  refine Nat.le_antisymm ?_ ?_
  · obtain ⟨script, haligns, hdistance⟩ := exists_editDistance xs ys
    obtain ⟨k', hk', harrived⟩ := arrived_of_aligns haligns
    rw [hdistance] at hk' harrived
    by_contra hlt
    exact hfirst _ (Nat.lt_of_not_le hlt) k' hk' harrived
  · have hle := editDistance_le (aligns_of_first hk h hfirst)
    rwa [edits_retrace] at hle

end Folo.Lib
