import Folo.Lib.EditScripts
import Folo.ReleasePlan.Versions

/-!
# Line edits

`edit_script` and `changed_regions` of `crp_versioning/diff.rs`. The rows of
`myers_trace` hold the furthest-reaching paths (`myersTrace_spec`), so that
`backtrack` follows their choices back without a read outside of them
(`backtrack_spec`). Every script aligns the old lines with the new ones
(`aligns_editScript`), and within the budget it is a shortest one
(`edits_editScript`).
-/

namespace Folo.ReleasePlan

open Folo.Lib

/-! ## The search -/

def takesInsertion (reach : List Int) (index : Nat) (diagonal edits : Int) : Bool :=
  if diagonal = -edits then true
  else if diagonal = edits then false
  else
    let before := if index = 0 then 0 else (reach[index - 1]?).getD 0
    let after := (reach[index + 1]?).getD 0
    decide (before < after)

def commonPrefix (old : List Text) (oldIndex : Int) (new : List Text) (newIndex : Int) : Nat :=
  shared (remaining old oldIndex) (remaining new newIndex)

/-- The old index that a diagonal is entered at. -/
def entered (reach : List Int) (index : Nat) (diagonal edits : Int) : Option Int :=
  if takesInsertion reach index diagonal edits then reach[index + 1]?
  else if index = 0 then none
  else (reach[index - 1]?).map (· + 1)

/-- The inner loop of `myers_trace`, which has one round more than there are
edits: nothing for an index out of range, else the row that it leaves, or none
when both sides are aligned. -/
def searchDiagonals (old new : List Text) (budget edits : Nat) :
    Nat → Int → List Int → Option (Option (List Int))
  | 0, _, reach => some (some reach)
  | rounds + 1, diagonal, reach =>
    if diagonal ≤ edits then
      if 0 ≤ diagonal + budget then
        let index := (diagonal + budget).toNat
        match entered reach index diagonal edits with
        | none => none
        | some start =>
          let oldIndex := start + commonPrefix old start new (start - diagonal)
          if index < reach.length then
            if old.length ≤ oldIndex ∧ new.length ≤ oldIndex - diagonal then some none
            else searchDiagonals old new budget edits rounds (diagonal + 2)
              (reach.set index oldIndex)
          else none
      else none
    else some (some reach)

/-- The outer loop, with the rounds that are left. -/
def searchEdits (old new : List Text) (budget : Nat) :
    Nat → Nat → List Int → List (List Int) → Option (List (List Int))
  | 0, _, _, _ => none
  | rounds + 1, edits, reach, trace =>
    match searchDiagonals old new budget edits (edits + 1) (-(edits : Int)) reach with
    | none => none
    | some none => some (trace ++ [reach])
    | some (some next) => searchEdits old new budget rounds (edits + 1) next (trace ++ [reach])

def myersTrace (old new : List Text) (budget : Nat) : Option (List (List Int)) :=
  searchEdits old new budget (budget + 1) 0 (List.replicate (budget * 2 + 1) 0) []

/-- The loop of `backtrack` over the rows, the last one first. The script is
built from its end. -/
def backtrackRows (budget : Nat) : List (List Int) → Int → Int → List Edit → List Edit
  | [], _, _, script => script
  | reach :: rows, oldIndex, newIndex, script =>
    let edits := rows.length
    let diagonal := oldIndex - newIndex
    let insertion := takesInsertion reach (diagonal + budget).toNat diagonal edits
    let previousDiagonal := if insertion then diagonal + 1 else diagonal - 1
    let previousOld := (reach[(previousDiagonal + budget).toNat]?).getD 0
    let previousNew := previousOld - previousDiagonal
    let keeps := (max (min (oldIndex - previousOld) (newIndex - previousNew)) 0).toNat
    let script := List.replicate keeps .keep ++ script
    if edits = 0 then script
    else if insertion then
      backtrackRows budget rows (oldIndex - keeps) (newIndex - keeps - 1) (.insert :: script)
    else backtrackRows budget rows (oldIndex - keeps - 1) (newIndex - keeps) (.delete :: script)

def backtrack (trace : List (List Int)) (budget oldLen newLen : Nat) : List Edit :=
  backtrackRows budget trace.reverse oldLen newLen []

/-- A read of a row. -/
def readRow (reach : List Int) (index : Int) : Option Int :=
  if 0 ≤ index then reach[index.toNat]? else none

/-- `takesInsertion` where a read outside of the row has no result. -/
def takesInsertionInside (reach : List Int) (index diagonal edits : Int) : Option Bool :=
  if diagonal = -edits then some true
  else if diagonal = edits then some false
  else (readRow reach (index - 1)).bind fun before =>
    (readRow reach (index + 1)).map fun after => decide (before < after)

/-- `backtrackRows` where an index that is negative, and a read outside of the
row, have no result. -/
def backtrackRowsInside (budget : Nat) :
    List (List Int) → Int → Int → List Edit → Option (List Edit)
  | [], _, _, script => some script
  | reach :: rows, oldIndex, newIndex, script =>
    let edits := rows.length
    let diagonal := oldIndex - newIndex
    if diagonal + budget < 0 then none
    else (takesInsertionInside reach (diagonal + budget) diagonal edits).bind fun insertion =>
      let previousDiagonal := if insertion then diagonal + 1 else diagonal - 1
      (readRow reach (previousDiagonal + budget)).bind fun previousOld =>
        let previousNew := previousOld - previousDiagonal
        let keeps := (max (min (oldIndex - previousOld) (newIndex - previousNew)) 0).toNat
        let script := List.replicate keeps .keep ++ script
        if edits = 0 then some script
        else if insertion then
          backtrackRowsInside budget rows (oldIndex - keeps) (newIndex - keeps - 1)
            (.insert :: script)
        else
          backtrackRowsInside budget rows (oldIndex - keeps - 1) (newIndex - keeps)
            (.delete :: script)

def backtrackInside (trace : List (List Int)) (budget oldLen newLen : Nat) : Option (List Edit) :=
  backtrackRowsInside budget trace.reverse oldLen newLen []

def wholeFileScript (oldLen newLen : Nat) : List Edit :=
  List.replicate oldLen .delete ++ List.replicate newLen .insert

/-- `MAX_EDIT_DISTANCE`. -/
def maxEditDistance : Nat := 1024

def editScript (old new : List Text) (maxDistance : Nat) : List Edit :=
  let budget := min (old.length + new.length) maxDistance
  match myersTrace old new budget with
  | none => wholeFileScript old.length new.length
  | some trace => backtrack trace budget old.length new.length

/-! ## Regions -/

/-- A run of deleted and inserted lines, as zero-based line indexes. -/
structure ChangedRegion where
  oldStart : Nat
  oldEnd : Nat
  newStart : Nat
  newEnd : Nat

/-- The state of the loop of `changed_regions`, the last region first. -/
structure Regions where
  regions : List ChangedRegion
  oldIndex : Nat
  newIndex : Nat
  isOpen : Bool

namespace Regions

/-- The regions with an open one at their head. -/
def opened (s : Regions) : List ChangedRegion :=
  if s.isOpen then s.regions
  else
    { oldStart := s.oldIndex, oldEnd := s.oldIndex, newStart := s.newIndex, newEnd := s.newIndex }
      :: s.regions

/-- The last region, which an open one is, is changed. -/
def mapLast (f : ChangedRegion → ChangedRegion) : List ChangedRegion → List ChangedRegion
  | [] => []
  | region :: regions => f region :: regions

def edit (s : Regions) : Edit → Regions
  | .keep =>
    { s with oldIndex := s.oldIndex + 1, newIndex := s.newIndex + 1, isOpen := false }
  | .delete =>
    { s with
      regions := mapLast (fun region => { region with oldEnd := s.oldIndex + 1 }) s.opened
      oldIndex := s.oldIndex + 1
      isOpen := true }
  | .insert =>
    { s with
      regions := mapLast (fun region => { region with newEnd := s.newIndex + 1 }) s.opened
      newIndex := s.newIndex + 1
      isOpen := true }

end Regions

def changedRegions (old new : List Text) (maxDistance : Nat) : List ChangedRegion :=
  ((editScript old new maxDistance).foldl Regions.edit
    { regions := [], oldIndex := 0, newIndex := 0, isOpen := false }).regions.reverse

/-! ## What the rows hold -/

variable {old new : List Text} {budget : Nat}

/-- A row holds the paths of a number of edits. -/
def Stored (old new : List Text) (budget : Nat) (reach : List Int) (edits : Nat) : Prop :=
  ∀ k, OnDiagonal edits k → reach[(k + budget).toNat]? = some (furthest old new edits k)

/-- A row is ready for a round: it holds the paths of the round before, or the
start of the first one. -/
def Ready (old new : List Text) (budget : Nat) (reach : List Int) : Nat → Prop
  | 0 => reach[budget + 1]? = some 0
  | edits + 1 => Stored old new budget reach edits

/-- Where the paths of a round enter a diagonal. -/
def enterAt (old new : List Text) : Nat → Int → Int
  | 0, _ => 0
  | edits + 1, k => enter (furthest old new edits) (edits + 1) k

theorem furthest_eq_slide (edits : Nat) (k : Int) :
    furthest old new edits k = slide old new k (enterAt old new edits k) := by
  cases edits with
  | zero => rfl
  | succ edits => rfl

theorem readRow_of_get {reach : List Int} {index v : Int} (h : reach[index.toNat]? = some v)
    (hindex : 0 ≤ index) : readRow reach index = some v := by
  rw [readRow, if_pos hindex, h]

theorem get_of_readRow {reach : List Int} {index v : Int} (h : readRow reach index = some v) :
    0 ≤ index ∧ reach[index.toNat]? = some v := by
  unfold readRow at h
  split at h
  next hindex => exact ⟨hindex, h⟩
  next => nomatch h

/-- Inside of the row nothing is made up. -/
theorem takesInsertion_of_inside {reach : List Int} {index diagonal edits : Int} {b : Bool}
    (h : takesInsertionInside reach index diagonal edits = some b) :
    takesInsertion reach index.toNat diagonal edits = b := by
  unfold takesInsertionInside at h
  unfold takesInsertion
  split at h
  next hbottom =>
    rw [if_pos hbottom]
    exact Option.some.inj h
  next hbottom =>
    rw [if_neg hbottom]
    split at h
    next htop =>
      rw [if_pos htop]
      exact Option.some.inj h
    next htop =>
      rw [if_neg htop]
      obtain ⟨before, hbefore, h⟩ := Option.bind_eq_some_iff.mp h
      obtain ⟨after, hafter, h⟩ := Option.map_eq_some_iff.mp h
      obtain ⟨hindex, hbefore⟩ := get_of_readRow hbefore
      obtain ⟨-, hafter⟩ := get_of_readRow hafter
      dsimp only
      rw [if_neg (by omega), show index.toNat - 1 = (index - 1).toNat by omega,
        show index.toNat + 1 = (index + 1).toNat by omega, hbefore, hafter]
      exact h

/-- A row that is ready gives the choices of the paths. -/
theorem takesInsertionInside_eq {reach : List Int} {edits : Nat} {k : Int}
    (hready : Ready old new budget reach (edits + 1)) (hk : OnDiagonal (edits + 1) k)
    (hbudget : edits + 1 ≤ budget) :
    takesInsertionInside reach (k + budget) k (edits + 1 : Nat) =
      some (entersByInsertion (furthest old new edits) (edits + 1) k) := by
  unfold takesInsertionInside entersByInsertion
  by_cases hbottom : k = -((edits + 1 : Nat) : Int)
  · rw [if_pos hbottom, if_pos hbottom]
  · rw [if_neg hbottom, if_neg hbottom]
    by_cases htop : k = (edits + 1 : Nat)
    · rw [if_pos htop, if_pos htop]
    · rw [if_neg htop, if_neg htop]
      unfold OnDiagonal at hk
      have hbelow := readRow_of_get (hready (k - 1) (by unfold OnDiagonal; omega)) (by omega)
      have habove := readRow_of_get (hready (k + 1) (by unfold OnDiagonal; omega)) (by omega)
      rw [show k + (budget : Int) - 1 = k - 1 + budget by omega,
        show k + (budget : Int) + 1 = k + 1 + budget by omega, hbelow, habove]
      rfl

theorem takesInsertion_eq {reach : List Int} {edits : Nat} {k : Int}
    (hready : Ready old new budget reach (edits + 1)) (hk : OnDiagonal (edits + 1) k)
    (hbudget : edits + 1 ≤ budget) :
    takesInsertion reach (k + budget).toNat k (edits + 1 : Nat) =
      entersByInsertion (furthest old new edits) (edits + 1) k :=
  takesInsertion_of_inside (takesInsertionInside_eq hready hk hbudget)

theorem entered_eq {reach : List Int} {edits : Nat} {k : Int}
    (hready : Ready old new budget reach edits) (hk : OnDiagonal edits k)
    (hbudget : edits ≤ budget) :
    entered reach (k + budget).toNat k edits = some (enterAt old new edits k) := by
  cases edits with
  | zero =>
    have hzero : k = 0 := by
      unfold OnDiagonal at hk
      omega
    subst hzero
    have hstart : reach[budget + 1]? = some 0 := hready
    have hinsertion : takesInsertion reach ((0 : Int) + budget).toNat 0 (0 : Nat) = true := rfl
    unfold entered
    rw [if_pos hinsertion, show ((0 : Int) + budget).toNat + 1 = budget + 1 by omega, hstart]
    rfl
  | succ edits =>
    show entered reach _ k _ = some (enter (furthest old new edits) (edits + 1) k)
    unfold entered
    rw [takesInsertion_eq hready hk hbudget]
    obtain ⟨hcases, -⟩ := enter_spec (furthest old new edits) hk
    rcases hcases with ⟨hinsertion, hfrom, heq⟩ | ⟨hinsertion, hfrom, heq⟩
    · unfold OnDiagonal at hk
      rw [if_pos hinsertion, heq, show (k + budget).toNat + 1 = (k + 1 + budget).toNat by omega]
      exact hready _ hfrom
    · have hrow := hready _ hfrom
      unfold OnDiagonal at hk hfrom
      rw [if_neg (by rw [hinsertion]; exact Bool.false_ne_true), heq, if_neg (by omega),
        show (k + budget).toNat - 1 = (k - 1 + budget).toNat by omega, hrow]
      rfl

/-- What a diagonal of this round is set to does not matter for its others. -/
theorem Ready.set {reach : List Int} {edits : Nat} (h : Ready old new budget reach edits)
    {k : Int} (hk : OnDiagonal edits k) (hbudget : edits ≤ budget) (v : Int) :
    Ready old new budget (reach.set (k + budget).toNat v) edits := by
  cases edits with
  | zero =>
    show (reach.set _ v)[budget + 1]? = some 0
    unfold OnDiagonal at hk
    rw [List.getElem?_set_ne (by omega)]
    exact h
  | succ edits =>
    intro k' hk'
    have hrow := h k' hk'
    unfold OnDiagonal at hk hk'
    rw [List.getElem?_set_ne (by omega)]
    exact hrow

/-- A round either finds a path that is past both ends, or leaves a row that
holds its paths, none of which is. -/
theorem searchDiagonals_spec {reach : List Int} {edits rounds : Nat} {diagonal : Int}
    (hlength : reach.length = budget * 2 + 1) (hready : Ready old new budget reach edits)
    (hbudget : edits ≤ budget) (hdiagonal : diagonal + 2 * rounds = edits + 2)
    (hrounds : rounds ≤ edits + 1)
    (hbefore : ∀ k, OnDiagonal edits k → k < diagonal →
      reach[(k + budget).toNat]? = some (furthest old new edits k) ∧ ¬ Arrived old new edits k) :
    (searchDiagonals old new budget edits rounds diagonal reach = some none ∧
        ∃ k, OnDiagonal edits k ∧ Arrived old new edits k) ∨
      ∃ next, searchDiagonals old new budget edits rounds diagonal reach = some (some next) ∧
        next.length = budget * 2 + 1 ∧ Stored old new budget next edits ∧
        ∀ k, OnDiagonal edits k → ¬ Arrived old new edits k := by
  induction rounds generalizing diagonal reach with
  | zero =>
    refine .inr ⟨reach, rfl, hlength, fun k hk => (hbefore k hk ?_).1,
      fun k hk => (hbefore k hk ?_).2⟩
    · unfold OnDiagonal at hk
      omega
    · unfold OnDiagonal at hk
      omega
  | succ rounds ih =>
    have hk : OnDiagonal edits diagonal := by
      unfold OnDiagonal
      omega
    have hk' := hk
    unfold OnDiagonal at hk'
    unfold searchDiagonals
    rw [if_pos hk'.2.1, if_pos (by omega)]
    dsimp only
    rw [entered_eq hready hk hbudget]
    have hfurthest : enterAt old new edits diagonal +
        commonPrefix old (enterAt old new edits diagonal) new
          (enterAt old new edits diagonal - diagonal) = furthest old new edits diagonal :=
      (furthest_eq_slide edits diagonal).symm
    dsimp only
    rw [hfurthest, if_pos (by omega)]
    split
    next harrived => exact .inl ⟨rfl, diagonal, hk, harrived⟩
    next hnot =>
      refine ih (by rw [List.length_set, hlength]) (hready.set hk hbudget _) (by omega)
        (by omega) fun k hon hlt => ?_
      by_cases heq : k = diagonal
      · subst heq
        rw [List.getElem?_set_self (by omega)]
        exact ⟨rfl, hnot⟩
      · have hon' := hon
        unfold OnDiagonal at hon'
        rw [List.getElem?_set_ne (by omega)]
        exact hbefore k hon (by omega)

/-- The rows of a trace that was found: each is ready for its round, and the
last round is the first one with a path past both ends. -/
theorem searchEdits_spec {rounds edits : Nat} {reach : List Int} {rows trace : List (List Int)}
    (hlength : reach.length = budget * 2 + 1) (hready : Ready old new budget reach edits)
    (hrounds : edits + rounds = budget + 1) (hrows : rows.length = edits)
    (hall : ∀ i row, rows[i]? = some row → Ready old new budget row i)
    (hfirst : ∀ e < edits, ∀ k, OnDiagonal e k → ¬ Arrived old new e k)
    (h : searchEdits old new budget rounds edits reach rows = some trace) :
    ∃ e k, trace.length = e + 1 ∧ e ≤ budget ∧
      (∀ i row, (trace)[i]? = some row → Ready old new budget row i) ∧ OnDiagonal e k ∧
      Arrived old new e k ∧ ∀ e' < e, ∀ k', OnDiagonal e' k' → ¬ Arrived old new e' k' := by
  induction rounds generalizing edits reach rows with
  | zero => nomatch h
  | succ rounds ih =>
    have hbefore : ∀ k, OnDiagonal edits k → k < -(edits : Int) →
        reach[(k + budget).toNat]? = some (furthest old new edits k) ∧
          ¬ Arrived old new edits k := by
      intro k hk hlt
      unfold OnDiagonal at hk
      omega
    have hmore : ∀ i row, (rows ++ [reach])[i]? = some row → Ready old new budget row i := by
      intro i row hi
      by_cases hlt : i < rows.length
      · rw [List.getElem?_append_left hlt] at hi
        exact hall i row hi
      · have hlast : i < (rows ++ [reach]).length := (List.getElem?_eq_some_iff.mp hi).1
        rw [List.length_append, List.length_singleton] at hlast
        obtain rfl : i = rows.length := by omega
        rw [List.getElem?_concat_length] at hi
        rw [← Option.some.inj hi, hrows]
        exact hready
    unfold searchEdits at h
    rcases searchDiagonals_spec hlength hready (by omega) (by omega) (Nat.le_refl _) hbefore with
      ⟨hfound, k, hk, harrived⟩ | ⟨next, hnext, hlength', hstored, hnone⟩
    · rw [hfound] at h
      obtain rfl := Option.some.inj h
      refine ⟨edits, k, ?_, by omega, hmore, hk, harrived, hfirst⟩
      rw [List.length_append, List.length_singleton, hrows]
    · rw [hnext] at h
      have hready' : Ready old new budget next (edits + 1) := hstored
      refine ih hlength' hready' (by omega) ?_ hmore (fun e he k hk => ?_) h
      · rw [List.length_append, List.length_singleton, hrows]
      · by_cases heq : e = edits
        · subst heq
          exact hnone k hk
        · exact hfirst e (by omega) k hk

theorem ready_start (budget : Nat) :
    Ready old new (budget + 1) (List.replicate ((budget + 1) * 2 + 1) 0) 0 := by
  show (List.replicate _ 0)[budget + 1 + 1]? = some 0
  rw [List.getElem?_replicate, if_pos (by omega)]

theorem myersTrace_spec {trace : List (List Int)} (h : myersTrace old new budget = some trace) :
    ∃ e k, trace.length = e + 1 ∧ e ≤ budget ∧
      (∀ i row, (trace)[i]? = some row → Ready old new budget row i) ∧ OnDiagonal e k ∧
      Arrived old new e k ∧ ∀ e' < e, ∀ k', OnDiagonal e' k' → ¬ Arrived old new e' k' := by
  cases budget with
  | zero => nomatch h
  | succ budget =>
    refine searchEdits_spec (List.length_replicate ..) (ready_start budget) (Nat.zero_add _) rfl
      (fun i row hi => ?_) (fun e he => ?_) h
    · rw [List.getElem?_nil] at hi
      nomatch hi
    · nomatch he

/-- A search that is given up has found no path past both ends. -/
theorem searchEdits_none {rounds edits : Nat} {reach : List Int} {rows : List (List Int)}
    (hlength : reach.length = budget * 2 + 1) (hready : Ready old new budget reach edits)
    (hrounds : edits + rounds = budget + 1)
    (h : searchEdits old new budget rounds edits reach rows = none) :
    ∀ e, edits ≤ e → e ≤ budget → ∀ k, OnDiagonal e k → ¬ Arrived old new e k := by
  induction rounds generalizing edits reach rows with
  | zero =>
    intro e hle hbudget
    omega
  | succ rounds ih =>
    have hbefore : ∀ k, OnDiagonal edits k → k < -(edits : Int) →
        reach[(k + budget).toNat]? = some (furthest old new edits k) ∧
          ¬ Arrived old new edits k := by
      intro k hk hlt
      unfold OnDiagonal at hk
      omega
    unfold searchEdits at h
    rcases searchDiagonals_spec hlength hready (by omega) (by omega) (Nat.le_refl _) hbefore with
      ⟨hfound, -⟩ | ⟨next, hnext, hlength', hstored, hnone⟩
    · rw [hfound] at h
      nomatch h
    · rw [hnext] at h
      intro e hle hbudget k hk
      by_cases heq : e = edits
      · subst heq
        exact hnone k hk
      · have hready' : Ready old new budget next (edits + 1) := hstored
        exact ih hlength' hready' (by omega) h e (by omega) hbudget k hk

/-- A search is given up if every script has more edits than it may take. -/
theorem lt_editDistance_of_none (hbudget : 0 < budget) (h : myersTrace old new budget = none) :
    budget < editDistance old new := by
  obtain ⟨budget, rfl⟩ := Nat.exists_eq_add_one.mpr hbudget
  by_contra hle
  obtain ⟨script, haligns, hdistance⟩ := exists_editDistance old new
  obtain ⟨k, hk, harrived⟩ := arrived_of_aligns haligns
  exact searchEdits_none (List.length_replicate ..) (ready_start budget) (Nat.zero_add _) h _
    (Nat.zero_le _) (by omega) k hk harrived

/-! ## The script -/

/-- Inside of the rows nothing is made up. -/
theorem backtrackRows_of_inside {rows : List (List Int)} {oldIndex newIndex : Int}
    {script result : List Edit}
    (h : backtrackRowsInside budget rows oldIndex newIndex script = some result) :
    backtrackRows budget rows oldIndex newIndex script = result := by
  induction rows generalizing oldIndex newIndex script with
  | nil => exact Option.some.inj h
  | cons reach rows ih =>
    unfold backtrackRowsInside at h
    unfold backtrackRows
    dsimp only at h ⊢
    split at h
    next => nomatch h
    next =>
      obtain ⟨insertion, hinsertion, h⟩ := Option.bind_eq_some_iff.mp h
      obtain ⟨previousOld, hprevious, h⟩ := Option.bind_eq_some_iff.mp h
      rw [takesInsertion_of_inside hinsertion, (get_of_readRow hprevious).2, Option.getD_some]
      by_cases hlast : rows.length = 0
      · rw [if_pos hlast] at h ⊢
        exact Option.some.inj h
      · rw [if_neg hlast] at h ⊢
        cases insertion with
        | true => exact ih h
        | false => exact ih h

/-- Following the rows back is following the choices back, inside of the rows. -/
theorem backtrackRowsInside_eq {rows : List (List Int)} {edits : Nat} {k : Int}
    (hlength : rows.length = edits + 1) (hbudget : edits ≤ budget)
    (hready : ∀ i row, rows.reverse[i]? = some row → Ready old new budget row i)
    (hk : OnDiagonal edits k) (script : List Edit) :
    backtrackRowsInside budget rows (furthest old new edits k) (furthest old new edits k - k)
      script = some (retrace old new edits k script) := by
  induction edits generalizing rows k script with
  | zero =>
    obtain ⟨reach, rfl⟩ := List.length_eq_one_iff.mp hlength
    have hzero : k = 0 := by
      unfold OnDiagonal at hk
      omega
    subst hzero
    have hstart : reach[((0 : Int) + 1 + budget).toNat]? = some 0 := by
      rw [show ((0 : Int) + 1 + budget).toNat = budget + 1 by omega]
      exact hready 0 reach rfl
    have hx : 0 ≤ furthest old new 0 0 := (furthest_nonneg hk).1
    have hdiagonal : furthest old new 0 0 - (furthest old new 0 0 - 0) = 0 := by omega
    have hinsertion : takesInsertionInside reach (0 + budget) 0 ([] : List (List Int)).length =
        some true := rfl
    unfold backtrackRowsInside retrace
    dsimp only
    rw [hdiagonal, if_neg (by omega), hinsertion, Option.bind_some, if_pos rfl,
      readRow_of_get hstart (by omega), Option.bind_some, List.length_nil, if_pos rfl]
    congr 3
    omega
  | succ edits ih =>
    obtain ⟨reach, rows, rfl⟩ := List.exists_cons_of_length_eq_add_one hlength
    rw [List.length_cons] at hlength
    have hrows : rows.length = edits + 1 := by omega
    have hrow : Ready old new budget reach (edits + 1) := by
      refine hready (edits + 1) reach ?_
      rw [List.reverse_cons, ← hrows, ← List.length_reverse, List.getElem?_concat_length]
    have hrest : ∀ i row, rows.reverse[i]? = some row → Ready old new budget row i := by
      intro i row hi
      refine hready i row ?_
      rw [List.reverse_cons, List.getElem?_append_left (List.getElem?_eq_some_iff.mp hi).1, hi]
    have hle : enter (furthest old new edits) (edits + 1) k ≤ furthest old new (edits + 1) k :=
      le_slide ..
    have hdiagonal : furthest old new (edits + 1) k - (furthest old new (edits + 1) k - k) = k := by
      omega
    have hinside : ¬ k + (budget : Int) < 0 := by
      unfold OnDiagonal at hk
      omega
    unfold backtrackRowsInside retrace
    dsimp only
    rw [hdiagonal, hrows, if_neg hinside, takesInsertionInside_eq hrow hk hbudget,
      Option.bind_some]
    obtain ⟨hcases, -⟩ := enter_spec (furthest old new edits) hk
    rcases hcases with ⟨hinsertion, hfrom, heq⟩ | ⟨hinsertion, hfrom, heq⟩
    · have hprevious : readRow reach (k + 1 + budget) = some (furthest old new edits (k + 1)) :=
        readRow_of_get (hrow _ hfrom) (by omega)
      simp only [hinsertion, if_true]
      rw [hprevious, Option.bind_some, if_neg (Nat.succ_ne_zero edits), heq]
      have hkeeps : (max (min (furthest old new (edits + 1) k - furthest old new edits (k + 1))
          (furthest old new (edits + 1) k - k - (furthest old new edits (k + 1) - (k + 1)))) 0).toNat
          = (furthest old new (edits + 1) k - furthest old new edits (k + 1)).toNat := by
        omega
      rw [hkeeps]
      have hnext := ih hrows (by omega) hrest hfrom (.insert :: (List.replicate
        (furthest old new (edits + 1) k - furthest old new edits (k + 1)).toNat .keep ++ script))
      rw [← hnext]
      congr 1
      · omega
      · omega
    · have hprevious : readRow reach (k - 1 + budget) = some (furthest old new edits (k - 1)) := by
        refine readRow_of_get (hrow _ hfrom) ?_
        unfold OnDiagonal at hfrom
        omega
      simp only [hinsertion, Bool.false_eq_true, if_false]
      rw [hprevious, Option.bind_some, if_neg (Nat.succ_ne_zero edits), heq]
      have hkeeps : (max (min (furthest old new (edits + 1) k - furthest old new edits (k - 1))
          (furthest old new (edits + 1) k - k - (furthest old new edits (k - 1) - (k - 1)))) 0).toNat
          = (furthest old new (edits + 1) k - (furthest old new edits (k - 1) + 1)).toNat := by
        omega
      rw [hkeeps]
      have hnext := ih hrows (by omega) hrest hfrom (.delete :: (List.replicate
        (furthest old new (edits + 1) k - (furthest old new edits (k - 1) + 1)).toNat .keep ++
          script))
      rw [← hnext]
      congr 1
      · omega
      · omega

/-- A trace that was found is followed back to a shortest script, and no read
is outside of its rows. -/
theorem backtrack_spec {trace : List (List Int)} (h : myersTrace old new budget = some trace) :
    backtrackInside trace budget old.length new.length =
        some (backtrack trace budget old.length new.length) ∧
      Aligns (backtrack trace budget old.length new.length) old new ∧
      edits (backtrack trace budget old.length new.length) = editDistance old new := by
  obtain ⟨e, k, hlength, hbudget, hready, hk, harrived, hfirst⟩ := myersTrace_spec h
  obtain ⟨hx, hk'⟩ := eq_corner_of_first hk harrived hfirst
  have hy : furthest old new e k - k = new.length := by omega
  have hreversed : trace.reverse.length = e + 1 := by rw [List.length_reverse, hlength]
  have hinside := backtrackRowsInside_eq hreversed hbudget (by rwa [List.reverse_reverse]) hk []
  rw [hy, hx] at hinside
  have hback : backtrack trace budget old.length new.length = retrace old new e k [] :=
    backtrackRows_of_inside hinside
  rw [hback]
  refine ⟨hinside, aligns_of_first hk harrived hfirst, ?_⟩
  rw [edits_retrace, eq_editDistance_of_first hk harrived hfirst]
  rfl

/-- Whatever the budget: the script aligns the old lines with the new ones. -/
theorem aligns_editScript (old new : List Text) (maxDistance : Nat) :
    Aligns (editScript old new maxDistance) old new := by
  unfold editScript
  dsimp only
  split
  next => exact aligns_whole old new
  next trace htrace => exact (backtrack_spec htrace).2.1

/-- Within the budget the script is a shortest one. -/
theorem edits_editScript {maxDistance : Nat} (hmax : 0 < maxDistance)
    (hdistance : editDistance old new ≤ maxDistance) :
    edits (editScript old new maxDistance) = editDistance old new := by
  unfold editScript
  dsimp only
  split
  next hnone =>
    have hlength := editDistance_le_length old new
    -- the search was given up, so that there is no line at all
    have hzero : old.length + new.length = 0 := by
      by_contra hne
      have hlt := lt_editDistance_of_none (by omega) hnone
      omega
    have hwhole := List.length_eq_zero_iff.mp (show old.length = 0 by omega)
    have hwhole' := List.length_eq_zero_iff.mp (show new.length = 0 by omega)
    subst hwhole hwhole'
    exact (Nat.le_zero.mp hlength).symm
  next trace htrace => exact (backtrack_spec htrace).2.2

/-- Lines are aligned with themselves without an edit. -/
theorem editScript_self (lines : List Text) {maxDistance : Nat} (hmax : 0 < maxDistance) :
    ∀ e ∈ editScript lines lines maxDistance, e = .keep := by
  have hkeeps := Aligns.nil.keeps lines
  have hdistance := editDistance_le hkeeps
  rw [edits_keeps, List.append_nil] at hdistance
  have hzero : editDistance lines lines = 0 := Nat.le_zero.mp hdistance
  refine keeps_of_edits ?_
  rw [edits_editScript hmax (by omega), hzero]

/-- `assert_valid_script` of the tests. -/
def assertValidScript : List Text → List Text → List Edit → Bool
  | old :: olds, new :: news, .keep :: script =>
    decide (old = new) && assertValidScript olds news script
  | _ :: olds, news, .delete :: script => assertValidScript olds news script
  | olds, _ :: news, .insert :: script => assertValidScript olds news script
  | [], [], [] => true
  | _, _, _ => false

theorem assertValidScript_iff {script : List Edit} :
    assertValidScript old new script = true ↔ Aligns script old new := by
  constructor
  · intro h
    induction script generalizing old new with
    | nil =>
      cases old <;> cases new <;> first | exact .nil | nomatch h
    | cons edit script ih =>
      cases edit with
      | keep =>
        cases old with
        | nil => cases new <;> nomatch h
        | cons line old =>
          cases new with
          | nil => nomatch h
          | cons line' new =>
            rw [assertValidScript, Bool.and_eq_true, decide_eq_true_eq] at h
            rw [h.1]
            exact .keep _ (ih h.2)
      | delete =>
        cases old with
        | nil => cases new <;> nomatch h
        | cons line old => cases new <;> exact .delete _ (ih h)
      | insert =>
        cases new with
        | nil => cases old <;> nomatch h
        | cons line new => cases old <;> exact .insert _ (ih h)
  · intro h
    induction h with
    | nil => rfl
    | keep x _ ih =>
      rw [assertValidScript, ih, Bool.and_true]
      exact decide_eq_true rfl
    | @delete script xs ys x _ ih => cases ys <;> exact ih
    | @insert script xs ys y _ ih => cases xs <;> exact ih

/-- **A valid script, and a shortest one within the budget.** -/
theorem edit_script_minimal (old new : List Text) {maxDistance : Nat} (hmax : 1 ≤ maxDistance) :
    assertValidScript old new (editScript old new maxDistance) = true ∧
    (editDistance old new ≤ maxDistance →
      edits (editScript old new maxDistance) = editDistance old new) ∧
    ∀ trace, myersTrace old new (min (old.length + new.length) maxDistance) = some trace →
      backtrackInside trace (min (old.length + new.length) maxDistance) old.length new.length =
        some (editScript old new maxDistance) := by
  refine ⟨assertValidScript_iff.mpr (aligns_editScript old new maxDistance),
    edits_editScript hmax, fun trace htrace => ?_⟩
  rw [(backtrack_spec htrace).1]
  unfold editScript
  dsimp only
  rw [htrace]

/-- One line goes, and one comes. -/
theorem edit_script_minimal_three :
    edits (editScript ["a".toList, "b".toList, "c".toList] ["b".toList, "d".toList, "c".toList] 2) =
      editDistance ["a".toList, "b".toList, "c".toList] ["b".toList, "d".toList, "c".toList] := by
  have hscript : Aligns [.delete, .keep, .insert, .keep]
      ["a".toList, "b".toList, "c".toList] ["b".toList, "d".toList, "c".toList] :=
    .delete _ (.keep _ (.insert _ (.keep _ .nil)))
  exact (edit_script_minimal _ _ (by decide)).2.1 (editDistance_le hscript)

/-! ## The regions of a script -/

/-- The regions of what is left of a script, at a position, with the start of
the one that is open. -/
def regionsFrom : List Edit → Nat → Nat → Option (Nat × Nat) → List ChangedRegion
  | [], _, _, none => []
  | [], i, j, some start => [⟨start.1, i, start.2, j⟩]
  | .keep :: script, i, j, none => regionsFrom script (i + 1) (j + 1) none
  | .keep :: script, i, j, some start =>
    ⟨start.1, i, start.2, j⟩ :: regionsFrom script (i + 1) (j + 1) none
  | .delete :: script, i, j, start => regionsFrom script (i + 1) j (some (start.getD (i, j)))
  | .insert :: script, i, j, start => regionsFrom script i (j + 1) (some (start.getD (i, j)))

/-- There are none where nothing is edited. -/
theorem regionsFrom_eq_nil {script : List Edit} {i j : Nat} :
    regionsFrom script i j none = [] ↔ ∀ e ∈ script, e = .keep := by
  have hopen : ∀ (script : List Edit) i j start, regionsFrom script i j (some start) ≠ [] := by
    intro script
    induction script with
    | nil => exact fun i j start => List.cons_ne_nil _ _
    | cons e script ih =>
      intro i j start
      cases e with
      | keep => exact List.cons_ne_nil _ _
      | delete => exact ih (i + 1) j _
      | insert => exact ih i (j + 1) _
  induction script generalizing i j with
  | nil => exact ⟨fun _ => nofun, fun _ => rfl⟩
  | cons e script ih =>
    rw [List.forall_mem_cons]
    cases e with
    | keep =>
      refine Iff.trans (ih (i := i + 1) (j := j + 1)) ?_
      exact ⟨fun h => ⟨rfl, h⟩, fun h => h.2⟩
    | delete => exact ⟨fun h => absurd h (hopen script (i + 1) j _), fun h => nomatch h.1⟩
    | insert => exact ⟨fun h => absurd h (hopen script i (j + 1) _), fun h => nomatch h.1⟩

/-- The loop finds them. -/
theorem regions_foldl (script : List Edit) (i j : Nat) (done : List ChangedRegion) :
    (script.foldl Regions.edit ⟨done, i, j, false⟩).regions.reverse =
        done.reverse ++ regionsFrom script i j none ∧
      ∀ i₀ j₀, (script.foldl Regions.edit ⟨⟨i₀, i, j₀, j⟩ :: done, i, j, true⟩).regions.reverse =
        done.reverse ++ regionsFrom script i j (some (i₀, j₀)) := by
  induction script generalizing i j done with
  | nil =>
    refine ⟨(List.append_nil _).symm, fun i₀ j₀ => ?_⟩
    show (_ :: done).reverse = _
    rw [List.reverse_cons]
    rfl
  | cons e script ih =>
    cases e with
    | keep =>
      refine ⟨(ih (i + 1) (j + 1) done).1, fun i₀ j₀ => ?_⟩
      have hclosed := (ih (i + 1) (j + 1) (⟨i₀, i, j₀, j⟩ :: done)).1
      rw [List.reverse_cons, List.append_assoc] at hclosed
      exact hclosed
    | delete => exact ⟨(ih (i + 1) j done).2 i j, fun i₀ j₀ => (ih (i + 1) j done).2 i₀ j₀⟩
    | insert => exact ⟨(ih i (j + 1) done).2 i j, fun i₀ j₀ => (ih i (j + 1) done).2 i₀ j₀⟩

theorem changedRegions_eq (old new : List Text) (maxDistance : Nat) :
    changedRegions old new maxDistance =
      regionsFrom (editScript old new maxDistance) 0 0 none :=
  (regions_foldl (editScript old new maxDistance) 0 0 []).1

/-- Only lines that are the same have no changed region. -/
theorem changedRegions_eq_nil {maxDistance : Nat} (hmax : 0 < maxDistance) :
    changedRegions old new maxDistance = [] ↔ old = new := by
  rw [changedRegions_eq, regionsFrom_eq_nil]
  constructor
  · intro h
    exact (aligns_editScript old new maxDistance).eq_of_keeps h
  · intro h
    rw [h]
    exact editScript_self new hmax

end Folo.ReleasePlan
