import Mathlib.Logic.Relation
import Mathlib.Order.Preorder.Finite
import Std.Data.ExtTreeSet.Lemmas

/-!
# Worklists

The search of a relation from its seeds: what was found, and what of it is not
followed yet (`Worklist`). Following an element finds its successors
(`Explores.follow`) and takes from what is still to do (`todo_follow`), so a
search among finitely many elements ends, and then it has found what the seeds
reach (`Explores.mem_iff`).

The strong components of a relation are the classes of the elements that
reach each other. Among finitely many elements there is one from which only
elements of its own component are reached (`exists_final`): the order of the
components has no cycle.
-/

namespace Folo.Lib

open Relation
open Std (ExtTreeSet TransOrd LawfulEqOrd)

/-- What comes to hold of one more element, and is lost for none, counts up. -/
theorem countP_lt_of_imp {α : Type} {p q : α → Bool} {xs : List α}
    (himp : ∀ x ∈ xs, p x = true → q x = true) {x : α} (hx : x ∈ xs) (hnot : p x = false)
    (hq : q x = true) : xs.countP p < xs.countP q := by
  induction xs with
  | nil => nomatch hx
  | cons y xs ih =>
    obtain ⟨hy, hxs⟩ := List.forall_mem_cons.mp himp
    rw [List.countP_cons, List.countP_cons]
    rcases List.mem_cons.mp hx with rfl | hx
    · have hle := List.countP_mono_left hxs
      rw [hnot, hq]
      simp only [Bool.false_eq_true, if_false, if_true]
      omega
    · have hlt := ih hxs hx
      split
      next hp =>
        rw [if_pos (hy hp)]
        omega
      next =>
        split
        · omega
        · omega

/-! ## Elements that reach each other -/

section Components

variable {α : Type} {r : α → α → Prop}

/-- `a` and `b` are in one strong component. -/
def Mutual (r : α → α → Prop) (a b : α) : Prop := ReflTransGen r a b ∧ ReflTransGen r b a

theorem Mutual.refl (a : α) : Mutual r a a := ⟨.refl, .refl⟩

theorem Mutual.symm {a b : α} (h : Mutual r a b) : Mutual r b a := ⟨h.2, h.1⟩

theorem Mutual.trans {a b c : α} (hab : Mutual r a b) (hbc : Mutual r b c) : Mutual r a c :=
  ⟨hab.1.trans hbc.1, hbc.2.trans hab.2⟩

/-- Some element reaches, among the others, only those that reach it. -/
theorem exists_final {xs : List α} (hne : xs ≠ []) :
    ∃ x ∈ xs, ∀ y ∈ xs, ReflTransGen r x y → Mutual r x y := by
  let order : Preorder α :=
    { le := ReflTransGen r, le_refl := fun _ => .refl, le_trans := fun _ _ _ => ReflTransGen.trans }
  obtain ⟨first, hfirst⟩ := List.exists_mem_of_ne_nil xs hne
  obtain ⟨x, hx, hmax⟩ := (List.finite_toSet xs).exists_maximal ⟨first, hfirst⟩
  exact ⟨x, hx, fun y hy hreach => ⟨hreach, hmax hy hreach⟩⟩

/-- What a set that the relation does not leave is reached from. -/
theorem mem_of_reflTransGen {S : α → Prop} (hclosed : ∀ a b, S a → r a b → S b) {a b : α}
    (ha : S a) (h : ReflTransGen r a b) : S b := by
  induction h with
  | refl => exact ha
  | tail _ hstep ih => exact hclosed _ _ ih hstep

end Components

/-! ## The search -/

variable {α : Type} [Ord α]

/-- What was found, and what of it is not followed yet, the next first. -/
structure Worklist (α : Type) [Ord α] where
  found : ExtTreeSet α
  pending : List α

namespace Worklist

section Steps

variable [TransOrd α]

/-- An element is found, and is to be followed if it was not found before. -/
def add (w : Worklist α) (a : α) : Worklist α :=
  if a ∈ w.found then w else { found := w.found.insert a, pending := a :: w.pending }

def addAll (w : Worklist α) (targets : List α) : Worklist α := targets.foldl add w

/-- The same where what is to be followed waits in a queue, its front first. -/
def enqueue (w : Worklist α) (a : α) : Worklist α :=
  if a ∈ w.found then w else { found := w.found.insert a, pending := w.pending ++ [a] }

def enqueueAll (w : Worklist α) (targets : List α) : Worklist α := targets.foldl enqueue w

end Steps

variable [TransOrd α] [LawfulEqOrd α]

theorem mem_insert {found : ExtTreeSet α} {a b : α} : b ∈ found.insert a ↔ b ∈ found ∨ b = a := by
  rw [ExtTreeSet.mem_insert, Std.compare_eq_iff_eq, or_comm]
  exact or_congr_right ⟨Eq.symm, Eq.symm⟩

/-- What of the elements is not followed yet. -/
def todo (elements : List α) (w : Worklist α) : Nat :=
  w.pending.length + elements.countP fun a => decide (a ∉ w.found)

/-- The targets are found, and those that are new are to be followed. -/
structure Extends (w w' : Worklist α) (targets : List α) : Prop where
  found : ∀ b, b ∈ w'.found ↔ b ∈ w.found ∨ b ∈ targets
  pending : ∀ b, b ∈ w'.pending ↔ b ∈ w.pending ∨ b ∈ targets ∧ b ∉ w.found
  todo_le : ∀ elements, (∀ a ∈ targets, a ∈ elements) → w'.todo elements ≤ w.todo elements

/-- One target, wherever it waits. -/
theorem extends_insert {w : Worklist α} {a : α} (hnew : a ∉ w.found) {pending : List α}
    (hmem : ∀ b, b ∈ pending ↔ b ∈ w.pending ∨ b = a)
    (hlen : pending.length = w.pending.length + 1) :
    Extends w { found := w.found.insert a, pending } [a] where
  found b := by rw [mem_insert, List.mem_singleton]
  pending b := by
    rw [hmem, List.mem_singleton]
    exact or_congr_right ⟨fun h => ⟨h, h ▸ hnew⟩, And.left⟩
  todo_le elements h := by
    have hlt : elements.countP (fun b => decide (b ∉ w.found.insert a)) <
        elements.countP fun b => decide (b ∉ w.found) := by
      refine countP_lt_of_imp (fun b _ hb => ?_) (h a (List.mem_singleton_self _))
        (decide_eq_false (not_not_intro (mem_insert.mpr (.inr rfl)))) (decide_eq_true hnew)
      rw [decide_eq_true_eq] at hb ⊢
      exact fun hold => hb (mem_insert.mpr (.inl hold))
    unfold todo
    dsimp only
    omega

omit [LawfulEqOrd α] in
/-- A target that is found already. -/
theorem extends_found {w : Worklist α} {a : α} (h : a ∈ w.found) : Extends w w [a] where
  found b := by
    rw [List.mem_singleton]
    exact (or_iff_left_of_imp fun hb => hb ▸ h).symm
  pending b := by
    rw [List.mem_singleton]
    exact (or_iff_left fun hb => hb.2 (hb.1 ▸ h)).symm
  todo_le _ _ := Nat.le_refl _

theorem extends_add (w : Worklist α) (a : α) : Extends w (w.add a) [a] := by
  unfold add
  split
  next hin => exact extends_found hin
  next hnew => exact extends_insert hnew (fun b => by rw [List.mem_cons, or_comm]) rfl

theorem extends_enqueue (w : Worklist α) (a : α) : Extends w (w.enqueue a) [a] := by
  unfold enqueue
  split
  next hin => exact extends_found hin
  next hnew =>
    refine extends_insert hnew (fun b => ?_) List.length_append
    rw [List.mem_append, List.mem_singleton]

omit [LawfulEqOrd α] in
/-- Target after target. -/
theorem extends_foldl {step : Worklist α → α → Worklist α}
    (hstep : ∀ w a, Extends w (step w a) [a]) (w : Worklist α) (targets : List α) :
    Extends w (targets.foldl step w) targets := by
  induction targets generalizing w with
  | nil =>
    refine ⟨fun b => ?_, fun b => ?_, fun _ _ => Nat.le_refl _⟩
    · exact (or_iff_left List.not_mem_nil).symm
    · exact (or_iff_left fun hb => List.not_mem_nil hb.1).symm
  | cons a targets ih =>
    have hfirst := hstep w a
    have hrest := ih (step w a)
    rw [List.foldl_cons]
    refine ⟨fun b => ?_, fun b => ?_, fun elements h => ?_⟩
    · rw [hrest.found, hfirst.found, List.mem_singleton, List.mem_cons, or_assoc]
    · rw [hrest.pending, hfirst.pending, hfirst.found, List.mem_singleton, List.mem_cons]
      by_cases hb : b = a
      · subst hb
        by_cases hin : b ∈ w.found
        · simp [hin]
        · simp [hin]
      · simp [hb]
    · obtain ⟨ha, htargets⟩ := List.forall_mem_cons.mp h
      refine Nat.le_trans (hrest.todo_le elements htargets) (hfirst.todo_le elements fun b hb => ?_)
      exact List.mem_singleton.mp hb ▸ ha

theorem extends_addAll (w : Worklist α) (targets : List α) :
    Extends w (w.addAll targets) targets := extends_foldl extends_add w targets

theorem extends_enqueueAll (w : Worklist α) (targets : List α) :
    Extends w (w.enqueueAll targets) targets := extends_foldl extends_enqueue w targets

omit [LawfulEqOrd α] in
/-- **Following an element leaves less to do.** -/
theorem Extends.todo_lt {w w' : Worklist α} {a : α} {rest targets elements : List α}
    (hpending : w.pending = a :: rest) (h : Extends { w with pending := rest } w' targets)
    (htargets : ∀ b ∈ targets, b ∈ elements) : w'.todo elements < w.todo elements := by
  refine Nat.lt_of_le_of_lt (h.todo_le elements htargets) ?_
  unfold todo
  rw [hpending, List.length_cons]
  dsimp only
  omega

/-- A search from the seeds: what it found is reached, and what it followed has
its successors found, and `Done` holds of it. -/
structure Explores (seed : α → Prop) (r : α → α → Prop) (Done : α → Prop) (w : Worklist α) :
    Prop where
  seeds : ∀ a, seed a → a ∈ w.found
  reached : ∀ a ∈ w.found, ∃ s, seed s ∧ ReflTransGen r s a
  pending : ∀ a ∈ w.pending, a ∈ w.found
  followed : ∀ a ∈ w.found, a ∈ w.pending ∨ Done a ∧ ∀ b, r a b → b ∈ w.found

variable {seed : α → Prop} {r : α → α → Prop} {Done : α → Prop} {w : Worklist α}

omit [LawfulEqOrd α] in
theorem explores_start {seeds : ExtTreeSet α} {stack : List α}
    (hstack : ∀ a, a ∈ stack ↔ a ∈ seeds) :
    Explores (· ∈ seeds) r Done { found := seeds, pending := stack } where
  seeds _ := id
  reached a ha := ⟨a, ha, .refl⟩
  pending a := (hstack a).mp
  followed a ha := .inl ((hstack a).mpr ha)

omit [LawfulEqOrd α] in
/-- **Following an element**: its successors are found. -/
theorem Explores.follow (h : Explores seed r Done w) {w' : Worklist α} {a : α}
    {rest targets : List α} (hpending : w.pending = a :: rest)
    (hextends : Extends { w with pending := rest } w' targets)
    (htargets : ∀ b, b ∈ targets ↔ r a b) (hdone : Done a) : Explores seed r Done w' where
  seeds b hb := (hextends.found b).mpr (.inl (h.seeds b hb))
  reached b hb := by
    rcases (hextends.found b).mp hb with hb | hb
    · exact h.reached b hb
    · obtain ⟨s, hs, hreach⟩ := h.reached a (h.pending a (hpending ▸ List.mem_cons_self ..))
      exact ⟨s, hs, hreach.tail ((htargets b).mp hb)⟩
  pending b hb := by
    refine (hextends.found b).mpr ?_
    rcases (hextends.pending b).mp hb with hb | ⟨hb, -⟩
    · exact .inl (h.pending b (hpending ▸ List.mem_cons_of_mem _ hb))
    · exact .inr hb
  followed b hb := by
    by_cases hold : b ∈ w.found
    · by_cases hba : b = a
      · subst hba
        exact .inr ⟨hdone, fun c hc => (hextends.found c).mpr (.inr ((htargets c).mpr hc))⟩
      · rcases h.followed b hold with hwait | ⟨hb, hsucc⟩
        · rw [hpending] at hwait
          have hrest := (List.mem_cons.mp hwait).resolve_left hba
          exact .inl ((hextends.pending b).mpr (.inl hrest))
        · exact .inr ⟨hb, fun c hc => (hextends.found c).mpr (.inl (hsucc c hc))⟩
    · have hnew := ((hextends.found b).mp hb).resolve_left hold
      exact .inl ((hextends.pending b).mpr (.inr ⟨hnew, hold⟩))

omit [LawfulEqOrd α] in
theorem Explores.of_mem (h : Explores seed r Done w) (hempty : w.pending = []) {a : α}
    (ha : a ∈ w.found) : Done a ∧ ∀ b, r a b → b ∈ w.found := by
  rcases h.followed a ha with hwait | hfollowed
  · rw [hempty] at hwait
    nomatch hwait
  · exact hfollowed

omit [LawfulEqOrd α] in
/-- **A search that is done** has found what the seeds reach. -/
theorem Explores.mem_iff (h : Explores seed r Done w) (hempty : w.pending = []) {a : α} :
    a ∈ w.found ↔ ∃ s, seed s ∧ ReflTransGen r s a := by
  constructor
  · exact h.reached a
  · rintro ⟨s, hs, hreach⟩
    refine mem_of_reflTransGen (S := (· ∈ w.found)) (fun b c hb hbc => ?_) (h.seeds s hs) hreach
    exact (h.of_mem hempty hb).2 c hbc

end Worklist

end Folo.Lib
