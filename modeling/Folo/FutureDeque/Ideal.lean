import Folo.FutureDeque.Core

/-!
# An ideal deque of futures

What a deque of futures is for: a double-ended queue of futures, each of
which has an output from some moment on. An output can be taken at an end
when the future at that end has it, and then the future leaves. `handed`
remembers what was taken. `Sound` is what makes this a queue: the futures
taken and the futures inside are together all that were pushed, each once,
and what was taken are their outputs.
-/

namespace Folo.FutureDeque

open scoped List

variable {V : Type}

/-- Futures are numbered in the order of their pushes; `items` are those in
the deque, from front to back. -/
structure Ideal (V : Type) where
  items : List Nat
  pushed : Nat
  output : Nat → Option V
  handed : List (End × Nat × V)

namespace Ideal

def new (V : Type) : Ideal V := ⟨[], 0, fun _ => none, []⟩

def push (d : Ideal V) : End → Ideal V
  | .front => { d with items := d.pushed :: d.items, pushed := d.pushed + 1 }
  | .back => { d with items := d.items ++ [d.pushed], pushed := d.pushed + 1 }

/-- A future becomes ready. -/
def complete (d : Ideal V) (id : Nat) (value : V) : Ideal V :=
  { d with output := Function.update d.output id (some value) }

/-- The output of the future at an end, if there is one. -/
def take (d : Ideal V) (side : End) : Option V × Ideal V :=
  match atEnd d.items side with
  | none => (none, d)
  | some id =>
    match d.output id with
    | none => (none, d)
    | some value =>
      (some value, { d with
        items := withoutEnd d.items side
        handed := d.handed ++ [(side, id, value)] })

/-- The answer to a poll once all futures have been given the chance to
become ready. -/
def answer (d : Ideal V) : Pass → Ideal V × Returned V
  | .poll => (d, .polled (if d.items.any fun id => (d.output id).isNone then .pending else .ready ()))
  | .next side =>
    match d.take side with
    | (some value, d) => (d, .polledNext (.ready (some value)))
    | (none, d) => (d, .polledNext (if d.items.isEmpty then .ready none else .pending))

/-- Nothing lost, nothing twice, and the right outputs. -/
structure Sound (d : Ideal V) : Prop where
  exact : d.handed.map (fun entry => entry.2.1) ++ d.items ~ List.range d.pushed
  output : ∀ entry ∈ d.handed, d.output entry.2.1 = some entry.2.2
  fresh : ∀ id, d.pushed ≤ id → d.output id = none

theorem sound_new : Sound (new V) := ⟨List.Perm.refl _, nofun, fun _ _ => rfl⟩

theorem Sound.nodup {d : Ideal V} (h : Sound d) : d.items.Nodup :=
  (h.exact.nodup_iff.mpr List.nodup_range).sublist (List.sublist_append_right _ _)

theorem Sound.push {d : Ideal V} (h : Sound d) (side : End) : Sound (d.push side) := by
  have hperm : ∀ items : List Nat, items ~ d.pushed :: d.items →
      d.handed.map (fun entry => entry.2.1) ++ items ~ List.range (d.pushed + 1) := by
    intro items hitems
    rw [List.range_succ]
    calc d.handed.map (fun entry => entry.2.1) ++ items
        ~ d.handed.map (fun entry => entry.2.1) ++ d.pushed :: d.items := hitems.append_left _
      _ ~ d.pushed :: (d.handed.map (fun entry => entry.2.1) ++ d.items) := List.perm_middle
      _ ~ d.pushed :: List.range d.pushed := h.exact.cons _
      _ ~ List.range d.pushed ++ [d.pushed] := (List.perm_append_singleton _ _).symm
  cases side with
  | front =>
    exact ⟨hperm _ (List.Perm.refl _), h.output, fun id hid => h.fresh id (Nat.le_of_succ_le hid)⟩
  | back =>
    exact ⟨hperm _ (List.perm_append_singleton _ _), h.output,
      fun id hid => h.fresh id (Nat.le_of_succ_le hid)⟩

/-- A future of the deque completes. -/
theorem Sound.complete {d : Ideal V} (h : Sound d) {id : Nat} (hid : id ∈ d.items) (value : V) :
    Sound (d.complete id value) := by
  have hnodup := h.exact.nodup_iff.mpr List.nodup_range
  have hlt : id < d.pushed :=
    List.mem_range.mp (h.exact.mem_iff.mp (List.mem_append_right _ hid))
  refine ⟨h.exact, fun entry hentry => ?_, fun k hk => ?_⟩
  · have hne : entry.2.1 ≠ id := by
      rintro rfl
      exact (List.nodup_append.mp hnodup).2.2 _ (List.mem_map_of_mem hentry) _ hid rfl
    exact (Function.update_of_ne hne ..).trans (h.output entry hentry)
  · have hk' : d.pushed ≤ k := hk
    exact (Function.update_of_ne (by omega) ..).trans (h.fresh k hk)

/-- The element at an end and the others are all elements. -/
theorem atEnd_perm {l : List Nat} {side : End} {id : Nat} (h : atEnd l side = some id) :
    id :: withoutEnd l side ~ l := by
  cases side with
  | front =>
    obtain ⟨rest, hrest⟩ := List.head?_eq_some_iff.mp h
    rw [hrest]
    exact List.Perm.refl _
  | back =>
    conv_rhs => rw [← List.dropLast_append_getLast? _ h]
    exact (List.perm_append_singleton _ _).symm

theorem Sound.take {d : Ideal V} (h : Sound d) (side : End) : Sound (d.take side).2 := by
  rw [Ideal.take]
  split
  next => exact h
  next id hend =>
    split
    next => exact h
    next value hvalue =>
      refine ⟨?_, fun entry hentry => ?_, h.fresh⟩
      · rw [List.map_append, List.append_assoc]
        exact ((atEnd_perm hend).append_left _).trans h.exact
      · rcases List.mem_append.mp hentry with hentry | hentry
        · exact h.output entry hentry
        · rw [List.mem_singleton.mp hentry]
          exact hvalue

theorem Sound.answer {d : Ideal V} (h : Sound d) (pass : Pass) : Sound (d.answer pass).1 := by
  cases pass with
  | poll => exact h
  | next side =>
    have htake := h.take side
    rw [Ideal.answer]
    generalize d.take side = res at htake
    obtain ⟨_ | v, d'⟩ := res
    · exact htake
    · exact htake

end Ideal

end Folo.FutureDeque
