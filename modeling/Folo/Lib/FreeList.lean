import Mathlib.Data.List.Nodup
import Mathlib.Logic.Function.Basic

/-!
# Free lists threaded through the free cells

A cell of a memory is free when it holds a link (`next a = some b`), and the
free cells are threaded into a stack: `head`, `next head`, and so on up to an
end marker. `FreeList next stop head l` says that this stack is `l`, that it
visits no cell twice, and that it misses no free cell. `pop` and `push` are
the two uses a pool makes of it.
-/

namespace Folo.Lib

variable {α : Type*}

/-- Following the links from `a` visits `l` and ends at `stop`. -/
def Chain (next : α → Option α) (stop : α) : α → List α → Prop
  | a, [] => a = stop
  | a, b :: l => a = b ∧ ∃ c, next b = some c ∧ Chain next stop c l

/-- A chain only depends on the links of the cells it visits. -/
theorem Chain.congr {next next' : α → Option α} {stop a : α} {l : List α}
    (h : Chain next stop a l) (heq : ∀ b ∈ l, next' b = next b) : Chain next' stop a l := by
  induction l generalizing a with
  | nil => exact h
  | cons b l ih =>
    obtain ⟨rfl, c, hc, hl⟩ := h
    refine ⟨rfl, c, ?_, ih hl fun b hb => heq b (List.mem_cons_of_mem _ hb)⟩
    rw [heq a List.mem_cons_self, hc]

/-- The free cells are exactly `l`, each once, in the order of the stack. -/
structure FreeList (next : α → Option α) (stop head : α) (l : List α) : Prop where
  chain : Chain next stop head l
  nodup : l.Nodup
  mem : ∀ a, a ∈ l ↔ (next a).isSome

/-- As soon as one cell is free, the head is a free cell. -/
theorem FreeList.head_free {next : α → Option α} {stop head a : α} {l : List α}
    (h : FreeList next stop head l) (ha : (next a).isSome) :
    ∃ c rest, l = head :: rest ∧ next head = some c ∧ Chain next stop c rest := by
  cases l with
  | nil => exact absurd ((h.mem a).mpr ha) List.not_mem_nil
  | cons b rest =>
    obtain ⟨rfl, c, hc, hrest⟩ := h.chain
    exact ⟨c, rest, rfl, hc, hrest⟩

variable [DecidableEq α]

/-- Taking the head off. -/
theorem FreeList.pop {next : α → Option α} {stop head c : α} {l : List α}
    (h : FreeList next stop head l) (hc : next head = some c) :
    ∃ rest, FreeList (Function.update next head none) stop c rest := by
  obtain ⟨c', rest, rfl, hc', hrest⟩ := h.head_free (a := head) (by rw [hc]; rfl)
  obtain rfl : c = c' := Option.some.inj (hc.symm.trans hc')
  have hnot := (List.nodup_cons.mp h.nodup).1
  refine ⟨rest, hrest.congr fun b hb => ?_, (List.nodup_cons.mp h.nodup).2, fun a => ?_⟩
  · exact Function.update_of_ne (ne_of_mem_of_not_mem hb hnot) _ _
  · have ha := h.mem a
    by_cases he : a = head
    · subst he
      simp [hnot]
    · rw [Function.update_of_ne he, ← ha, List.mem_cons, or_iff_right he]

/-- Putting a cell that is in use on top. -/
theorem FreeList.push {next : α → Option α} {stop head a : α} {l : List α}
    (h : FreeList next stop head l) (ha : next a = none) :
    FreeList (Function.update next a (some head)) stop a (a :: l) := by
  have hnot : a ∉ l := by
    rw [h.mem, ha]
    simp
  refine ⟨⟨rfl, head, Function.update_self .., h.chain.congr fun b hb => ?_⟩,
    List.nodup_cons.mpr ⟨hnot, h.nodup⟩, fun b => ?_⟩
  · exact Function.update_of_ne (ne_of_mem_of_not_mem hb hnot) _ _
  · by_cases he : b = a
    · subst he
      simp
    · rw [Function.update_of_ne he, ← h.mem, List.mem_cons, or_iff_right he]

end Folo.Lib
