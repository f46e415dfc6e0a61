import Mathlib.Tactic.Common

/-!
# `while` loops

A loop by the rounds it is given: a round leaves the loop with a result or goes
on with a state (`whileLoop`). An invariant and a variant that goes down show
that it leaves, and with what (`whileLoop_spec`).
-/

namespace Folo.Lib

variable {σ β : Type*}

/-- Takes rounds until one leaves; nothing, if `rounds` of them all go on. -/
def whileLoop (round : σ → β ⊕ σ) : Nat → σ → Option β
  | 0, _ => none
  | rounds + 1, s =>
    match round s with
    | .inl result => some result
    | .inr next => whileLoop round rounds next

/-- **The rule of the loop**: a round from a state with the invariant leaves
with what is wanted or goes on with the invariant and a smaller variant. -/
theorem whileLoop_spec {f : σ → β ⊕ σ} {I : σ → Prop} {P : β → Prop} {v : σ → Nat}
    (hround : ∀ s, I s → (∃ b, f s = .inl b ∧ P b) ∨
      ∃ next, f s = .inr next ∧ I next ∧ v next < v s)
    {n : Nat} {s : σ} (hs : I s) (hlt : v s < n) :
    ∃ b, whileLoop f n s = some b ∧ P b := by
  induction n generalizing s with
  | zero => omega
  | succ n ih =>
    rw [whileLoop]
    rcases hround s hs with ⟨b, hb, hpost⟩ | ⟨next, hnext, hinv, hdown⟩
    · rw [hb]
      exact ⟨b, rfl, hpost⟩
    · rw [hnext]
      exact ih hinv (by omega)

/-- What a loop leaves with, when it leaves. -/
theorem of_whileLoop {f : σ → β ⊕ σ} {I : σ → Prop} {P : β → Prop}
    (hleave : ∀ s b, I s → f s = .inl b → P b) (hround : ∀ s next, I s → f s = .inr next → I next)
    {n : Nat} {s : σ} (hs : I s) {b : β} (hb : whileLoop f n s = some b) : P b := by
  induction n generalizing s with
  | zero => nomatch hb
  | succ n ih =>
    rw [whileLoop] at hb
    cases hf : f s with
    | inl result =>
      rw [hf] at hb
      exact Option.some.inj hb ▸ hleave s result hs hf
    | inr next =>
      rw [hf] at hb
      exact ih (hround s next hs hf) hb

/-- More rounds change nothing for a loop that leaves. -/
theorem whileLoop_mono {f : σ → β ⊕ σ} {n m : Nat} {s : σ} {b : β}
    (hb : whileLoop f n s = some b) (hle : n ≤ m) : whileLoop f m s = some b := by
  induction n generalizing m s with
  | zero => nomatch hb
  | succ n ih =>
    obtain ⟨m, rfl⟩ : ∃ k, m = k + 1 := ⟨m - 1, by omega⟩
    rw [whileLoop] at hb ⊢
    cases hf : f s with
    | inl result =>
      rw [hf] at hb
      exact hb
    | inr next =>
      rw [hf] at hb
      exact ih hb (by omega)

end Folo.Lib
