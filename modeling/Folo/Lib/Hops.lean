import Folo.Lib.Loops
import Folo.Lib.Sorting

/-!
# Links that are followed

A loop goes from link to link, and ends where there is none or where a link
has a mark that it has seen. With finitely many marks it ends
(`exists_follow`), and links that go on for ever end it as a cycle
(`follow_of_endless`).
-/

namespace Folo.Lib

/-- What is at a place: an end, or a link with its mark and what comes of it. -/
inductive Hop (κ α β : Type*)
  | stop (result : β)
  | link (mark : κ) (target : β ⊕ α)

variable {α κ β : Type} [DecidableEq κ] (hop : α → Hop κ α β) (cycle : α → κ → β)

/-- One round: a mark that comes again is a cycle. -/
def followRound : α × List κ → β ⊕ (α × List κ)
  | (place, visited) =>
    match hop place with
    | .stop result => .inl result
    | .link mark target =>
      if mark ∈ visited then .inl (cycle place mark)
      else
        match target with
        | .inl result => .inl result
        | .inr next => .inr (next, mark :: visited)

def follow (rounds : Nat) (start : α) : Option β :=
  whileLoop (followRound hop cycle) rounds (start, [])

/-- The links go on from place to place for ever. -/
def Endless (start : α) : Prop :=
  ∃ places : Nat → α, places 0 = start ∧
    ∀ k, ∃ mark, hop (places k) = .link mark (.inr (places (k + 1)))

variable {hop cycle}

omit [DecidableEq κ] in
theorem Endless.next {start : α} (h : Endless hop start) :
    ∃ mark next, hop start = .link mark (.inr next) ∧ Endless hop next := by
  obtain ⟨places, rfl, hplaces⟩ := h
  obtain ⟨mark, hmark⟩ := hplaces 0
  exact ⟨mark, places 1, hmark, fun k => places (k + 1), rfl, fun k => hplaces (k + 1)⟩

theorem follow_mono {rounds rounds' : Nat} {start : α} {result : β} (hle : rounds ≤ rounds')
    (h : follow hop cycle rounds start = some result) :
    follow hop cycle rounds' start = some result :=
  whileLoop_mono h hle

/-- **It ends** where the marks are among finitely many. -/
theorem exists_follow {P : α → Prop} {marks : List κ}
    (hmarks : ∀ place mark target, P place → hop place = .link mark target →
      mark ∈ marks ∧ ∀ next, target = .inr next → P next) {start : α} (hstart : P start) :
    ∃ result, follow hop cycle (marks.length + 1) start = some result := by
  have hround : ∀ s : α × List κ, P s.1 →
      (∃ result, followRound hop cycle s = .inl result ∧ True) ∨
      ∃ next, followRound hop cycle s = .inr next ∧ P next.1 ∧
        (marks.filter fun mark => !next.2.contains mark).length <
          (marks.filter fun mark => !s.2.contains mark).length := by
    rintro ⟨place, visited⟩ hplace
    unfold followRound
    dsimp only
    cases hhop : hop place with
    | stop result => exact .inl ⟨result, rfl, trivial⟩
    | link mark target =>
      obtain ⟨hmark, hnext⟩ := hmarks place mark target hplace hhop
      dsimp only
      by_cases hmem : mark ∈ visited
      · rw [if_pos hmem]
        exact .inl ⟨_, rfl, trivial⟩
      · rw [if_neg hmem]
        cases target with
        | inl result => exact .inl ⟨result, rfl, trivial⟩
        | inr next => exact .inr ⟨_, rfl, hnext next rfl, filter_notMem_lt hmark hmem⟩
  obtain ⟨result, hresult, -⟩ := whileLoop_spec hround (s := (start, [])) hstart
    (Nat.lt_succ_of_le (List.length_filter_le ..))
  exact ⟨result, hresult⟩

/-- What every end has, what is come to has. -/
theorem of_follow {P : α → Prop} {Q : β → Prop}
    (hstop : ∀ place result, P place → hop place = .stop result → Q result)
    (hlink : ∀ place mark target, P place → hop place = .link mark target →
      Q (cycle place mark) ∧ (∀ result, target = .inl result → Q result) ∧
        ∀ next, target = .inr next → P next)
    {start : α} (hstart : P start) {rounds : Nat} {result : β}
    (h : follow hop cycle rounds start = some result) : Q result := by
  refine of_whileLoop (I := fun s : α × List κ => P s.1) (s := (start, [])) (P := Q) ?_ ?_ hstart h
  · rintro ⟨place, visited⟩ b hplace hb
    unfold followRound at hb
    dsimp only at hb
    cases hhop : hop place with
    | stop result =>
      rw [hhop] at hb
      exact Sum.inl.inj hb ▸ hstop place result hplace hhop
    | link mark target =>
      obtain ⟨hcycle, hend, -⟩ := hlink place mark target hplace hhop
      rw [hhop] at hb
      dsimp only at hb
      split at hb
      next => exact Sum.inl.inj hb ▸ hcycle
      next =>
        cases target with
        | inl result => exact Sum.inl.inj hb ▸ hend result rfl
        | inr next => nomatch hb
  · rintro ⟨place, visited⟩ next' hplace hnext'
    unfold followRound at hnext'
    dsimp only at hnext'
    cases hhop : hop place with
    | stop result =>
      rw [hhop] at hnext'
      nomatch hnext'
    | link mark target =>
      obtain ⟨-, -, hnext⟩ := hlink place mark target hplace hhop
      rw [hhop] at hnext'
      dsimp only at hnext'
      split at hnext'
      next => nomatch hnext'
      next =>
        cases target with
        | inl result => nomatch hnext'
        | inr next => exact Sum.inr.inj hnext' ▸ hnext next rfl

/-- **Links without an end** are a cycle. -/
theorem follow_of_endless {start : α} (h : Endless hop start) {rounds : Nat} {result : β}
    (hresult : follow hop cycle rounds start = some result) :
    ∃ place mark, result = cycle place mark := by
  refine of_follow (P := Endless hop) (Q := fun result => ∃ place mark, result = cycle place mark)
    ?_ ?_ h hresult
  · intro place result hplace hstop
    obtain ⟨mark, next, hhop, -⟩ := Endless.next hplace
    exact nomatch hhop.symm.trans hstop
  · intro place mark target hplace hlink
    obtain ⟨mark', next, hhop, hnext⟩ := Endless.next hplace
    obtain ⟨rfl, rfl⟩ := Hop.link.inj (hhop.symm.trans hlink)
    exact ⟨⟨place, _, rfl⟩, nofun, fun next' heq => Sum.inr.inj heq ▸ hnext⟩

end Folo.Lib
