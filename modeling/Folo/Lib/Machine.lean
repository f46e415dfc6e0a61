import Mathlib.Logic.Function.Basic

/-!
# Labelled machines, their runs and their invariants

A `Machine` is a start state and a partial `next` function: a label names
everything the environment chooses (which thread moves, which operation is
called), so that `next` is a function and a concrete run can be evaluated.
A label that is not possible in a state has no next state.

Two notions of run are kept apart because they serve different statements:

* `runFrom`/`run` execute a given label list. Counterexamples and witnesses
  are label lists, checked by evaluation.
* `Reach M ok` is the inductive set of states reached by steps that all
  satisfy `ok`, a condition on the state before the step and its label.
  `Reachable M` is the case without a condition. Invariants are proved over
  it by `Reach.invariant`.

A `Monitor` runs beside a machine and records history that the machine
itself forgets; it never influences the machine (`observe_fst`,
`observe_lift`), so a statement about the observed machine is a statement
about every run of the machine.
-/

namespace Folo.Lib

/-- A start state and a partial transition function over labels. -/
structure Machine (σ ℓ : Type*) where
  init : σ
  next : σ → ℓ → Option σ

namespace Machine

variable {σ ℓ μ : Type*}

/-- Execute a list of labels; `none` when one of them is not possible. -/
def runFrom (M : Machine σ ℓ) : σ → List ℓ → Option σ
  | s, [] => some s
  | s, l :: ls => (M.next s l).bind fun s' => M.runFrom s' ls

/-- Execute a list of labels from the start state. -/
def run (M : Machine σ ℓ) (ls : List ℓ) : Option σ :=
  M.runFrom M.init ls

@[simp] theorem runFrom_nil (M : Machine σ ℓ) (s : σ) : M.runFrom s [] = some s := rfl

theorem runFrom_cons (M : Machine σ ℓ) (s : σ) (l : ℓ) (ls : List ℓ) :
    M.runFrom s (l :: ls) = (M.next s l).bind fun s' => M.runFrom s' ls := rfl

/-- Executing a concatenation is executing its parts in turn. -/
theorem runFrom_append (M : Machine σ ℓ) (s : σ) (ls ls' : List ℓ) :
    M.runFrom s (ls ++ ls') = (M.runFrom s ls).bind fun s' => M.runFrom s' ls' := by
  induction ls generalizing s with
  | nil => rfl
  | cons l ls ih =>
    rw [List.cons_append, runFrom_cons, runFrom_cons]
    cases M.next s l with
    | none => rfl
    | some s' => exact ih s'

/-! ## Reachability by steps that meet a condition -/

/-- The states reached from the start by steps whose state and label satisfy
`ok`. -/
inductive Reach (M : Machine σ ℓ) (ok : σ → ℓ → Prop) : σ → Prop
  | init : Reach M ok M.init
  | step {s s' : σ} {l : ℓ} : Reach M ok s → ok s l → M.next s l = some s' → Reach M ok s'

/-- The states reached by any steps at all. -/
def Reachable (M : Machine σ ℓ) : σ → Prop :=
  Reach M fun _ _ => True

theorem Reachable.init (M : Machine σ ℓ) : Reachable M M.init := Reach.init

theorem Reachable.step {M : Machine σ ℓ} {s s' : σ} {l : ℓ} (h : Reachable M s)
    (hs : M.next s l = some s') : Reachable M s' :=
  Reach.step h trivial hs

/-- **The invariant rule**: a property of the start state that every
admissible step from a state reached preserves holds of every state reached.
What is already known of the states reached can be used in the step. -/
theorem Reach.invariant {M : Machine σ ℓ} {ok : σ → ℓ → Prop} {I : σ → Prop}
    (hinit : I M.init)
    (hstep : ∀ s l s', Reach M ok s → I s → ok s l → M.next s l = some s' → I s')
    {s : σ} (h : Reach M ok s) : I s := by
  induction h with
  | init => exact hinit
  | step hr hok hs ih => exact hstep _ _ _ hr ih hok hs

theorem Reach.mono {M : Machine σ ℓ} {ok ok' : σ → ℓ → Prop}
    (himp : ∀ s l, ok s l → ok' s l) {s : σ} (h : Reach M ok s) : Reach M ok' s := by
  induction h with
  | init => exact Reach.init
  | step _ hok hs ih => exact Reach.step ih (himp _ _ hok) hs

theorem Reach.reachable {M : Machine σ ℓ} {ok : σ → ℓ → Prop} {s : σ}
    (h : Reach M ok s) : Reachable M s :=
  h.mono fun _ _ _ => trivial

/-- The same machine, started in a state of its own. -/
def startAt (M : Machine σ ℓ) (s : σ) : Machine σ ℓ :=
  { M with init := s }

/-- Going on from a state reached reaches a state. -/
theorem Reach.trans {M : Machine σ ℓ} {ok ok' : σ → ℓ → Prop} {s s' : σ} (h : Reach M ok s)
    (himp : ∀ s l, ok' s l → ok s l) (h' : Reach (M.startAt s) ok' s') : Reach M ok s' := by
  induction h' with
  | init => exact h
  | step _ hok hs ih => exact ih.step (himp _ _ hok) hs

/-- Executing labels from a reachable state reaches a state. -/
theorem Reachable.runFrom {M : Machine σ ℓ} {s s' : σ} (h : Reachable M s) (ls : List ℓ)
    (hs : M.runFrom s ls = some s') : Reachable M s' := by
  induction ls generalizing s with
  | nil =>
    rw [runFrom_nil, Option.some.injEq] at hs
    exact hs ▸ h
  | cons l ls ih =>
    rw [runFrom_cons, Option.bind_eq_some_iff] at hs
    obtain ⟨s₁, hnext, hrest⟩ := hs
    exact ih (h.step hnext) hrest

/-- What a label list executes to is reachable. -/
theorem reachable_of_run {M : Machine σ ℓ} {ls : List ℓ} {s : σ} (h : M.run ls = some s) :
    Reachable M s :=
  (Reachable.init M).runFrom ls h

/-- The machine that only takes steps that satisfy `ok`. -/
def restrict (M : Machine σ ℓ) (ok : σ → ℓ → Prop) [∀ s l, Decidable (ok s l)] :
    Machine σ ℓ where
  init := M.init
  next s l := if ok s l then M.next s l else none

/-- Executing labels of the restricted machine takes admissible steps. -/
theorem reach_of_run_restrict {M : Machine σ ℓ} {ok : σ → ℓ → Prop}
    [∀ s l, Decidable (ok s l)] {ls : List ℓ} {s : σ} (h : (M.restrict ok).run ls = some s) :
    Reach M ok s := by
  refine Reach.invariant (M := M.restrict ok) (I := Reach M ok) Reach.init ?_ (reachable_of_run h)
  intro s l s' _ hr _ hs
  simp only [restrict] at hs
  split at hs
  next hok => exact hr.step hok hs
  next => cases hs

/-- What the restricted machine executes, the machine executes. -/
theorem run_of_run_restrict {M : Machine σ ℓ} {ok : σ → ℓ → Prop} [∀ s l, Decidable (ok s l)]
    {ls : List ℓ} {s : σ} (h : (M.restrict ok).run ls = some s) : M.run ls = some s := by
  have hfrom : ∀ (ls : List ℓ) (s₀ : σ), (M.restrict ok).runFrom s₀ ls = some s →
      M.runFrom s₀ ls = some s := by
    intro ls
    induction ls with
    | nil => exact fun _ h => h
    | cons l ls ih =>
      intro s₀ h
      rw [runFrom_cons, Option.bind_eq_some_iff] at h
      obtain ⟨s₁, hnext, hrest⟩ := h
      simp only [restrict] at hnext
      split at hnext
      next => rw [runFrom_cons, hnext, Option.bind_some, ih s₁ hrest]
      next => cases hnext
  exact hfrom ls M.init h

/-! ## Monitors -/

/-- A history recorder: a start value and an update that sees the state
before a step, the label and the state after it. -/
structure Monitor (σ ℓ μ : Type*) where
  start : μ
  update : μ → σ → ℓ → σ → μ

/-- The machine with a monitor running beside it. -/
def observe (M : Machine σ ℓ) (W : Monitor σ ℓ μ) : Machine (σ × μ) ℓ where
  init := (M.init, W.start)
  next p l := (M.next p.1 l).map fun s' => (s', W.update p.2 p.1 l s')

theorem observe_next {M : Machine σ ℓ} {W : Monitor σ ℓ μ} {p p' : σ × μ} {l : ℓ} :
    (M.observe W).next p l = some p' ↔
      M.next p.1 l = some p'.1 ∧ p'.2 = W.update p.2 p.1 l p'.1 := by
  simp only [observe, Option.map_eq_some_iff]
  constructor
  · rintro ⟨s', hs, rfl⟩
    exact ⟨hs, rfl⟩
  · rintro ⟨hs, hm⟩
    exact ⟨p'.1, hs, by rw [← hm]⟩

/-- A monitor adds no behaviour. -/
theorem observe_fst {M : Machine σ ℓ} {W : Monitor σ ℓ μ} {ok : σ → ℓ → Prop} {p : σ × μ}
    (h : Reach (M.observe W) (fun q l => ok q.1 l) p) : Reach M ok p.1 := by
  induction h with
  | init => exact Reach.init
  | step _ hok hs ih => exact Reach.step ih hok (observe_next.mp hs).1

/-- A monitor removes no behaviour. -/
theorem observe_lift {M : Machine σ ℓ} (W : Monitor σ ℓ μ) {ok : σ → ℓ → Prop} {s : σ}
    (h : Reach M ok s) : ∃ m, Reach (M.observe W) (fun q l => ok q.1 l) (s, m) := by
  induction h with
  | init => exact ⟨W.start, Reach.init⟩
  | @step s s' l _ hok hs ih =>
    obtain ⟨m, hm⟩ := ih
    have hnext : (M.observe W).next (s, m) l = some (s', W.update m s l s') :=
      observe_next.mpr ⟨hs, rfl⟩
    exact ⟨_, Reach.step hm hok hnext⟩

end Machine

end Folo.Lib
