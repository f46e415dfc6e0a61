import Folo.Lib.Machine

/-!
# Threads over shared state

A program is given by `act`: what one atomic action of a thread at a program
counter does to the shared state, or `none` when the thread is blocked or the
action is not its next one. `threads` interleaves any number of such threads
(any index type `T`): a label names the thread that moves and whether it
starts a call or takes its next step.

`threads_invariant` is the Owicki–Gries rule. An invariant is a property `I`
of the shared state and, for each thread, an assertion `L` at its program
counter. A step must establish `I` and its own thread's next assertion, and
must not interfere with the assertions of the other threads.

A thread that runs a callback which re-enters the program is, for a safety
property, one more thread that moves while the first one is paused: `T` is
arbitrary, so such runs are covered.
-/

namespace Folo.Lib

/-- The shared state and the program counter of every thread. -/
structure Threads (S P T : Type*) where
  shared : S
  pc : T → P

/-- What a thread does next: start an operation, or the next step of the one
it is in. -/
inductive Act (O : Type*)
  | call (op : O)
  | step

variable {S P T O : Type*} [DecidableEq T]

/-- All threads start idle; a label is a thread and its action. -/
def threads (init : S) (idle : P) (act : T → P → Act O → S → Option (S × P)) :
    Machine (Threads S P T) (T × Act O) where
  init := { shared := init, pc := fun _ => idle }
  next σ l := (act l.1 (σ.pc l.1) l.2 σ.shared).map fun r =>
    { shared := r.1, pc := Function.update σ.pc l.1 r.2 }

theorem threads_next {init : S} {idle : P} {act : T → P → Act O → S → Option (S × P)}
    {σ σ' : Threads S P T} {t : T} {a : Act O} :
    (threads init idle act).next σ (t, a) = some σ' ↔
      act t (σ.pc t) a σ.shared = some (σ'.shared, σ'.pc t) ∧
        ∀ u, u ≠ t → σ'.pc u = σ.pc u := by
  simp only [threads, Option.map_eq_some_iff]
  constructor
  · rintro ⟨⟨s', p'⟩, hact, rfl⟩
    refine ⟨?_, fun u hu => Function.update_of_ne hu ..⟩
    simp only [hact, Function.update_self]
  · rintro ⟨hact, hother⟩
    refine ⟨_, hact, ?_⟩
    have hpc : Function.update σ.pc t (σ'.pc t) = σ'.pc := by
      funext u
      by_cases hu : u = t
      · rw [hu, Function.update_self]
      · rw [Function.update_of_ne hu, hother u hu]
    rw [hpc]

/-- **The Owicki–Gries rule.** -/
theorem threads_invariant {init : S} {idle : P} {act : T → P → Act O → S → Option (S × P)}
    {ok : Threads S P T → T × Act O → Prop} {I : S → Prop} {L : T → P → S → Prop}
    (hI : I init) (hL : ∀ t, L t idle init)
    (hstep : ∀ σ t a s' p', I σ.shared → (∀ u, L u (σ.pc u) σ.shared) → ok σ (t, a) →
      act t (σ.pc t) a σ.shared = some (s', p') →
      I s' ∧ L t p' s' ∧ ∀ u, u ≠ t → L u (σ.pc u) s')
    {σ : Threads S P T} (h : Machine.Reach (threads init idle act) ok σ) :
    I σ.shared ∧ ∀ t, L t (σ.pc t) σ.shared := by
  refine h.invariant (I := fun σ => I σ.shared ∧ ∀ t, L t (σ.pc t) σ.shared) ⟨hI, hL⟩ ?_
  rintro σ ⟨t, a⟩ σ' - ⟨hi, hl⟩ hok hs
  obtain ⟨hact, hother⟩ := threads_next.mp hs
  obtain ⟨hi', hown, hfree⟩ := hstep σ t a _ _ hi hl hok hact
  refine ⟨hi', fun u => ?_⟩
  by_cases hu : u = t
  · rw [hu]
    exact hown
  · rw [hother u hu]
    exact hfree u hu

end Folo.Lib
