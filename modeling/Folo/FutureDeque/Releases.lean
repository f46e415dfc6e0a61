import Folo.FutureDeque.Handles

/-!
# When the metadata of a slot is released

`Core` returns a cell to its pool in the same step as the `fetch_sub` that
finds the last reference. Here the two are apart, as in `release_ref`: the
thread that has read `previous == 1` is `freeing` the cell, other threads
move in between, and the pool can give the cell out again only once it has
been returned. `taken` are the cells that the pool has given out.

`Accounted` is what holds in every state that any interleaving reaches: the
count of a cell is its live wakers and the reference of its slot, whoever
takes it to zero is the one that returns the cell, once, and nobody reads or
writes a cell without a reference in it.
-/

namespace Folo.FutureDeque

open Folo.Lib

variable {P V W : Type}

/-! ## The pool beside the deque -/

/-- The deque, its threads and the pool of its metadata. -/
structure Pooled (P V W : Type) where
  deque : Threads (Core P V W) (Pc P V) (Option W)
  /-- The cells that the pool has given out and not got back. -/
  taken : MetaPtr → Bool
  /-- The cell whose last reference a thread has released, until it has
  returned it. -/
  freeing : Option W → Option MetaPtr

/-- What a thread does next: an action of the deque, or the end of
`release_ref`. -/
inductive Move (O : Type)
  | act (a : Act O)
  | free

namespace Pooled

/-- `ref_count`. -/
def refCount (σ : Pooled P V W) (p : MetaPtr) : Nat := σ.deque.shared.metas.refs p

/-- The wakers for `p`: those outside the deque, those that a call is using
up, and the one in the slot. -/
def liveWakers (σ : Pooled P V W) (p : MetaPtr) : Nat :=
  σ.deque.shared.held p + (σ.deque.shared.owned p).length +
    (pendings σ.deque.shared.slots).count p +
    if (σ.deque.pc none).oldWaker = some p then 1 else 0

/-- One while the slot holds its reference. -/
def slotRefs (σ : Pooled P V W) (p : MetaPtr) : Nat :=
  (pendings σ.deque.shared.slots).count p +
    if (σ.deque.pc none).oldSlot = some p then 1 else 0

/-- `previous == 1`. -/
def lastRef (σ : Pooled P V W) (t : Option W) : Option MetaPtr :=
  (σ.deque.pc t).releases.filter fun p => σ.refCount p = 1

theorem lastRef_eq_some {σ : Pooled P V W} {t : Option W} {p : MetaPtr} :
    σ.lastRef t = some p ↔ (σ.deque.pc t).releases = some p ∧ σ.refCount p = 1 := by
  rw [Pooled.lastRef, Option.filter_eq_some_iff, decide_eq_true_eq]

theorem lastRef_eq_none {σ : Pooled P V W} {t : Option W}
    (h : ∀ p, (σ.deque.pc t).releases = some p → σ.refCount p ≠ 1) : σ.lastRef t = none := by
  cases hlast : σ.lastRef t with
  | none => rfl
  | some p =>
    obtain ⟨hreleases, hone⟩ := lastRef_eq_some.mp hlast
    exact absurd hone (h p hreleases)

end Pooled

/-- The deque over its pool. -/
def pooled (P V W : Type) [DecidableEq P] [DecidableEq W] (noop : P) :
    Machine (Pooled P V W) (Option W × Move (Call P V)) where
  init := { deque := (futureDeque P V W noop).init, taken := fun _ => false,
            freeing := fun _ => none }
  next σ
    | (t, .act a) =>
      -- A thread that has found the last reference goes on in `release_ref`.
      if σ.freeing t = none ∧ ∀ p ∈ creates a, σ.taken p = false then
        ((futureDeque P V W noop).next σ.deque (t, a)).map fun deque =>
          { deque := deque
            taken := (creates a).elim σ.taken fun p => Function.update σ.taken p true
            freeing := Function.update σ.freeing t (σ.lastRef t) }
      else none
    | (t, .free) =>
      (σ.freeing t).map fun p =>
        { σ with
          taken := Function.update σ.taken p false
          freeing := Function.update σ.freeing t none }

/-- How often each cell has been given out and got back. -/
structure Ledger where
  created : MetaPtr → Nat
  released : MetaPtr → Nat

/-- The history of the pool. -/
def ledger : Machine.Monitor (Pooled P V W) (Option W × Move (Call P V)) Ledger where
  start := { created := fun _ => 0, released := fun _ => 0 }
  update μ σ
    | (_, .act a), _ =>
      { μ with created := fun p => μ.created p + if creates a = some p then 1 else 0 }
    | (t, .free), _ =>
      { μ with released := fun p => μ.released p + if σ.freeing t = some p then 1 else 0 }

section Runs

variable [DecidableEq P] [DecidableEq W]

/-! ## Steps of the pool -/

theorem pooled_act {noop : P} {σ σ' : Pooled P V W} {t : Option W} {a : Act (Call P V)}
    (h : (pooled P V W noop).next σ (t, .act a) = some σ') :
    σ.freeing t = none ∧ (∀ p, creates a = some p → σ.taken p = false) ∧
      (futureDeque P V W noop).next σ.deque (t, a) = some σ'.deque ∧
      σ'.taken = (creates a).elim σ.taken (fun p => Function.update σ.taken p true) ∧
      σ'.freeing = Function.update σ.freeing t (σ.lastRef t) := by
  unfold pooled at h
  dsimp only at h
  split at h
  next hfree =>
    obtain ⟨deque, hdeque, rfl⟩ := Option.map_eq_some_iff.mp h
    exact ⟨hfree.1, fun p hp => hfree.2 p hp, hdeque, rfl, rfl⟩
  next => cases h

theorem pooled_free {noop : P} {σ σ' : Pooled P V W} {t : Option W}
    (h : (pooled P V W noop).next σ (t, .free) = some σ') :
    ∃ p, σ.freeing t = some p ∧ σ'.deque = σ.deque ∧
      σ'.taken = Function.update σ.taken p false ∧
      σ'.freeing = Function.update σ.freeing t none := by
  obtain ⟨p, hp, rfl⟩ := Option.map_eq_some_iff.mp h
  exact ⟨p, hp, rfl, rfl, rfl⟩

/-- Beside its pool the deque does what it does alone. -/
theorem reachable_deque {noop : P} {q : Pooled P V W × Ledger}
    (h : ((pooled P V W noop).observe ledger).Reachable q) :
    (futureDeque P V W noop).Reachable q.1.deque := by
  refine Machine.Reach.invariant (I := fun q => (futureDeque P V W noop).Reachable q.1.deque)
    (Machine.Reachable.init _) ?_ h
  rintro q ⟨t, m⟩ q' - hq - hnext
  obtain ⟨hnext, -⟩ := Machine.observe_next.mp hnext
  cases m with
  | act a => exact hq.step (pooled_act hnext).2.2.1
  | free =>
    obtain ⟨p, -, hdeque, -⟩ := pooled_free hnext
    rw [hdeque]
    exact hq

/-- The invariant of the pool. -/
structure PoolSound (σ : Pooled P V W) (μ : Ledger) : Prop where
  taken : ∀ p, σ.taken p = true ↔ 0 < σ.refCount p ∨ ∃ t, σ.freeing t = some p
  last : ∀ t p, σ.freeing t = some p → σ.refCount p = 0 ∧ ∀ u, σ.freeing u = some p → u = t
  once : ∀ p, μ.created p = μ.released p + if σ.taken p then 1 else 0

namespace PoolSound

omit [DecidableEq P]

omit [DecidableEq W] in
theorem not_freeing {σ : Pooled P V W} {μ : Ledger} (h : PoolSound σ μ) {p : MetaPtr}
    (hp : 0 < σ.refCount p) (t : Option W) : σ.freeing t ≠ some p := by
  intro ht
  have hzero := (h.last t p ht).1
  omega

omit [DecidableEq W] in
theorem absent {σ : Pooled P V W} {μ : Ledger} (h : PoolSound σ μ) {p : MetaPtr}
    (hp : σ.taken p = false) (t : Option W) : σ.freeing t ≠ some p := by
  intro ht
  rw [(h.taken p).mpr (Or.inr ⟨t, ht⟩)] at hp
  cases hp

omit [DecidableEq W] in
/-- No cell comes or goes. -/
theorem kept {σ σ' : Pooled P V W} {μ : Ledger} (h : PoolSound σ μ) (ht : σ'.taken = σ.taken)
    (hf : σ'.freeing = σ.freeing) (hr : ∀ p, 0 < σ'.refCount p ↔ 0 < σ.refCount p) :
    PoolSound σ' μ := by
  refine ⟨fun p => ?_, fun t p hp => ?_, fun p => ?_⟩
  · rw [ht, hf, hr p]
    exact h.taken p
  · rw [hf] at hp
    obtain ⟨hzero, hone⟩ := h.last t p hp
    have hpos := hr p
    refine ⟨by omega, fun u hu => hone u ?_⟩
    rwa [hf] at hu
  · rw [ht]
    exact h.once p

omit [DecidableEq W] in
/-- The pool gives a cell out. -/
theorem created {σ σ' : Pooled P V W} {μ μ' : Ledger} (h : PoolSound σ μ) {p : MetaPtr}
    (hp : σ.taken p = false) (ht : σ'.taken = Function.update σ.taken p true)
    (hf : σ'.freeing = σ.freeing) (hr : σ'.refCount = Function.update σ.refCount p 2)
    (hc : ∀ q, μ'.created q = μ.created q + if some p = some q then 1 else 0)
    (hμ : μ'.released = μ.released) : PoolSound σ' μ' := by
  refine ⟨fun q => ?_, fun t q hq => ?_, fun q => ?_⟩
  · rw [ht, hf, hr]
    by_cases hqp : q = p
    · subst hqp
      simp
    · rw [Function.update_of_ne hqp, Function.update_of_ne hqp]
      exact h.taken q
  · rw [hf] at hq
    have hne : q ≠ p := by
      rintro rfl
      exact h.absent hp t hq
    rw [hr, Function.update_of_ne hne, hf]
    exact h.last t q hq
  · have honce := h.once q
    rw [hc q, hμ, ht]
    by_cases hqp : q = p
    · subst hqp
      rw [hp] at honce
      simp only [Function.update_self, if_true]
      simp only [Bool.false_eq_true, if_false] at honce
      omega
    · rw [Function.update_of_ne hqp, if_neg fun heq => hqp (Option.some.inj heq).symm]
      exact honce

/-- The last reference goes away. -/
theorem released {σ σ' : Pooled P V W} {μ : Ledger} (h : PoolSound σ μ) {t : Option W}
    {p : MetaPtr} (hp : σ.refCount p = 1) (hfree : σ.freeing t = none)
    (ht : σ'.taken = σ.taken) (hf : σ'.freeing = Function.update σ.freeing t (some p))
    (hr : σ'.refCount = Function.update σ.refCount p 0) : PoolSound σ' μ := by
  have hnone := h.not_freeing (p := p) (by omega)
  -- Only `t` frees anything new, and nobody was freeing `p`.
  have hwho : ∀ u q, σ'.freeing u = some q ↔ (u = t ∧ q = p) ∨ σ.freeing u = some q := by
    intro u q
    rw [hf]
    by_cases hu : u = t
    · subst hu
      rw [Function.update_self, hfree]
      simp [eq_comm]
    · rw [Function.update_of_ne hu]
      simp [hu]
  refine ⟨fun q => ?_, fun u q hq => ?_, fun q => ?_⟩
  · rw [ht, hr, h.taken q]
    simp only [hwho]
    by_cases hqp : q = p
    · subst hqp
      rw [Function.update_self, hp]
      simp
    · rw [Function.update_of_ne hqp]
      simp [hqp]
  · rw [hr]
    rcases (hwho u q).mp hq with ⟨rfl, rfl⟩ | hu
    · refine ⟨Function.update_self .., fun v hv => ?_⟩
      rcases (hwho v q).mp hv with ⟨rfl, -⟩ | hv
      · rfl
      · exact absurd hv (hnone v)
    · have hne : q ≠ p := by
        rintro rfl
        exact hnone u hu
      rw [Function.update_of_ne hne]
      refine ⟨(h.last u q hu).1, fun v hv => ?_⟩
      rcases (hwho v q).mp hv with ⟨-, rfl⟩ | hv
      · exact absurd rfl hne
      · exact (h.last u q hu).2 v hv
  · rw [ht]
    exact h.once q

/-- The pool gets a cell back. -/
theorem freed {σ σ' : Pooled P V W} {μ μ' : Ledger} (h : PoolSound σ μ) {t : Option W}
    {p : MetaPtr} (hp : σ.freeing t = some p)
    (ht : σ'.taken = Function.update σ.taken p false)
    (hf : σ'.freeing = Function.update σ.freeing t none) (hr : σ'.refCount = σ.refCount)
    (hc : μ'.created = μ.created)
    (hμ : ∀ q, μ'.released q = μ.released q + if some p = some q then 1 else 0) :
    PoolSound σ' μ' := by
  obtain ⟨hzero, hone⟩ := h.last t p hp
  have hwho : ∀ u q, σ'.freeing u = some q ↔ q ≠ p ∧ σ.freeing u = some q := by
    intro u q
    rw [hf]
    by_cases hu : u = t
    · subst hu
      rw [Function.update_self, hp]
      simp [eq_comm]
    · rw [Function.update_of_ne hu]
      refine ⟨fun hq => ⟨?_, hq⟩, And.right⟩
      rintro rfl
      exact hu (hone u hq)
  refine ⟨fun q => ?_, fun u q hq => ?_, fun q => ?_⟩
  · rw [ht, hr]
    simp only [hwho]
    by_cases hqp : q = p
    · subst hqp
      rw [Function.update_self, hzero]
      simp
    · rw [Function.update_of_ne hqp, h.taken q]
      simp [hqp]
  · obtain ⟨-, hq⟩ := (hwho u q).mp hq
    rw [hr]
    exact ⟨(h.last u q hq).1, fun v hv => (h.last u q hq).2 v ((hwho v q).mp hv).2⟩
  · have honce := h.once q
    rw [hc, hμ q, ht]
    by_cases hqp : q = p
    · subst hqp
      rw [(h.taken q).mpr (Or.inr ⟨t, hp⟩)] at honce
      simp only [Function.update_self, if_true, Bool.false_eq_true, if_false]
      simp only [if_true] at honce
      omega
    · rw [Function.update_of_ne hqp, if_neg fun heq => hqp (Option.some.inj heq).symm]
      exact honce

end PoolSound

/-- An action of the deque, by what it does to the cells. -/
theorem PoolSound.act {noop : P} {σ σ' : Pooled P V W} {μ μ' : Ledger} {t : Option W}
    {a : Act (Call P V)} (h : PoolSound σ μ)
    (halive : ∀ p m, σ.deque.shared.metas p = some m → 0 < m.refCount)
    (hnext : (pooled P V W noop).next σ (t, .act a) = some σ')
    (hc : ∀ p, μ'.created p = μ.created p + if creates a = some p then 1 else 0)
    (hμ : μ'.released = μ.released) : PoolSound σ' μ' := by
  obtain ⟨hfree, hnew, hdeque, htaken, hfreeing⟩ := pooled_act hnext
  have htouched := act_touched halive (threads_next.mp hdeque).1
  have hkept : ∀ {o : Option MetaPtr}, o = none →
      σ'.freeing = Function.update σ.freeing t o → σ'.freeing = σ.freeing := by
    rintro _ rfl hf
    rw [hf, ← hfree, Function.update_eq_self]
  cases htouched with
  | created p ha hpc hp hrefs =>
    rw [ha] at htaken
    refine h.created (hnew p ha) htaken (hkept ?_ hfreeing) hrefs (fun q => ?_) hμ
    · exact Pooled.lastRef_eq_none fun q hq => by rw [hpc] at hq; cases hq
    · rw [hc q, ha]
  | released p ha hpc hp hrefs =>
    rw [ha] at htaken
    have hledger : μ'.created = μ.created := funext fun q => by
      rw [hc q, ha]
      exact Nat.add_zero _
    have hsame : μ' = μ := by
      cases μ
      cases μ'
      cases hledger
      cases hμ
      rfl
    subst hsame
    by_cases hone : σ.refCount p = 1
    · rw [Pooled.lastRef_eq_some.mpr ⟨hpc, hone⟩] at hfreeing
      refine h.released hone hfree htaken hfreeing ?_
      rw [show (0 : Nat) = σ.refCount p - 1 by omega]
      exact hrefs
    · refine h.kept htaken (hkept ?_ hfreeing) fun q => ?_
      · exact Pooled.lastRef_eq_none fun q hq => by rw [hpc] at hq; cases hq; exact hone
      · have hq : σ'.refCount q = Function.update σ.refCount p (σ.refCount p - 1) q :=
          congrFun hrefs q
        rw [hq, Function.update_apply]
        split
        next heq =>
          subst heq
          have hpos : 0 < σ.refCount q := hp
          omega
        next => exact Iff.rfl
  | kept ha hpc hsome =>
    rw [ha] at htaken
    have hkeep := h.kept htaken (hkept
      (Pooled.lastRef_eq_none fun q hq => by rw [hpc] at hq; cases hq) hfreeing) hsome
    refine ⟨hkeep.taken, hkeep.last, fun q => ?_⟩
    rw [hc q, ha, hμ]
    exact hkeep.once q

theorem reachable_poolSound {noop : P} {q : Pooled P V W × Ledger}
    (h : ((pooled P V W noop).observe ledger).Reachable q) : PoolSound q.1 q.2 := by
  refine Machine.Reach.invariant (I := fun q => PoolSound q.1 q.2) ?_ ?_ h
  · refine ⟨fun p => ?_, nofun, fun p => rfl⟩
    constructor
    · nofun
    · rintro (hp | ⟨t, ht⟩)
      · cases hp
      · cases ht
  rintro ⟨σ, μ⟩ ⟨t, m⟩ ⟨σ', μ'⟩ hr hq - hobserved
  obtain ⟨hnext, hμ⟩ := Machine.observe_next.mp hobserved
  dsimp only at hnext hμ hq ⊢
  subst hμ
  cases m with
  | act a =>
    exact hq.act (reachable_counted (reachable_deque hr)).1.alive hnext (fun _ => rfl) rfl
  | free =>
    obtain ⟨p, hp, hdeque, htaken, hfreeing⟩ := pooled_free hnext
    refine hq.freed hp htaken hfreeing ?_ rfl fun q => ?_
    · funext q
      rw [Pooled.refCount, hdeque]
      rfl
    · rw [← hp]
      rfl

/-! ## Every reachable state -/

/-- What holds of the metadata beside a deque, its wakers and its pool. -/
structure Accounted (noop : P) (σ : Pooled P V W) (μ : Ledger) : Prop where
  /-- A reference is a live waker or that of the slot. -/
  count : ∀ p, σ.refCount p = σ.liveWakers p + σ.slotRefs p
  slot : ∀ p, σ.slotRefs p ≤ 1
  /-- A cell is out of the pool while it has a reference, and until the
  thread that released the last one has returned it. -/
  taken : ∀ p, σ.taken p = true ↔
    0 < σ.liveWakers p + σ.slotRefs p ∨ ∃ t, σ.freeing t = some p
  /-- Each time it was given out it is got back once. -/
  once : ∀ p, μ.created p = μ.released p + if σ.taken p then 1 else 0
  /-- Only the step that drops the last reference leads to the return, and
  that thread does nothing else before. -/
  last : ∀ t m σ', (pooled P V W noop).next σ (t, m) = some σ' → ∀ p,
    (0 < σ.refCount p ∧ σ'.refCount p = 0 ↔
      σ.freeing t ≠ some p ∧ σ'.freeing t = some p) ∧
    (σ.taken p = true ∧ σ'.taken p = false ↔ m = .free ∧ σ.freeing t = some p)
  freeing : ∀ t p, σ.freeing t = some p → (∀ u, σ.freeing u = some p → u = t) ∧
    ∃ σ', (pooled P V W noop).next σ (t, .free) = some σ' ∧
      ∀ m, m ≠ .free → (pooled P V W noop).next σ (t, m) = none
  /-- Nobody reads or writes a cell that has been released. -/
  accesses : ∀ t p, (σ.deque.pc t).accesses σ.deque.shared.slots = some p →
    σ.taken p = true ∧ 0 < σ.refCount p

/-- Only the thread that is freeing a cell takes it from the pool's books. -/
theorem PoolSound.next_iff {noop : P} {σ σ' : Pooled P V W} {μ : Ledger} {t : Option W}
    {m : Move (Call P V)} (h : PoolSound σ μ)
    (halive : ∀ p m, σ.deque.shared.metas p = some m → 0 < m.refCount)
    (hnext : (pooled P V W noop).next σ (t, m) = some σ') (p : MetaPtr) :
    (0 < σ.refCount p ∧ σ'.refCount p = 0 ↔ σ.freeing t ≠ some p ∧ σ'.freeing t = some p) ∧
      (σ.taken p = true ∧ σ'.taken p = false ↔ m = .free ∧ σ.freeing t = some p) := by
  cases m with
  | act a =>
    obtain ⟨hfree, -, hdeque, htaken, hfreeing⟩ := pooled_act hnext
    have htouched := act_touched halive (threads_next.mp hdeque).1
    refine ⟨?_, ?_⟩
    · rw [hfreeing, Function.update_self, Pooled.lastRef_eq_some, hfree]
      refine (htouched.gone_iff p).trans ?_
      exact ⟨fun hlast => ⟨nofun, hlast⟩, And.right⟩
    · refine ⟨fun ⟨hin, hout⟩ => ?_, fun ⟨hm, _⟩ => by cases hm⟩
      rw [htaken] at hout
      cases ha : creates a with
      | none =>
        rw [ha] at hout
        rw [show σ.taken p = false from hout] at hin
        cases hin
      | some q =>
        rw [ha, Option.elim_some, Function.update_apply] at hout
        split at hout
        · cases hout
        · rw [hout] at hin
          cases hin
  | free =>
    obtain ⟨q, hq, hdeque, htaken, hfreeing⟩ := pooled_free hnext
    refine ⟨?_, ?_⟩
    · rw [hfreeing, Function.update_self, Pooled.refCount, Pooled.refCount, hdeque]
      constructor
      · rintro ⟨hpos, hzero⟩
        omega
      · rintro ⟨-, hnone⟩
        cases hnone
    · rw [htaken, hq, Function.update_apply, Option.some.injEq]
      constructor
      · rintro ⟨hin, hout⟩
        split at hout
        next heq => exact ⟨rfl, heq.symm⟩
        next =>
          rw [hout] at hin
          cases hin
      · rintro ⟨-, rfl⟩
        exact ⟨(h.taken q).mpr (Or.inr ⟨t, hq⟩), if_pos rfl⟩

/-- **The metadata is released once, with its last reference.** -/
theorem metadata_accounted {noop : P} {q : Pooled P V W × Ledger}
    (h : ((pooled P V W noop).observe ledger).Reachable q) : Accounted noop q.1 q.2 := by
  obtain ⟨hcounted, hknown⟩ := reachable_known (reachable_deque h)
  have hsound := reachable_poolSound h
  have hcount : ∀ p, q.1.refCount p = q.1.liveWakers p + q.1.slotRefs p := by
    intro p
    have hall := hcounted.count p
    rw [(hknown none).known.leaving rfl, Pc.leaving_count] at hall
    rw [Pooled.refCount, hall, Pooled.liveWakers, Pooled.slotRefs]
    omega
  refine ⟨hcount, fun p => ?_, fun p => ?_, hsound.once, fun t m σ' hnext p => ?_,
    fun t p hp => ⟨(hsound.last t p hp).2, ?_⟩, fun t p hp => ?_⟩
  · have hone := List.nodup_iff_count.mp hcounted.distinct p
    rw [Pooled.slotRefs]
    split
    next hold =>
      have hzero := List.count_eq_zero.mpr ((hknown none).oldSlot rfl p hold)
      omega
    next => exact hone
  · rw [hsound.taken p, hcount p]
  · exact hsound.next_iff hcounted.alive hnext p
  · refine ⟨_, by rw [pooled]; dsimp only; rw [hp]; rfl, fun m hm => ?_⟩
    cases m with
    | free => exact absurd rfl hm
    | act a =>
      rw [pooled]
      dsimp only
      rw [if_neg fun hfree => ?_]
      rw [hp] at hfree
      cases hfree.1
  · have hpos := (hknown t).refs_pos hcounted hp
    exact ⟨(hsound.taken p).mpr (Or.inl hpos), hpos⟩

end Runs

/-- A future hands a clone of its waker to thread 1 and is pending. The deque
is dropped, and then the clone. -/
def outlives : List (Option Nat × Move (Call Nat Nat)) :=
  [(none, Move.act (.call (Call.push .back 10))), (none, .act (.call (.poll 1)))] ++
    List.replicate 3 (none, Move.act .step) ++
    [(some 1, Move.act (.call (Call.cloneWaker 10))), (some 1, .act .step),
      (none, .act (.call (.polled .pending))), (none, .act .step), (none, .act (.call .drop))] ++
    List.replicate 4 (none, Move.act .step) ++
    [(some 1, Move.act (.call (Call.dropWaker 10))), (some 1, .act .step)]

/-- The thread that drops the clone finds the last reference. -/
theorem metadata_accounted_outlives :
    ∃ q, ((pooled Nat Nat Nat 0).observe ledger).run outlives = some q ∧
      q.1.refCount 10 = 0 ∧ q.1.taken 10 = true ∧ q.1.freeing (some 1) = some 10 ∧
      Accounted 0 q.1 q.2 := by
  obtain ⟨q, hrun, hcount, htaken, hfreeing⟩ :
      ∃ q, ((pooled Nat Nat Nat 0).observe ledger).run outlives = some q ∧
        q.1.refCount 10 = 0 ∧ q.1.taken 10 = true ∧ q.1.freeing (some 1) = some 10 :=
    ⟨_, rfl, by decide, by decide, by decide⟩
  exact ⟨q, hrun, hcount, htaken, hfreeing, metadata_accounted (Machine.reachable_of_run hrun)⟩

end Folo.FutureDeque
