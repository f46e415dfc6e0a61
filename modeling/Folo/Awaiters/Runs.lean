import Folo.Awaiters.Queue
import Folo.Lib.Machine
import Mathlib.Algebra.Group.Nat.Defs

/-!
# The list invariant of `AwaiterSet` over whole runs

A run is any sequence of set operations, used as their contracts require,
over any number of awaiters, together with what the owning futures do to
their awaiters: being created and consuming a notification. The `joins`
monitor records when each awaiter last joined the set, so that the order of
the list can be compared with the order of joining, and how often the
generation was advanced.

The links, the membership and the wakers are right in every reachable state.
The generations are sorted as long as the 64-bit counter has not wrapped. It
starts at 1, so the last advance that keeps it monotone is number
`2 ^ 64 - 2`: one more and it is 0, and the next awaiter to join is stamped
below every awaiter that already waits (`generations_wrap`).
-/

namespace Folo.Awaiters

open Folo.Lib

variable {W : Type}

/-- One call of the set's interface, or of the awaiter's by its owner. -/
inductive Op (W : Type)
  | create (p : Ptr)
  | register (p : Ptr) (waker : W)
  | unregister (p : Ptr)
  | notifyOne
  | notifyOnePriorGeneration
  | advanceGeneration
  | takeNotification (p : Ptr)

namespace Op

/-- What the documentation asks of a caller: a notification is consumed
before the awaiter is registered again, only a registered awaiter is
unregistered, and the memory of an awaiter is not reused while it is linked
("the awaiter must remain pinned and valid until it is removed"). -/
def Allowed (st : Store W) : Op W → Prop
  | create p => st.phase p ≠ .waiting
  | register p _ => st.phase p ≠ .notified
  | unregister p => st.phase p ≠ .idle
  | _ => True

instance (st : Store W) (op : Op W) : Decidable (op.Allowed st) := by
  cases op <;> unfold Allowed <;> infer_instance

/-- The operation itself; what it returns besides the new state is dropped. -/
def apply (debug : Bool) (st : Store W) : Op W → Except Fault (Store W)
  | create p => .ok (st.create p)
  | register p w => st.register debug p w
  | unregister p => st.unregister debug p
  | notifyOne => (st.notifyOne debug).map Prod.snd
  | notifyOnePriorGeneration => (st.notifyOnePriorGeneration debug).map Prod.snd
  | advanceGeneration => .ok st.advanceGeneration
  | takeNotification p => .ok (st.takeNotification p).2

/-- The awaiter an operation is called on. -/
def subject : Op W → Option Ptr
  | create p | register p _ | unregister p | takeNotification p => some p
  | notifyOne | notifyOnePriorGeneration | advanceGeneration => none

/-- The operations that pick an awaiter of the set and notify it. -/
def notifies : Op W → Bool
  | notifyOne | notifyOnePriorGeneration => true
  | _ => false

/-- How often an operation advances the generation. -/
def advances : Op W → Nat
  | advanceGeneration => 1
  | _ => 0

end Op

/-- The set with its awaiters as a machine over calls that respect the
contracts. -/
def setMachine (W : Type) (debug : Bool) (setId : Nat) : Machine (Store W) (Op W) where
  init := Store.new setId
  next st op := if op.Allowed st then (op.apply debug st).toOption else none

/-- What the run has done: its length, when each awaiter last joined the set,
and the number of generation advances. -/
structure Joins where
  clock : Nat
  joinedAt : Ptr → Nat
  advances : Nat

def joins : Machine.Monitor (Store W) (Op W) Joins where
  start := { clock := 0, joinedAt := fun _ => 0, advances := 0 }
  update m st op _ :=
    { clock := m.clock + 1
      joinedAt := match op with
        | .register p _ =>
          if st.phase p = .waiting then m.joinedAt else Function.update m.joinedAt p m.clock
        | _ => m.joinedAt
      advances := m.advances + op.advances }

/-- The documented list invariant, for the list `l` of linked awaiters. -/
structure ListInvariant (st : Store W) (joinedAt : Ptr → Nat) (l : List Ptr) : Prop where
  /-- The links lead through exactly `l`, each awaiter once. -/
  links : st.links.Holds l
  /-- The linked awaiters are the waiting ones. -/
  waiting : ∀ a, st.phase a = .waiting ↔ a ∈ l
  /-- They stand in the order in which they joined. -/
  order : l.Pairwise fun a b => joinedAt a < joinedAt b
  /-- `prev` and `next` are mutually inverse. -/
  inverse : ∀ a ∈ l, ∀ b ∈ l, st.links.next a = some b ↔ st.links.prev b = some a
  /-- The awaiter without predecessor is the head, that without successor
  the tail. -/
  ends : ∀ a ∈ l, (st.links.prev a = none ↔ st.set.head = some a) ∧
    (st.links.next a = none ↔ st.set.tail = some a)
  /-- Every linked awaiter holds a waker. -/
  waker : ∀ a ∈ l, st.waker a ≠ none
  /-- The recorded generations do not decrease from head to tail. -/
  sorted : l.Pairwise fun a b => st.stamp a ≤ st.stamp b

/-! ## One step -/

/-- What one operation does to the queue `l`: it stays, an awaiter that was
not waiting joins it at the end, stamped with the current generation, or a
queued awaiter leaves it. -/
inductive Moved (st st' : Store W) (l : List Ptr) : Op W → List Ptr → Prop
  | stays {op : Op W} (hreg : ∀ p w, op = .register p w → st.phase p = .waiting) :
      Moved st st' l op l
  | joins {p : Ptr} {w : W} (hph : st.phase p ≠ .waiting) (hp : p ∉ l)
      (hstamp : st'.stamp p = st.set.generation) : Moved st st' l (.register p w) (l ++ [p])
  | leaves {op : Op W} {p : Ptr} (hreg : ∀ q w, op ≠ .register q w) (hp : p ∈ l) :
      Moved st st' l op (l.erase p)

/-- Everything an operation that respects its contract does: it returns, in
either build, and the queue moves as `Moved` says while the stamps of the
awaiters that were in it stay. An awaiter it was not called on keeps its
phase, unless it is the one that is notified. -/
structure Effect (debug : Bool) (st : Store W) (l : List Ptr) (op : Op W) (st' : Store W)
    (l' : List Ptr) : Prop where
  returns : op.apply debug st = .ok st'
  queue : Queue st' l'
  moved : Moved st st' l op l'
  stamp : ∀ a ∈ l, a ∈ l' → st'.stamp a = st.stamp a
  generation : st'.set.generation = st.set.generation + BitVec.ofNat 64 op.advances
  phase : ∀ q, op.subject ≠ some q → st'.phase q = st.phase q ∨
    op.notifies = true ∧ st.phase q = .waiting ∧ st'.phase q = .notified
  subject : ∀ q, op.subject = some q → st'.phase q = .notified → st.phase q = .notified
  prior : op = .notifyOnePriorGeneration → ∀ q, st.phase q = .waiting →
    st'.phase q ≠ .waiting → st.stamp q < st.set.generation

/-- An operation without any effect on the store. -/
theorem Effect.refl {debug : Bool} {st : Store W} {l : List Ptr} {op : Op W} (h : Queue st l)
    (hr : op.apply debug st = .ok st) (hadv : op.advances = 0)
    (hreg : ∀ p w, op = .register p w → st.phase p = .waiting) : Effect debug st l op st l :=
  ⟨hr, h, .stays hreg, fun _ _ _ => rfl, by rw [hadv]; exact (BitVec.add_zero _).symm,
    fun _ _ => Or.inl rfl, fun _ _ => id, fun _ _ hw hn => absurd hw hn⟩

/-- An operation that takes a queued awaiter out. -/
theorem Effect.leave {debug : Bool} {st st' : Store W} {l : List Ptr} {op : Op W} {p : Ptr}
    (h : Queue st l) (hp : p ∈ l) (hr : op.apply debug st = .ok st')
    (hq : Queue st' (l.erase p)) (hf : Frame p st st') (hadv : op.advances = 0)
    (hreg : ∀ q w, op ≠ .register q w)
    (hph : op.subject = some p ∧ st'.phase p = .idle ∨
      op.subject = none ∧ op.notifies = true ∧ st'.phase p = .notified)
    (hprior : op = .notifyOnePriorGeneration → st.stamp p < st.set.generation) :
    Effect debug st l op st' (l.erase p) := by
  refine ⟨hr, hq, .leaves hreg hp, fun a _ ha => hf.stamp a ?_, ?_, fun q hsub => ?_,
    fun q hsub hn => ?_, fun he q hw hn => ?_⟩
  · intro e
    rw [e] at ha
    exact h.nodup.not_mem_erase ha
  · rw [hadv, hf.generation]
    exact (BitVec.add_zero _).symm
  · by_cases hqp : q = p
    · subst hqp
      obtain ⟨-, hn, hq'⟩ := hph.resolve_left fun e => hsub e.1
      exact Or.inr ⟨hn, (h.waiting q).mpr hp, hq'⟩
    · exact Or.inl (hf.phase q hqp)
  · rcases hph with ⟨hsub', hidle⟩ | ⟨hsub', -⟩
    · obtain rfl := Option.some.inj (hsub'.symm.trans hsub)
      rw [hidle] at hn
      cases hn
    · rw [hsub'] at hsub
      cases hsub
  · by_cases hqp : q = p
    · rw [hqp]
      exact hprior he
    · exact absurd ((hf.phase q hqp).trans hw) hn

theorem Op.effect (debug : Bool) {st : Store W} {l : List Ptr} (h : Queue st l) {op : Op W}
    (hop : op.Allowed st) : ∃ st' l', Effect debug st l op st' l' := by
  cases op with
  | create p =>
    have hpl : p ∉ l := fun hm => hop ((h.waiting p).mpr hm)
    refine ⟨_, l, rfl, h.create hop, .stays (fun _ _ e => nomatch e), fun a ha _ => ?_,
      (BitVec.add_zero _).symm, fun q hq => Or.inl ?_, fun q hq hn => ?_, nofun⟩
    · exact (create_frame st p).stamp a (fun e => hpl (e ▸ ha))
    · exact (create_frame st p).phase q (fun e => hq (congrArg some e.symm))
    · cases hq
      rw [create_phase] at hn
      cases hn
  | register p w =>
    cases hph : st.phase p with
    | idle =>
      obtain ⟨st', hst, hq, hf, hstamp, -⟩ := h.register_idle hph debug w
      have hwait : st'.phase p = .waiting :=
        (hq.waiting p).mpr (List.mem_append_right _ (List.mem_singleton_self p))
      have hnw : st.phase p ≠ .waiting := by rw [hph]; decide
      have hpl : p ∉ l := fun hm => hnw ((h.waiting p).mpr hm)
      refine ⟨st', _, hst, hq, .joins hnw hpl hstamp, fun a ha _ => ?_, ?_,
        fun q hq => Or.inl (hf.phase q (fun e => hq (congrArg some e.symm))), fun q hsub hn => ?_,
        nofun⟩
      · exact hf.stamp a (fun e => hpl (e ▸ ha))
      · rw [hf.generation]
        exact (BitVec.add_zero _).symm
      · cases hsub
        exact absurd (hwait.symm.trans hn) (by decide)
    | waiting =>
      obtain ⟨st', hst, hq, hf, hstamp, -⟩ := h.register_waiting hph debug w
      have hwait : st'.phase p = .waiting := (hq.waiting p).mpr ((h.waiting p).mp hph)
      refine ⟨st', l, hst, hq, .stays (fun p' w' e => ?_), fun a _ _ => ?_, ?_,
        fun q hq => Or.inl (hf.phase q (fun e => hq (congrArg some e.symm))), fun q hsub hn => ?_,
        nofun⟩
      · injection e with e₁
        rw [← e₁]
        exact hph
      · by_cases hap : a = p
        · rw [hap, hstamp]
        · exact hf.stamp a hap
      · rw [hf.generation]
        exact (BitVec.add_zero _).symm
      · cases hsub
        exact absurd (hwait.symm.trans hn) (by decide)
    | notified => exact absurd hph hop
  | unregister p =>
    cases hph : st.phase p with
    | idle => exact absurd hph hop
    | waiting =>
      obtain ⟨st', hst, hq, hf, hidle⟩ := h.unregister_waiting hph debug
      exact ⟨st', _, .leave h ((h.waiting p).mp hph) hst hq hf rfl (fun _ _ e => nomatch e)
        (Or.inl ⟨rfl, hidle⟩) nofun⟩
    | notified =>
      exact ⟨st, l, .refl h (unregister_notified hph debug) rfl (fun _ _ e => nomatch e)⟩
  | notifyOne =>
    by_cases hl : l = []
    · subst hl
      have hr : Op.notifyOne.apply debug st = .ok st := by
        rw [Op.apply, h.notifyOne_nil debug]
        rfl
      exact ⟨st, [], .refl h hr rfl (fun _ _ e => nomatch e)⟩
    · obtain ⟨p, hp, w, st', hst, -, hq, hf, hph, -⟩ := h.notifyOne_cons hl debug
      have hr : Op.notifyOne.apply debug st = .ok st' := by
        rw [Op.apply, hst]
        rfl
      exact ⟨st', _, .leave h hp hr hq hf rfl (fun _ _ e => nomatch e)
        (Or.inr ⟨rfl, rfl, hph⟩) nofun⟩
  | notifyOnePriorGeneration =>
    cases l with
    | nil =>
      have hr : Op.notifyOnePriorGeneration.apply debug st = .ok st := by
        rw [Op.apply, h.notifyOnePriorGeneration_nil debug]
        rfl
      exact ⟨st, [], .refl h hr rfl (fun _ _ e => nomatch e)⟩
    | cons p l =>
      by_cases hlt : st.stamp p < st.set.generation
      · obtain ⟨w, st', hst, -, hq, hf, hph⟩ := h.notifyOnePriorGeneration_prior hlt debug
        have hr : Op.notifyOnePriorGeneration.apply debug st = .ok st' := by
          rw [Op.apply, hst]
          rfl
        rw [← List.erase_cons_head p l] at hq
        exact ⟨st', _, .leave h (List.mem_cons_self ..) hr hq hf rfl (fun _ _ e => nomatch e)
          (Or.inr ⟨rfl, rfl, hph⟩) fun _ => hlt⟩
      · have hr : Op.notifyOnePriorGeneration.apply debug st = .ok st := by
          rw [Op.apply, h.notifyOnePriorGeneration_current (BitVec.not_lt.mp hlt) debug]
          rfl
        exact ⟨st, _, .refl h hr rfl (fun _ _ e => nomatch e)⟩
  | advanceGeneration =>
    exact ⟨_, l, rfl, h.advanceGeneration, .stays (fun _ _ e => nomatch e), fun _ _ _ => rfl, rfl,
      fun _ _ => Or.inl rfl, nofun, nofun⟩
  | takeNotification p =>
    obtain ⟨hset, hinner, -⟩ := takeNotification_snd st p
    refine ⟨_, l, rfl, h.takeNotification p, .stays (fun _ _ e => nomatch e), fun a _ _ => ?_, ?_,
      fun q hq => Or.inl ?_, fun q hsub hn => ?_, nofun⟩
    · rw [Store.stamp, Store.stamp, hinner a]
    · rw [hset]
      exact (BitVec.add_zero _).symm
    · exact (takeNotification_frame st p).phase q (fun e => hq (congrArg some e.symm))
    · cases hsub
      exact absurd hn (takeNotification_phase_ne st p)

/-- Only a registration makes an empty set non-empty. -/
theorem Effect.isEmpty {debug : Bool} {st st' : Store W} {l l' : List Ptr} {op : Op W}
    (h : Effect debug st l op st' l') (hq : Queue st l) (hreg : ∀ p w, op ≠ .register p w)
    (he : st.set.isEmpty = true) : st'.set.isEmpty = true := by
  obtain rfl := hq.isEmpty_iff.mp he
  refine h.queue.isEmpty_iff.mpr ?_
  cases h.moved with
  | stays => rfl
  | @joins p w => exact absurd rfl (hreg p w)
  | leaves _ hp => cases hp

/-- The new queue is part of the old one, possibly with one awaiter appended:
a relation between any two of its members follows from one between any two
old members and one between an old and a new member. -/
theorem Moved.pairwise {st st' : Store W} {l l' : List Ptr} {op : Op W}
    (h : Moved st st' l op l') {R R' : Ptr → Ptr → Prop} (hl : l.Pairwise R)
    (hkeep : ∀ a ∈ l, ∀ b ∈ l, a ∈ l' → b ∈ l' → R a b → R' a b)
    (hnew : ∀ a ∈ l, ∀ b ∈ l', b ∉ l → a ∈ l' → R' a b) : l'.Pairwise R' := by
  cases h with
  | stays => exact hl.imp_of_mem fun ha hb hab => hkeep _ ha _ hb ha hb hab
  | @joins p w hph hp hstamp =>
    rw [List.pairwise_append]
    refine ⟨hl.imp_of_mem fun ha hb hab => ?_, List.pairwise_singleton R' p, fun a ha b hb => ?_⟩
    · exact hkeep _ ha _ hb (List.mem_append_left _ ha) (List.mem_append_left _ hb) hab
    · obtain rfl := List.mem_singleton.mp hb
      exact hnew a ha b (List.mem_append_right _ hb) hp (List.mem_append_left _ ha)
  | leaves hreg hp =>
    refine (hl.sublist List.erase_sublist).imp_of_mem fun ha hb hab => ?_
    exact hkeep _ (List.mem_of_mem_erase ha) _ (List.mem_of_mem_erase hb) ha hb hab

/-- An awaiter that joins is being registered, and stamped with the current
generation. -/
theorem Moved.stamp_new {st st' : Store W} {l l' : List Ptr} {op : Op W}
    (h : Moved st st' l op l') {a : Ptr} (ha : a ∈ l') (hal : a ∉ l) :
    st'.stamp a = st.set.generation ∧ ∃ w, op = .register a w := by
  cases h with
  | stays => exact absurd ha hal
  | joins hph hq hst =>
    rcases List.mem_append.mp ha with hl | hl
    · exact absurd hl hal
    · rw [List.mem_singleton.mp hl]
      exact ⟨hst, _, rfl⟩
  | leaves hreg hq => exact absurd (List.mem_of_mem_erase ha) hal

/-- What a call does to the single awaiters: those that go on waiting keep
their stamp, one that joins is registered and stamped with the current
generation, one that is notified was waiting; and only `advance_generation`
changes the generation. -/
structure Moves (o : Option (Op W)) (st st' : Store W) : Prop where
  stamp : ∀ f, st.phase f = .waiting → st'.phase f = .waiting → st'.stamp f = st.stamp f
  joined : ∀ f, st.phase f ≠ .waiting → st'.phase f = .waiting →
    st'.stamp f = st.set.generation ∧ ∃ w, o = some (.register f w)
  notified : ∀ f, st.phase f ≠ .notified → st'.phase f = .notified →
    st.phase f = .waiting ∧ ∃ op, o = some op ∧ op.notifies = true ∧
      (op = .notifyOnePriorGeneration → st.stamp f < st.set.generation)
  generation : o ≠ some .advanceGeneration → st'.set.generation = st.set.generation

theorem Moves.refl (st : Store W) : Moves none st st :=
  ⟨fun _ _ _ => rfl, fun _ hn hw => absurd hw hn, fun _ hn hw => absurd hw hn, fun _ => rfl⟩

theorem Effect.moves {debug : Bool} {st st' : Store W} {l l' : List Ptr} {op : Op W}
    (h : Effect debug st l op st' l') (hq : Queue st l) : Moves (some op) st st' := by
  refine ⟨fun f hw hw' => ?_, fun f hn hw => ?_, fun f hn hw => ?_, fun hadv => ?_⟩
  · exact h.stamp f ((hq.waiting f).mp hw) ((h.queue.waiting f).mp hw')
  · have hl : f ∉ l := fun hm => hn ((hq.waiting f).mpr hm)
    obtain ⟨hst, w, rfl⟩ := h.moved.stamp_new ((h.queue.waiting f).mp hw) hl
    exact ⟨hst, w, rfl⟩
  · by_cases hsub : op.subject = some f
    · exact absurd (h.subject f hsub hw) hn
    · rcases h.phase f hsub with hsame | ⟨hnot, hwait, -⟩
      · exact absurd (hsame.symm.trans hw) hn
      · refine ⟨hwait, op, rfl, hnot, fun hprior => h.prior hprior f hwait ?_⟩
        intro hw'
        exact absurd (hw.symm.trans hw') (by decide)
  · have h0 : op.advances = 0 := by
      cases op with
      | advanceGeneration => exact absurd rfl hadv
      | _ => rfl
    rw [h.generation, h0]
    exact BitVec.add_zero _

/-- The stamps do not decrease along the queue, and none is ahead of the
current generation. -/
structure Sorted (st : Store W) (l : List Ptr) : Prop where
  stamps : l.Pairwise fun a b => st.stamp a ≤ st.stamp b
  bound : ∀ a ∈ l, st.stamp a ≤ st.set.generation

/-- The queue stays sorted unless the generation wraps while it is not
empty. -/
theorem Effect.sorted {debug : Bool} {st st' : Store W} {l l' : List Ptr} {op : Op W}
    (h : Effect debug st l op st' l') (hs : Sorted st l)
    (hmono : l ≠ [] → st.set.generation ≤ st'.set.generation) : Sorted st' l' := by
  have hgen : op.advances = 0 → st'.set.generation = st.set.generation := by
    intro h0
    rw [h.generation, h0]
    exact BitVec.add_zero _
  constructor
  · refine h.moved.pairwise hs.stamps (fun a ha b hb ha' hb' hab => ?_) (fun a ha b hb hbl ha' => ?_)
    · rw [h.stamp a ha ha', h.stamp b hb hb']
      exact hab
    · rw [h.stamp a ha ha', (h.moved.stamp_new hb hbl).1]
      exact hs.bound a ha
  · intro a ha
    by_cases hal : a ∈ l
    · rw [h.stamp a hal ha]
      exact BitVec.le_trans (hs.bound a hal) (hmono (List.ne_nil_of_mem hal))
    · obtain ⟨hstamp, w, rfl⟩ := h.moved.stamp_new ha hal
      rw [hstamp, hgen rfl]
      exact BitVec.le_refl _

/-- When `notify_one_prior_generation` finds nothing in a sorted queue, no
awaiter of a prior generation is left. -/
theorem Sorted.notify_none {debug : Bool} {st st' : Store W} {l : List Ptr} (hq : Queue st l)
    (hs : Sorted st l) (h : st.notifyOnePriorGeneration debug = .ok (none, st')) :
    st' = st ∧ ∀ a ∈ l, st.set.generation ≤ st.stamp a := by
  cases l with
  | nil =>
    rw [hq.notifyOnePriorGeneration_nil debug] at h
    cases h
    exact ⟨rfl, fun a ha => absurd ha List.not_mem_nil⟩
  | cons p l =>
    by_cases hlt : st.stamp p < st.set.generation
    · obtain ⟨w, st₁, hst, -⟩ := hq.notifyOnePriorGeneration_prior hlt debug
      rw [hst] at h
      cases h
    · have hle := BitVec.not_lt.mp hlt
      rw [hq.notifyOnePriorGeneration_current hle debug] at h
      cases h
      refine ⟨rfl, fun a ha => ?_⟩
      rcases List.mem_cons.mp ha with rfl | ha
      · exact hle
      · exact BitVec.le_trans hle ((List.pairwise_cons.mp hs.stamps).1 a ha)

/-! ## Whole runs -/

/-- The run invariant. The order and the links hold throughout; the counter
is `1 + advances` modulo `2 ^ 64`, and until it wraps the stamps are sorted
and not above it. -/
structure RunInv (p : Store W × Joins) (l : List Ptr) : Prop where
  queue : Queue p.1 l
  order : l.Pairwise fun a b => p.2.joinedAt a < p.2.joinedAt b
  joined : ∀ a ∈ l, p.2.joinedAt a < p.2.clock
  counter : p.1.set.generation = BitVec.ofNat 64 (1 + p.2.advances)
  sorted : p.2.advances < 2 ^ 64 - 1 → Sorted p.1 l

theorem runInv_init (debug : Bool) (setId : Nat) :
    RunInv ((setMachine W debug setId).observe joins).init [] := by
  refine ⟨queue_new setId, List.Pairwise.nil, fun a ha => ?_, rfl, fun _ => ⟨.nil, fun a ha => ?_⟩⟩
  · exact absurd ha List.not_mem_nil
  · exact absurd ha List.not_mem_nil

/-- A step of the machine is an operation that respects its contract. -/
theorem setMachine_next {debug : Bool} {setId : Nat} {st st' : Store W} {op : Op W} :
    (setMachine W debug setId).next st op = some st' ↔
      op.Allowed st ∧ op.apply debug st = .ok st' := by
  simp only [setMachine]
  split
  next hop =>
    cases op.apply debug st with
    | error e => simp [hop, Except.toOption]
    | ok st'' => simp [hop, Except.toOption]
  next hop => simp [hop]

/-- The awaiter that joins gets the clock, every other keeps its time. -/
theorem joins_joinedAt {m : Joins} {st st' : Store W} {l l' : List Ptr} {op : Op W}
    (h : Moved st st' l op l') :
    (∀ a ∈ l, (joins.update m st op st').joinedAt a = m.joinedAt a) ∧
    ∀ a ∈ l', a ∉ l → (joins.update m st op st').joinedAt a = m.clock := by
  cases h with
  | stays hreg =>
    refine ⟨fun a _ => ?_, fun a ha hn => absurd ha hn⟩
    cases op with
    | register p w =>
      have hp : st.phase p = .waiting := hreg p w rfl
      simp only [joins, if_pos hp]
    | _ => rfl
  | @joins p w hph hp hstamp =>
    simp only [joins, if_neg hph]
    refine ⟨fun a ha => ?_, fun a ha hn => ?_⟩
    · have hap : a ≠ p := fun e => hp (e ▸ ha)
      exact Function.update_of_ne hap ..
    · have hap : a = p := by
        rcases List.mem_append.mp ha with hl | hl
        · exact absurd hl hn
        · exact List.mem_singleton.mp hl
      rw [hap, Function.update_self]
  | leaves hreg hp =>
    refine ⟨fun a _ => ?_, fun a ha hn => absurd (List.mem_of_mem_erase ha) hn⟩
    cases op with
    | register p w => exact absurd rfl (hreg p w)
    | _ => rfl

theorem runInv_step {debug : Bool} {setId : Nat} {p p' : Store W × Joins} {op : Op W}
    {l : List Ptr} (h : RunInv p l)
    (hs : ((setMachine W debug setId).observe joins).next p op = some p') :
    ∃ l', RunInv p' l' := by
  obtain ⟨hnext, hmon⟩ := Machine.observe_next.mp hs
  obtain ⟨hop, happ⟩ := setMachine_next.mp hnext
  obtain ⟨st', l', he⟩ := op.effect debug h.queue hop
  obtain rfl : st' = p'.1 := by
    have heq := he.returns.symm.trans happ
    injection heq
  obtain ⟨hold, hnew⟩ := joins_joinedAt (m := p.2) he.moved
  have hclock : p'.2.clock = p.2.clock + 1 := by rw [hmon]; rfl
  have hadv : p'.2.advances = p.2.advances + op.advances := by rw [hmon]; rfl
  rw [← hmon] at hold hnew
  refine ⟨l', he.queue, ?_, fun a ha => ?_, ?_, fun hlt => ?_⟩
  · -- an awaiter that joins does so after everyone in the queue
    refine he.moved.pairwise h.order (fun a ha b hb _ _ hab => ?_) (fun a ha b hb hbl _ => ?_)
    · rw [hold a ha, hold b hb]
      exact hab
    · rw [hold a ha, hnew b hb hbl]
      exact h.joined a ha
  · rw [hclock]
    by_cases hal : a ∈ l
    · rw [hold a hal]
      exact Nat.lt_succ_of_lt (h.joined a hal)
    · rw [hnew a ha hal]
      exact Nat.lt_succ_self _
  · rw [he.generation, h.counter, hadv, ← Nat.add_assoc, ← BitVec.ofNat_add]
  · -- no wrap yet: the counter has not decreased
    refine he.sorted (h.sorted (by omega)) fun _ => ?_
    rw [he.generation, h.counter, ← BitVec.ofNat_add, BitVec.le_def, BitVec.toNat_ofNat,
      BitVec.toNat_ofNat, Nat.mod_eq_of_lt (by omega), Nat.mod_eq_of_lt (by omega)]
    omega

/-- Every run keeps the run invariant. -/
theorem runInv_reachable {debug : Bool} {setId : Nat} {p : Store W × Joins}
    (h : ((setMachine W debug setId).observe joins).Reachable p) : ∃ l, RunInv p l := by
  refine h.invariant (I := fun p => ∃ l, RunInv p l) ⟨[], runInv_init debug setId⟩ ?_
  rintro q op q' - ⟨l, hl⟩ - hs
  exact runInv_step hl hs

/-- What the run invariant says in the terms of the documentation. -/
theorem RunInv.listInvariant {p : Store W × Joins} {l : List Ptr} (h : RunInv p l)
    (hadv : p.2.advances < 2 ^ 64 - 1) : ListInvariant p.1 p.2.joinedAt l where
  links := h.queue.links
  waiting := h.queue.waiting
  order := h.order
  inverse := fun _ ha _ hb => h.queue.links.next_eq_some_iff ha hb
  ends := fun _ ha => ⟨h.queue.links.prev_eq_none_iff ha, h.queue.links.next_eq_none_iff ha⟩
  waker := h.queue.waker
  sorted := (h.sorted hadv).stamps

/-- **The list invariant of `AwaiterSet`**: in every run with fewer than
`2 ^ 64 - 1` generation advances the linked list is exactly the waiting
awaiters in the order in which they joined, with inverse links, wakers and
sorted generations, and every operation used as its contract requires
returns, so the `expect` of `remove` is never reached without a waker. -/
theorem setMachine_listInvariant {debug : Bool} {setId : Nat} {p : Store W × Joins}
    (h : ((setMachine W debug setId).observe joins).Reachable p)
    (hadv : p.2.advances < 2 ^ 64 - 1) :
    (∃ l, ListInvariant p.1 p.2.joinedAt l) ∧
      ∀ op : Op W, op.Allowed p.1 → ∃ st', op.apply debug p.1 = .ok st' := by
  obtain ⟨l, hl⟩ := runInv_reachable h
  refine ⟨⟨l, hl.listInvariant hadv⟩, fun op hop => ?_⟩
  obtain ⟨st', l', he⟩ := op.effect debug hl.queue hop
  exact ⟨st', he.returns⟩

/-- Two awaiters wait, the first is registered again behind the second and a
generation is opened: the run and its invariant. -/
theorem setMachine_listInvariant_reregister :
    ∃ p, ((setMachine Nat false 1).observe joins).run
        [.register 8 0, .register 16 1, .advanceGeneration, .register 8 2] = some p ∧
      (∃ l, ListInvariant p.1 p.2.joinedAt l) ∧
      ∀ op : Op Nat, op.Allowed p.1 → ∃ st', op.apply false p.1 = .ok st' := by
  obtain ⟨p, hrun, hadv⟩ : ∃ p, ((setMachine Nat false 1).observe joins).run
      [.register 8 0, .register 16 1, .advanceGeneration, .register 8 2] = some p ∧
      p.2.advances < 2 ^ 64 - 1 := ⟨_, rfl, by decide⟩
  exact ⟨p, hrun, setMachine_listInvariant (Machine.reachable_of_run hrun) hadv⟩

/-! ## The counter wraps -/

/-- The state after `n` advances of an empty set. -/
theorem advances_reachable (n : Nat) :
    ((setMachine Nat false 1).observe joins).Reachable
      ({ set := { head := none, tail := none, generation := BitVec.ofNat 64 (1 + n), setId := 1 }
         mem := fun _ => Awaiter.new },
       { clock := n, joinedAt := fun _ => 0, advances := n }) := by
  induction n with
  | zero => exact Machine.Reachable.init _
  | succ n ih =>
    refine ih.step (l := Op.advanceGeneration) (Machine.observe_next.mpr ⟨?_, rfl⟩)
    refine setMachine_next.mpr ⟨trivial, ?_⟩
    simp only [Op.apply, Store.advanceGeneration, ← Nat.add_assoc, BitVec.ofNat_add]
    rfl

/-- **The bound cannot be `2 ^ 64`**: after `2 ^ 64 - 1` advances an awaiter
that joined before the last of them is stamped `2 ^ 64 - 1` and one that
joins after it is stamped 0, behind the first. -/
theorem generations_wrap :
    ¬ ∀ p, ((setMachine Nat false 1).observe joins).Reachable p → p.2.advances < 2 ^ 64 →
      ∃ l, ListInvariant p.1 p.2.joinedAt l := by
  intro hall
  obtain ⟨p, hrun, hp⟩ : ∃ p, ((setMachine Nat false 1).observe joins).runFrom
      ({ set := { head := none, tail := none, generation := BitVec.ofNat 64 (1 + (2 ^ 64 - 2)),
                  setId := 1 }
         mem := fun _ => Awaiter.new },
       { clock := 2 ^ 64 - 2, joinedAt := fun _ => 0, advances := 2 ^ 64 - 2 })
      [.register 8 0, .advanceGeneration, .register 16 1] = some p ∧
      p.2.advances = 2 ^ 64 - 1 ∧ p.1.set.head = some 8 ∧ p.1.phase 16 = .waiting ∧
      p.1.stamp 8 = BitVec.ofNat 64 (2 ^ 64 - 1) ∧ p.1.stamp 16 = 0 :=
    ⟨_, rfl, by decide, by decide, by decide, by decide, by decide⟩
  obtain ⟨hadv, hhead, hwait, h8, h16⟩ := hp
  obtain ⟨l, hl⟩ := hall p ((advances_reachable (2 ^ 64 - 2)).runFrom _ hrun) (by rw [hadv]; decide)
  have hmem : 16 ∈ l := (hl.waiting 16).mp hwait
  have hfirst : l.head? = some 8 := hl.links.head.symm.trans hhead
  cases l with
  | nil => cases hmem
  | cons a l =>
    obtain rfl : a = 8 := by simpa using hfirst
    have hmem' : 16 ∈ l := by simpa using hmem
    have hle := (List.pairwise_cons.mp hl.sorted).1 16 hmem'
    rw [h8, h16] at hle
    exact absurd hle (by decide)

end Folo.Awaiters
