import Mathlib.Data.List.Basic
import Folo.Lib.Links
import Folo.Awaiters.Set

/-!
# What the set operations do to the queue of waiting awaiters

`Queue st l` is the meaning of a `Store`: the awaiters in the waiting state
are exactly the members of `l`, linked in that order, each holding a waker
and the id of the set. One spec lemma per operation says what becomes of `l`
and, through `Frame p`, that no other awaiter's lifecycle, generation or
waker changes. Callers use these lemmas and never unfold an operation.

Each lemma also says that the operation returns: under its contract no
`Fault` is possible, in either build. In particular the `expect` of `remove`
is never reached with a missing waker.
-/

namespace Folo.Awaiters

open Folo.Lib

variable {W : Type}

/-- The lifecycle phase of the awaiter at `p`. -/
def Store.phase (st : Store W) (p : Ptr) : Lifecycle := (st.mem p).lifecycle

/-- The generation recorded in the awaiter at `p`. -/
def Store.stamp (st : Store W) (p : Ptr) : BitVec 64 := (st.mem p).inner.generation

/-- The waker held by the awaiter at `p`. -/
def Store.waker (st : Store W) (p : Ptr) : Option W := (st.mem p).inner.waker

/-- The link fields of a store. -/
def Store.links (st : Store W) : Links Ptr where
  head := st.set.head
  tail := st.set.tail
  next p := (st.mem p).inner.next
  prev p := (st.mem p).inner.prev

/-- The waiting awaiters of a store are the linked list `l`. -/
structure Queue (st : Store W) (l : List Ptr) : Prop where
  links : st.links.Holds l
  waiting : ∀ a, st.phase a = .waiting ↔ a ∈ l
  waker : ∀ a ∈ l, st.waker a ≠ none
  owner : ∀ a ∈ l, (st.mem a).inner.owningSetId = st.set.setId

/-- What an operation on the awaiter at `p` leaves alone: the generation and
id of the set, and the phase, stamp and waker of every other awaiter. -/
structure Frame (p : Ptr) (st st' : Store W) : Prop where
  generation : st'.set.generation = st.set.generation
  setId : st'.set.setId = st.set.setId
  phase : ∀ q, q ≠ p → st'.phase q = st.phase q
  stamp : ∀ q, q ≠ p → st'.stamp q = st.stamp q
  waker : ∀ q, q ≠ p → st'.waker q = st.waker q

theorem isRegistered_iff {st : Store W} {p : Ptr} :
    (st.mem p).isRegistered = true ↔ st.phase p ≠ .idle := by
  simp [Awaiter.isRegistered, Store.phase]

theorem isNotified_iff {st : Store W} {p : Ptr} :
    (st.mem p).isNotified = true ↔ st.phase p = .notified := by
  simp [Awaiter.isNotified, Store.phase]

theorem Queue.nodup {st : Store W} {l : List Ptr} (h : Queue st l) : l.Nodup := h.links.nodup

/-- A store has one queue. -/
theorem Queue.isEmpty_iff {st : Store W} {l : List Ptr} (h : Queue st l) :
    st.set.isEmpty = true ↔ l = [] := by
  rw [AwaiterSet.isEmpty, Option.isNone_iff_eq_none]
  exact h.links.nil_iff

theorem queue_new (setId : Nat) : Queue (Store.new setId : Store W) [] := by
  refine ⟨Links.holds_nil rfl rfl, fun a => ?_, fun a ha => ?_, fun a ha => ?_⟩
  · simp [Store.phase, Store.new, Awaiter.new]
  · simp at ha
  · simp at ha

/-- The debug assertions of an operation used as its contract requires. -/
theorem debugAssert_of {debug cond : Bool} {fault : Fault} (h : cond = true) :
    debugAssert debug cond fault = .ok () := by
  rw [debugAssert, h, Bool.not_true, Bool.and_false]
  rfl

theorem Queue.debugAssertOwns {st : Store W} {l : List Ptr} (h : Queue st l) {p : Ptr}
    (hp : p ∈ l) (debug : Bool) : st.debugAssertOwns debug p = .ok () :=
  debugAssert_of (by rw [h.owner p hp]; exact beq_self_eq_true _)

/-! ## Operations that do not move awaiters -/

/-- The queue only depends on the ends of the set and on the awaiters in it. -/
theorem Queue.congr {st st' : Store W} {l : List Ptr} (h : Queue st l)
    (hhead : st'.set.head = st.set.head) (htail : st'.set.tail = st.set.tail)
    (hid : st'.set.setId = st.set.setId)
    (hinner : ∀ a ∈ l, (st'.mem a).inner = (st.mem a).inner)
    (hphase : ∀ a, st'.phase a = .waiting ↔ st.phase a = .waiting) : Queue st' l := by
  refine ⟨?_, fun a => (hphase a).trans (h.waiting a), fun a ha => ?_, fun a ha => ?_⟩
  · exact h.links.congr hhead htail (fun a ha => congrArg Inner.next (hinner a ha))
      (fun a ha => congrArg Inner.prev (hinner a ha))
  · rw [Store.waker, hinner a ha]
    exact h.waker a ha
  · rw [hinner a ha, hid]
    exact h.owner a ha

theorem Queue.advanceGeneration {st : Store W} {l : List Ptr} (h : Queue st l) :
    Queue st.advanceGeneration l :=
  h.congr rfl rfl rfl (fun _ _ => rfl) (fun _ => Iff.rfl)

theorem create_mem {st : Store W} {p a : Ptr} (ha : a ≠ p) : (st.create p).mem a = st.mem a :=
  Function.update_of_ne ha ..

theorem Queue.create {st : Store W} {l : List Ptr} (h : Queue st l) {p : Ptr}
    (hp : st.phase p ≠ .waiting) : Queue (st.create p) l := by
  have hpl : p ∉ l := fun hm => hp ((h.waiting p).mpr hm)
  refine h.congr rfl rfl rfl (fun a ha => ?_) (fun a => ?_)
  · have hap : a ≠ p := fun e => hpl (e ▸ ha)
    rw [create_mem hap]
  · by_cases ha : a = p
    · subst ha
      simp only [Store.phase, Store.create, Memory.create, Function.update_self, Awaiter.new]
      exact ⟨fun he => absurd he (by decide), fun he => absurd he hp⟩
    · rw [Store.phase, Store.phase, create_mem ha]

theorem create_frame (st : Store W) (p : Ptr) : Frame p st (st.create p) := by
  refine ⟨rfl, rfl, fun q hq => ?_, fun q hq => ?_, fun q hq => ?_⟩
  · rw [Store.phase, Store.phase, create_mem hq]
  · rw [Store.stamp, Store.stamp, create_mem hq]
  · rw [Store.waker, Store.waker, create_mem hq]

@[simp] theorem create_phase (st : Store W) (p : Ptr) : (st.create p).phase p = .idle := by
  simp [Store.phase, Store.create, Memory.create, Awaiter.new]

/-- What `take_notification` answers. -/
theorem takeNotification_fst {st : Store W} {p : Ptr} :
    (st.takeNotification p).1 = true ↔ st.phase p = .notified := by
  unfold Store.takeNotification Memory.takeNotification Store.phase
  split
  next h => simp [h]
  next h => simp [h]

/-- Without a notification `take_notification` does nothing. -/
theorem takeNotification_ne {m : Memory W} {p : Ptr} (h : (m p).lifecycle ≠ .notified) :
    m.takeNotification p = (false, m) :=
  if_neg h

/-- `take_notification` changes nothing but the phase of a notified awaiter,
which becomes idle. -/
theorem takeNotification_snd (st : Store W) (p : Ptr) :
    (st.takeNotification p).2.set = st.set ∧
    (∀ q, ((st.takeNotification p).2.mem q).inner = (st.mem q).inner) ∧
    ∀ q, (st.takeNotification p).2.phase q =
      if q = p ∧ st.phase p = .notified then .idle else st.phase q := by
  unfold Store.takeNotification Memory.takeNotification Store.phase
  split
  next h =>
    refine ⟨rfl, fun q => Memory.setLifecycle_inner .., fun q => ?_⟩
    rw [Memory.setLifecycle_lifecycle, h]
    simp
  next h =>
    refine ⟨rfl, fun q => rfl, fun q => ?_⟩
    rw [if_neg (fun hc => h hc.2)]

theorem Queue.takeNotification {st : Store W} {l : List Ptr} (h : Queue st l) (p : Ptr) :
    Queue (st.takeNotification p).2 l := by
  obtain ⟨hset, hinner, hphase⟩ := takeNotification_snd st p
  refine h.congr (by rw [hset]) (by rw [hset]) (by rw [hset]) (fun a _ => hinner a) (fun a => ?_)
  rw [hphase a]
  split
  next hc => rw [hc.1, hc.2]; simp
  next => exact Iff.rfl

theorem takeNotification_frame (st : Store W) (p : Ptr) : Frame p st (st.takeNotification p).2 := by
  obtain ⟨hset, hinner, hphase⟩ := takeNotification_snd st p
  refine ⟨by rw [hset], by rw [hset], fun q hq => ?_, fun q _ => ?_, fun q _ => ?_⟩
  · rw [hphase q, if_neg (fun hc => hq hc.1)]
  · rw [Store.stamp, Store.stamp, hinner q]
  · rw [Store.waker, Store.waker, hinner q]

/-- After `take_notification` there is no notification left. -/
theorem takeNotification_phase_ne (st : Store W) (p : Ptr) :
    (st.takeNotification p).2.phase p ≠ .notified := by
  rw [(takeNotification_snd st p).2.2 p]
  split
  next => decide
  next h => exact fun hn => h ⟨rfl, hn⟩

/-! ## Registration -/

/-- Registering an idle awaiter appends it, stamped with the current
generation. -/
theorem Queue.register_idle {st : Store W} {l : List Ptr} (h : Queue st l) {p : Ptr}
    (hp : st.phase p = .idle) (debug : Bool) (w : W) :
    ∃ st', st.register debug p w = .ok st' ∧ Queue st' (l ++ [p]) ∧ Frame p st st' ∧
      st'.stamp p = st.set.generation ∧ st'.waker p = some w := by
  have hpl : p ∉ l := by
    intro hm
    have hw := (h.waiting p).mpr hm
    rw [hp] at hw
    exact absurd hw (by decide)
  have hlife : (st.mem p).lifecycle = .idle := hp
  have hassert : debugAssert debug ((st.mem p).lifecycle != .notified) .notifiedRegistered =
      .ok () := debugAssert_of (by rw [hlife]; decide)
  -- both cases of the tail write the same link fields as `Links.pushBack`
  obtain ⟨st', hst', hlinks, hgen, hid, hinner, hlife'⟩ : ∃ st',
      st.register debug p w = .ok st' ∧ st'.links = st.links.pushBack p ∧
      st'.set.generation = st.set.generation ∧ st'.set.setId = st.set.setId ∧
      (∀ q, (st'.mem q).inner.waker = (if q = p then some w else (st.mem q).inner.waker) ∧
        (st'.mem q).inner.generation =
          (if q = p then st.set.generation else (st.mem q).inner.generation) ∧
        (st'.mem q).inner.owningSetId =
          (if q = p then st.set.setId else (st.mem q).inner.owningSetId)) ∧
      ∀ q, (st'.mem q).lifecycle = if q = p then .waiting else (st.mem q).lifecycle := by
    unfold Store.register
    rw [hassert, hlife]
    cases ht : st.set.tail with
    | none =>
      refine ⟨_, rfl, ?_, rfl, rfl, fun q => ?_, fun q => ?_⟩
      · simp only [Store.links, Links.pushBack, Memory.setLifecycle_inner,
          Memory.modifyInner_inner, ht, Links.mk.injEq, true_and]
        constructor
        · funext q
          rw [Function.update_apply]
          split <;> rfl
        · funext q
          rw [Function.update_apply]
          split <;> rfl
      · simp only [Memory.setLifecycle_inner, Memory.modifyInner_inner]
        split <;> exact ⟨rfl, rfl, rfl⟩
      · rw [Memory.setLifecycle_lifecycle, Memory.modifyInner_lifecycle]
    | some t =>
      have htp : t ≠ p := fun e => hpl (e ▸ h.links.tail_mem ht)
      refine ⟨_, rfl, ?_, rfl, rfl, fun q => ?_, fun q => ?_⟩
      · simp only [Store.links, Links.pushBack, Memory.setLifecycle_inner,
          Memory.modifyInner_inner, ht, Links.mk.injEq, true_and]
        constructor
        · funext q
          rw [Function.update_apply, Function.update_apply]
          by_cases hqt : q = t
          · simp [hqt]
          · simp only [hqt, if_false]
            split <;> rfl
        · funext q
          rw [Function.update_apply]
          by_cases hqt : q = t
          · subst hqt
            simp [htp]
          · simp only [hqt, if_false]
            split <;> rfl
      · simp only [Memory.setLifecycle_inner, Memory.modifyInner_inner]
        by_cases hqt : q = t
        · subst hqt
          simp [htp]
        · simp only [hqt, if_false]
          split <;> exact ⟨rfl, rfl, rfl⟩
      · rw [Memory.setLifecycle_lifecycle, Memory.modifyInner_lifecycle,
          Memory.modifyInner_lifecycle]
  have hmem : ∀ a, a ∈ l ++ [p] → a ≠ p → a ∈ l := by
    intro a ha hne
    rcases List.mem_append.mp ha with hl | hl
    · exact hl
    · exact absurd (List.mem_singleton.mp hl) hne
  refine ⟨st', hst', ⟨?_, fun a => ?_, fun a ha => ?_, fun a ha => ?_⟩,
    ⟨hgen, hid, fun q hq => ?_, fun q hq => ?_, fun q hq => ?_⟩, ?_, ?_⟩
  · rw [hlinks]
    exact h.links.pushBack hpl
  · rw [Store.phase, hlife' a]
    by_cases hap : a = p
    · simp [hap]
    · rw [if_neg hap, List.mem_append, List.mem_singleton]
      exact (h.waiting a).trans ⟨Or.inl, fun hc => hc.resolve_right hap⟩
  · rw [Store.waker, (hinner a).1]
    by_cases hap : a = p
    · simp [hap]
    · rw [if_neg hap]
      exact h.waker a (hmem a ha hap)
  · rw [(hinner a).2.2, hid]
    by_cases hap : a = p
    · rw [if_pos hap]
    · rw [if_neg hap]
      exact h.owner a (hmem a ha hap)
  · rw [Store.phase, hlife' q, if_neg hq, Store.phase]
  · rw [Store.stamp, (hinner q).2.1, if_neg hq, Store.stamp]
  · rw [Store.waker, (hinner q).1, if_neg hq, Store.waker]
  · rw [Store.stamp, (hinner p).2.1, if_pos rfl]
  · rw [Store.waker, (hinner p).1, if_pos rfl]

/-- Registering a waiting awaiter replaces its waker and nothing else. -/
theorem Queue.register_waiting {st : Store W} {l : List Ptr} (h : Queue st l) {p : Ptr}
    (hp : st.phase p = .waiting) (debug : Bool) (w : W) :
    ∃ st', st.register debug p w = .ok st' ∧ Queue st' l ∧ Frame p st st' ∧
      st'.stamp p = st.stamp p ∧ st'.waker p = some w := by
  have hpl : p ∈ l := (h.waiting p).mp hp
  have hlife : (st.mem p).lifecycle = .waiting := hp
  have hassert : debugAssert debug ((st.mem p).lifecycle != .notified) .notifiedRegistered =
      .ok () := debugAssert_of (by rw [hlife]; decide)
  refine ⟨{ st with mem := st.mem.modifyInner p fun i => { i with waker := some w } },
    ?_, ⟨?_, fun a => ?_, fun a ha => ?_, fun a ha => ?_⟩,
    ⟨rfl, rfl, fun q hq => ?_, fun q hq => ?_, fun q hq => ?_⟩, ?_, ?_⟩
  · unfold Store.register
    rw [hassert, hlife, h.debugAssertOwns hpl debug]
    rfl
  · refine h.links.congr rfl rfl (fun a _ => ?_) (fun a _ => ?_)
    · simp only [Store.links, Memory.modifyInner_inner]
      split
      next he => rw [he]
      next => rfl
    · simp only [Store.links, Memory.modifyInner_inner]
      split
      next he => rw [he]
      next => rfl
  · rw [Store.phase, Memory.modifyInner_lifecycle]
    exact h.waiting a
  · rw [Store.waker, Memory.modifyInner_inner]
    split
    next => simp
    next => exact h.waker a ha
  · rw [Memory.modifyInner_inner]
    split
    next he => rw [← he]; exact h.owner a ha
    next => exact h.owner a ha
  · rw [Store.phase, Memory.modifyInner_lifecycle, Store.phase]
  · rw [Store.stamp, Memory.modifyInner_inner, if_neg hq, Store.stamp]
  · rw [Store.waker, Memory.modifyInner_inner, if_neg hq, Store.waker]
  · rw [Store.stamp, Memory.modifyInner_inner, if_pos rfl, Store.stamp]
  · rw [Store.waker, Memory.modifyInner_inner, if_pos rfl]

/-! ## Leaving the queue -/

theorem modifyInner_next (m : Memory W) (q a : Ptr) (f : Inner W → Inner W) :
    (m.modifyInner q f a).inner.next =
      if a = q then (f (m q).inner).next else (m a).inner.next := by
  rw [Memory.modifyInner_inner]
  split <;> rfl

theorem modifyInner_prev (m : Memory W) (q a : Ptr) (f : Inner W → Inner W) :
    (m.modifyInner q f a).inner.prev =
      if a = q then (f (m q).inner).prev else (m a).inner.prev := by
  rw [Memory.modifyInner_inner]
  split <;> rfl

theorem unlink_links (st : Store W) (p n : Option Ptr) :
    (st.unlink p n).links = st.links.splice p n := by
  -- a write to one link field leaves the other as it was
  have hsame : ∀ (a b : Ptr) (g : Ptr → Option Ptr), (if a = b then g b else g a) = g a := by
    intro a b g
    split
    next he => rw [he]
    next => rfl
  unfold Store.unlink
  cases p with
  | none =>
    cases n with
    | none => rfl
    | some q =>
      simp only [Store.links, Links.splice, modifyInner_next, modifyInner_prev, Links.mk.injEq,
        true_and]
      exact ⟨funext fun a => hsame a q fun b => (st.mem b).inner.next,
        funext fun a => by rw [Function.update_apply]⟩
  | some r =>
    cases n with
    | none =>
      simp only [Store.links, Links.splice, modifyInner_next, modifyInner_prev, Links.mk.injEq,
        true_and]
      exact ⟨funext fun a => by rw [Function.update_apply],
        funext fun a => hsame a r fun b => (st.mem b).inner.prev⟩
    | some q =>
      simp only [Store.links, Links.splice, modifyInner_next, modifyInner_prev, Links.mk.injEq,
        true_and]
      constructor
      · funext a
        rw [Function.update_apply]
        exact hsame a q fun b => if b = r then some q else (st.mem b).inner.next
      · funext a
        rw [Function.update_apply, hsame a r fun b => (st.mem b).inner.prev]

/-- `unlink` writes link fields only. -/
theorem unlink_frame (st : Store W) (p n : Option Ptr) :
    (st.unlink p n).set.generation = st.set.generation ∧
    (st.unlink p n).set.setId = st.set.setId ∧
    ∀ a, ((st.unlink p n).mem a).lifecycle = (st.mem a).lifecycle ∧
      ((st.unlink p n).mem a).inner.waker = (st.mem a).inner.waker ∧
      ((st.unlink p n).mem a).inner.generation = (st.mem a).inner.generation ∧
      ((st.unlink p n).mem a).inner.owningSetId = (st.mem a).inner.owningSetId := by
  have hmod : ∀ (m : Memory W) (q : Ptr) (f : Inner W → Inner W),
      (∀ i, (f i).waker = i.waker ∧ (f i).generation = i.generation ∧
        (f i).owningSetId = i.owningSetId) → ∀ a,
      (m.modifyInner q f a).inner.waker = (m a).inner.waker ∧
      (m.modifyInner q f a).inner.generation = (m a).inner.generation ∧
      (m.modifyInner q f a).inner.owningSetId = (m a).inner.owningSetId := by
    intro m q f hf a
    rw [Memory.modifyInner_inner]
    split
    next he => rw [he]; exact hf _
    next => exact ⟨rfl, rfl, rfl⟩
  unfold Store.unlink
  cases p with
  | none =>
    cases n with
    | none => exact ⟨rfl, rfl, fun a => ⟨rfl, rfl, rfl, rfl⟩⟩
    | some q =>
      refine ⟨rfl, rfl, fun a => ⟨Memory.modifyInner_lifecycle .., ?_⟩⟩
      exact hmod st.mem q (fun i => { i with prev := none }) (fun i => ⟨rfl, rfl, rfl⟩) a
  | some r =>
    cases n with
    | none =>
      refine ⟨rfl, rfl, fun a => ⟨Memory.modifyInner_lifecycle .., ?_⟩⟩
      exact hmod st.mem r (fun i => { i with next := none }) (fun i => ⟨rfl, rfl, rfl⟩) a
    | some q =>
      refine ⟨rfl, rfl, fun a => ⟨?_, ?_⟩⟩
      · rw [Memory.modifyInner_lifecycle, Memory.modifyInner_lifecycle]
      · obtain ⟨h1, h2, h3⟩ := hmod (st.mem.modifyInner r fun i => { i with next := some q }) q
          (fun i => { i with prev := some r }) (fun i => ⟨rfl, rfl, rfl⟩) a
        obtain ⟨k1, k2, k3⟩ := hmod st.mem r (fun i => { i with next := some q })
          (fun i => ⟨rfl, rfl, rfl⟩) a
        exact ⟨h1.trans k1, h2.trans k2, h3.trans k3⟩

/-- The common end of `unregister` and `remove`: a waiting awaiter is spliced
out, its waker is taken and it enters phase `ph`. -/
theorem Queue.leave {st : Store W} {l : List Ptr} (h : Queue st l) {p : Ptr} (hp : p ∈ l)
    {ph : Lifecycle} (hph : ph ≠ .waiting) {st' : Store W}
    (hst' : st' = { st.unlink (st.mem p).inner.prev (st.mem p).inner.next with
      mem := ((st.unlink (st.mem p).inner.prev (st.mem p).inner.next).mem.modifyInner p
        fun i => { i with waker := none, owningSetId := 0 }).setLifecycle p ph }) :
    Queue st' (l.erase p) ∧ Frame p st st' ∧ st'.phase p = ph := by
  obtain ⟨hgen, hid, hkeep⟩ := unlink_frame st (st.mem p).inner.prev (st.mem p).inner.next
  have hlinks := unlink_links st (st.mem p).inner.prev (st.mem p).inner.next
  obtain ⟨xs, ys, hl⟩ := List.append_of_mem hp
  have hnd : (p :: (xs ++ ys)).Nodup := by
    have hperm : (xs ++ p :: ys).Perm (p :: (xs ++ ys)) := List.perm_middle
    exact hperm.nodup_iff.mp (hl ▸ h.nodup)
  have hpxy : p ∉ xs ++ ys := (List.nodup_cons.mp hnd).1
  have herase : l.erase p = xs ++ ys := by
    rw [hl, List.erase_append_right _ (fun hm => hpxy (List.mem_append_left _ hm)),
      List.erase_cons_head]
  have hmem : ∀ a, a ∈ xs ++ ys ↔ a ∈ l ∧ a ≠ p := by
    intro a
    rw [hl]
    simp only [List.mem_append, List.mem_cons]
    constructor
    · intro ha
      exact ⟨ha.imp_right Or.inr, fun e => hpxy (e ▸ List.mem_append.mpr ha)⟩
    · rintro ⟨ha | ha | ha, hne⟩
      · exact Or.inl ha
      · exact absurd ha hne
      · exact Or.inr ha
  have hother : ∀ a, a ≠ p → (st'.mem a).lifecycle = (st.mem a).lifecycle ∧
      (st'.mem a).inner.waker = (st.mem a).inner.waker ∧
      (st'.mem a).inner.generation = (st.mem a).inner.generation ∧
      (st'.mem a).inner.owningSetId = (st.mem a).inner.owningSetId := by
    intro a ha
    rw [hst']
    simp only [Memory.setLifecycle_inner, Memory.setLifecycle_lifecycle, if_neg ha,
      Memory.modifyInner_lifecycle, Memory.modifyInner_inner]
    exact hkeep a
  have hset : st'.set = (st.unlink (st.mem p).inner.prev (st.mem p).inner.next).set := by
    rw [hst']
  refine ⟨⟨?_, fun a => ?_, fun a ha => ?_, fun a ha => ?_⟩,
    ⟨hset ▸ hgen, hset ▸ hid, fun q hq => (hother q hq).1, fun q hq => (hother q hq).2.2.1,
      fun q hq => (hother q hq).2.1⟩, ?_⟩
  · rw [herase]
    have hspliced : ((st.links.splice (st.links.prev p) (st.links.next p))).Holds (xs ++ ys) :=
      Links.Holds.splice (hl ▸ h.links)
    refine hspliced.congr ?_ ?_ (fun a ha => ?_) (fun a ha => ?_)
    · exact (congrArg AwaiterSet.head hset).trans (congrArg Links.head hlinks)
    · exact (congrArg AwaiterSet.tail hset).trans (congrArg Links.tail hlinks)
    · have hap := ((hmem a).mp ha).2
      have hn : (st'.links).next a =
          (st.unlink (st.mem p).inner.prev (st.mem p).inner.next).links.next a := by
        simp only [Store.links, hst', Memory.setLifecycle_inner, Memory.modifyInner_inner,
          if_neg hap]
      rw [hn, hlinks]
      rfl
    · have hap := ((hmem a).mp ha).2
      have hn : (st'.links).prev a =
          (st.unlink (st.mem p).inner.prev (st.mem p).inner.next).links.prev a := by
        simp only [Store.links, hst', Memory.setLifecycle_inner, Memory.modifyInner_inner,
          if_neg hap]
      rw [hn, hlinks]
      rfl
  · rw [herase, hmem]
    by_cases hap : a = p
    · subst hap
      have hphase : st'.phase a = ph := by
        rw [Store.phase, hst', Memory.setLifecycle_lifecycle, if_pos rfl]
      rw [hphase]
      exact ⟨fun e => absurd e hph, fun e => absurd rfl e.2⟩
    · rw [Store.phase, (hother a hap).1]
      exact (h.waiting a).trans ⟨fun hm => ⟨hm, hap⟩, fun hm => hm.1⟩
  · rw [herase] at ha
    obtain ⟨hal, hap⟩ := (hmem a).mp ha
    rw [Store.waker, (hother a hap).2.1]
    exact h.waker a hal
  · rw [herase] at ha
    obtain ⟨hal, hap⟩ := (hmem a).mp ha
    rw [(hother a hap).2.2.2, hset, hid]
    exact h.owner a hal
  · rw [Store.phase, hst', Memory.setLifecycle_lifecycle, if_pos rfl]

/-- Unregistering a waiting awaiter takes it out of the queue and makes it
idle. -/
theorem Queue.unregister_waiting {st : Store W} {l : List Ptr} (h : Queue st l) {p : Ptr}
    (hp : st.phase p = .waiting) (debug : Bool) :
    ∃ st', st.unregister debug p = .ok st' ∧ Queue st' (l.erase p) ∧ Frame p st st' ∧
      st'.phase p = .idle := by
  have hpl : p ∈ l := (h.waiting p).mp hp
  have hlife : (st.mem p).lifecycle = .waiting := hp
  have hassert : debugAssert debug ((st.mem p).lifecycle != .idle) .idleUnregistered =
      .ok () := debugAssert_of (by rw [hlife]; decide)
  refine ⟨_, ?_, h.leave hpl (by decide) rfl⟩
  unfold Store.unregister
  rw [hassert, hlife, h.debugAssertOwns hpl debug]
  rfl

/-- Unregistering a notified awaiter does nothing. -/
theorem unregister_notified {st : Store W} {p : Ptr} (hp : st.phase p = .notified)
    (debug : Bool) : st.unregister debug p = .ok st := by
  have hlife : (st.mem p).lifecycle = .notified := hp
  have hassert : debugAssert debug ((st.mem p).lifecycle != .idle) .idleUnregistered =
      .ok () := debugAssert_of (by rw [hlife]; decide)
  unfold Store.unregister
  rw [hassert, hlife]
  rfl

/-- An awaiter that has been unregistered does not wait. -/
theorem Queue.unregister_phase {st st' : Store W} {l : List Ptr} (h : Queue st l) {p : Ptr}
    {debug : Bool} (hp : st.phase p ≠ .idle) (hst : st.unregister debug p = .ok st') :
    st'.phase p ≠ .waiting := by
  cases hph : st.phase p with
  | idle => exact absurd hph hp
  | waiting =>
    obtain ⟨st₁, hst₁, -, -, hidle⟩ := h.unregister_waiting hph debug
    obtain rfl : st₁ = st' := Except.ok.inj (hst₁.symm.trans hst)
    rw [hidle]
    decide
  | notified =>
    obtain rfl : st = st' := Except.ok.inj ((unregister_notified hph debug).symm.trans hst)
    rw [hph]
    decide

/-- Removing a queued awaiter notifies it and hands out its waker. -/
theorem Queue.remove {st : Store W} {l : List Ptr} (h : Queue st l) {p : Ptr} (hp : p ∈ l)
    (debug : Bool) :
    ∃ w st', st.remove debug p = .ok (w, st') ∧ st.waker p = some w ∧
      Queue st' (l.erase p) ∧ Frame p st st' ∧ st'.phase p = .notified := by
  obtain ⟨w, hw⟩ := Option.ne_none_iff_exists'.mp (h.waker p hp)
  have hwaker : ((st.unlink (st.mem p).inner.prev (st.mem p).inner.next).mem p).inner.waker =
      some w :=
    ((unlink_frame st _ _).2.2 p).2.1.trans hw
  refine ⟨w, _, ?_, hw, h.leave hp (by decide) rfl⟩
  unfold Store.remove
  rw [h.debugAssertOwns hp debug]
  simp only [hwaker]
  rfl

/-! ## Notification -/

/-- The end that `pick_one` picks is in the queue; a release build picks the
head. -/
theorem Queue.pickOne {st : Store W} {l : List Ptr} (h : Queue st l) (hl : l ≠ [])
    (debug : Bool) :
    ∃ p ∈ l, st.set.pickOne debug = some p ∧ (debug = false → l.head? = some p) := by
  have hhead : st.set.head = l.head? := h.links.head
  have htail : st.set.tail = l.getLast? := h.links.tail
  obtain ⟨a, ha⟩ : ∃ a, l.head? = some a := Option.ne_none_iff_exists'.mp (by simpa using hl)
  obtain ⟨z, hz⟩ : ∃ z, l.getLast? = some z := Option.ne_none_iff_exists'.mp (by simpa using hl)
  unfold AwaiterSet.pickOne
  rw [hhead, htail, ha, hz]
  cases debug with
  | false => exact ⟨a, List.mem_of_head? ha, rfl, fun _ => rfl⟩
  | true =>
    rw [if_pos rfl]
    split
    · exact ⟨a, List.mem_of_head? ha, rfl, by simp⟩
    · split
      · exact ⟨a, List.mem_of_head? ha, rfl, by simp⟩
      · exact ⟨z, List.mem_of_getLast? hz, rfl, by simp⟩

theorem Queue.notifyOne_nil {st : Store W} (h : Queue st []) (debug : Bool) :
    st.notifyOne debug = .ok (none, st) := by
  unfold Store.notifyOne
  rw [h.isEmpty_iff.mpr rfl]
  rfl

/-- Notifying from a non-empty queue notifies one of its awaiters, the first
one in a release build. -/
theorem Queue.notifyOne_cons {st : Store W} {l : List Ptr} (h : Queue st l) (hl : l ≠ [])
    (debug : Bool) :
    ∃ p ∈ l, ∃ w st', st.notifyOne debug = .ok (some w, st') ∧ st.waker p = some w ∧
      Queue st' (l.erase p) ∧ Frame p st st' ∧ st'.phase p = .notified ∧
      (debug = false → l.head? = some p) := by
  obtain ⟨p, hp, hpick, hfifo⟩ := h.pickOne hl debug
  obtain ⟨w, st', hrem, hw, hq, hf, hph⟩ := h.remove hp debug
  refine ⟨p, hp, w, st', ?_, hw, hq, hf, hph, hfifo⟩
  have hne : st.set.isEmpty = false := by
    rw [Bool.eq_false_iff]
    exact fun he => hl (h.isEmpty_iff.mp he)
  unfold Store.notifyOne
  rw [hne, hpick]
  simp only [Bool.false_eq_true, if_false, hrem]
  rfl

/-- `notify_one` finds nobody only in an empty set. -/
theorem Queue.notifyOne_none {st st' : Store W} {l : List Ptr} {debug : Bool} (h : Queue st l)
    (hst : st.notifyOne debug = .ok (none, st')) : st' = st ∧ l = [] := by
  by_cases hl : l = []
  · subst hl
    rw [h.notifyOne_nil debug] at hst
    cases hst
    exact ⟨rfl, rfl⟩
  · obtain ⟨p, -, w, st₁, hst₁, -⟩ := h.notifyOne_cons hl debug
    rw [hst₁] at hst
    cases hst

theorem Queue.notifyOnePriorGeneration_nil {st : Store W} (h : Queue st []) (debug : Bool) :
    st.notifyOnePriorGeneration debug = .ok (none, st) := by
  have hhead : st.set.head = none := h.links.nil_iff.mpr rfl
  unfold Store.notifyOnePriorGeneration
  rw [hhead]
  rfl

/-- A head of the current generation is not eligible. -/
theorem Queue.notifyOnePriorGeneration_current {st : Store W} {p : Ptr} {l : List Ptr}
    (h : Queue st (p :: l)) (hp : st.set.generation ≤ st.stamp p) (debug : Bool) :
    st.notifyOnePriorGeneration debug = .ok (none, st) := by
  have hhead : st.set.head = some p := h.links.head
  unfold Store.notifyOnePriorGeneration
  rw [hhead]
  simp only [ge_iff_le]
  rw [if_pos (show st.set.generation ≤ (st.mem p).inner.generation from hp)]
  rfl

/-- A head of a prior generation is notified. -/
theorem Queue.notifyOnePriorGeneration_prior {st : Store W} {p : Ptr} {l : List Ptr}
    (h : Queue st (p :: l)) (hp : st.stamp p < st.set.generation) (debug : Bool) :
    ∃ w st', st.notifyOnePriorGeneration debug = .ok (some w, st') ∧ st.waker p = some w ∧
      Queue st' l ∧ Frame p st st' ∧ st'.phase p = .notified := by
  have hhead : st.set.head = some p := h.links.head
  obtain ⟨w, st', hrem, hw, hq, hf, hph⟩ := h.remove (List.mem_cons_self ..) debug
  rw [List.erase_cons_head] at hq
  refine ⟨w, st', ?_, hw, hq, hf, hph⟩
  have hlt : ¬ st.set.generation ≤ (st.mem p).inner.generation := BitVec.not_le.mpr hp
  unfold Store.notifyOnePriorGeneration
  rw [hhead]
  simp only [ge_iff_le]
  rw [if_neg hlt, hrem]
  rfl

end Folo.Awaiters
