import Folo.FutureDeque.CoreInv
import Folo.FutureDeque.Ideal

/-!
# The deque hands out what an ideal deque does

`outputs` runs an ideal deque beside the real one: it is told of every push,
of every future whose poll returned ready, by the number of that future, and
of every call that takes or polls. Both answer, and both answers are
recorded.

`view` ties the two together slot by slot: a pending slot holds the future at
its place, and a ready one has its output. Poll passes change one slot at a
time, and wakes from other threads change none, so the correspondence holds
in the middle of a pass as well.
-/

namespace Folo.FutureDeque

open Folo.Lib

variable {P V W : Type}

/-- The output that a call hands out. -/
def Returned.output : Returned V → Option V
  | .popped value => value
  | .polledNext (.ready value) => value
  | _ => none

/-- The ideal deque, and what both have answered so far. -/
structure Recorded (V : Type) where
  ideal : Ideal V
  answers : List (Returned V)
  idealAnswers : List (Returned V)

namespace Recorded

def new (V : Type) : Recorded V := ⟨.new V, [], []⟩

/-- Both have answered. -/
def answered (r : Recorded V) (returned : Returned V) (ideal : Ideal V × Returned V) :
    Recorded V where
  ideal := ideal.1
  answers := r.answers ++ [returned]
  idealAnswers := r.idealAnswers ++ [ideal.2]

end Recorded

/-- What the owner's action means to the ideal deque. -/
def record (r : Recorded V) (slots : List (Slot V)) :
    Pc P V → Act (Call P V) → Pc P V → Recorded V
  | .idle _, .call (.push side _), _ => { r with ideal := r.ideal.push side }
  | .idle _, .call (.pop side), .idle (some returned) =>
    r.answered returned ((r.ideal.take side).2, .popped (r.ideal.take side).1)
  | .polling _ i _, .call (.polled (.ready value)), _ =>
    match slots[i]? with
    | some (.pending handle _) => { r with ideal := r.ideal.complete handle value }
    | _ => r
  | .pollSlot pass _, .step, .idle (some returned) => r.answered returned (r.ideal.answer pass)
  | _, _, _ => r

/-- The ideal deque beside the real one. -/
def outputs : Machine.Monitor (Threads (Core P V W) (Pc P V) (Option W))
    (Option W × Act (Call P V)) (Recorded V) where
  start := .new V
  update r σ l σ' :=
    match l.1 with
    | none => record r σ.shared.slots (σ.pc none) l.2 (σ'.pc none)
    | some _ => r

/-! ## The two deques side by side -/

/-- A slot, as its future or its output. -/
def Slot.view : Slot V → Sum Nat V
  | pending handle _ => .inl handle
  | ready value => .inr value

/-- A future of the ideal deque, likewise. -/
def Ideal.view (d : Ideal V) (id : Nat) : Sum Nat V :=
  match d.output id with
  | none => .inl id
  | some value => .inr value

theorem Ideal.view_eq_inl {d : Ideal V} {id handle : Nat} :
    d.view id = .inl handle ↔ id = handle ∧ d.output id = none := by
  rw [Ideal.view]
  split <;> simp_all

theorem Ideal.view_eq_inr {d : Ideal V} {id : Nat} {value : V} :
    d.view id = .inr value ↔ d.output id = some value := by
  rw [Ideal.view]
  split <;> simp_all

/-- The slots are the items of the ideal deque. -/
def Alike (slots : List (Slot V)) (d : Ideal V) : Prop :=
  slots.map Slot.view = d.items.map d.view

namespace Alike

theorem push {slots : List (Slot V)} {d : Ideal V} (h : Alike slots d) (hs : d.Sound) (side : End)
    (p : MetaPtr) : Alike (Core.pushSlot slots (.pending d.pushed p) side) (d.push side) := by
  have hnew : d.view d.pushed = .inl d.pushed :=
    Ideal.view_eq_inl.mpr ⟨rfl, hs.fresh d.pushed (Nat.le_refl _)⟩
  have hview : ∀ side, (d.push side).view = d.view := by
    intro side
    cases side <;> rfl
  rw [Alike, hview]
  rw [Alike] at h
  cases side with
  | front => simp [Core.pushSlot, Ideal.push, Slot.view, h, hnew]
  | back => simp [Core.pushSlot, Ideal.push, Slot.view, h, hnew]

/-- The future in a pending slot has no output yet. -/
theorem pending {slots : List (Slot V)} {d : Ideal V} (h : Alike slots d) {i handle : Nat}
    {p : MetaPtr} (hi : slots[i]? = some (.pending handle p)) :
    d.items[i]? = some handle ∧ d.output handle = none := by
  have hview := congrArg (·[i]?) h
  simp only [List.getElem?_map, hi, Option.map_some] at hview
  obtain ⟨id, hid, heq⟩ := Option.map_eq_some_iff.mp hview.symm
  obtain ⟨rfl, hnone⟩ := Ideal.view_eq_inl.mp heq
  exact ⟨hid, hnone⟩

/-- A slot becomes ready when its future completes. -/
theorem complete {slots : List (Slot V)} {d : Ideal V} (h : Alike slots d) (hs : d.Sound)
    {i handle : Nat} {p : MetaPtr} (hi : slots[i]? = some (.pending handle p)) (value : V) :
    Alike (slots.set i (.ready value)) (d.complete handle value) := by
  obtain ⟨hitem, -⟩ := h.pending hi
  obtain ⟨hlt, hget⟩ := List.getElem?_eq_some_iff.mp hitem
  rw [Alike, List.map_set, h]
  apply List.ext_getElem?
  intro j
  rw [List.getElem?_set]
  simp only [Ideal.complete, List.getElem?_map, List.length_map]
  by_cases hj : i = j
  · subst hj
    rw [if_pos rfl, if_pos hlt, hitem, Option.map_some]
    simp [Ideal.view, Slot.view]
  · rw [if_neg hj]
    cases hjd : d.items[j]? with
    | none => rfl
    | some id =>
      have hne : id ≠ handle := by
        rintro rfl
        exact hj ((List.getElem?_inj hlt hs.nodup).mp (hitem.trans hjd.symm))
      simp [Ideal.view, hne]

/-- Both deques have the same at an end. -/
theorem atEnd {slots : List (Slot V)} {d : Ideal V} (h : Alike slots d) (side : End) :
    (FutureDeque.atEnd slots side).map Slot.view = (FutureDeque.atEnd d.items side).map d.view := by
  rw [← atEnd_map, ← atEnd_map, h]

theorem withoutEnd {slots : List (Slot V)} {d : Ideal V} (h : Alike slots d) (side : End) :
    (FutureDeque.withoutEnd slots side).map Slot.view =
      (FutureDeque.withoutEnd d.items side).map d.view := by
  rw [← withoutEnd_map, ← withoutEnd_map, h]

/-- Both deques take the same. -/
theorem take {c : Core P V W} {d : Ideal V} (h : Alike c.slots d) (side : End) :
    (c.pop side).1 = (d.take side).1 ∧ Alike (c.pop side).2.slots (d.take side).2 := by
  have hend := h.atEnd side
  rw [Core.pop, Ideal.take]
  cases hid : FutureDeque.atEnd d.items side with
  | none =>
    rw [hid, Option.map_none, Option.map_eq_none_iff] at hend
    rw [hend]
    exact ⟨rfl, h⟩
  | some id =>
    rw [hid, Option.map_some] at hend
    obtain ⟨slot, hslot, hview⟩ := Option.map_eq_some_iff.mp hend
    rw [hslot]
    cases slot with
    | ready value =>
      have hout := Ideal.view_eq_inr.mp hview.symm
      simp only [hout]
      exact ⟨rfl, h.withoutEnd side⟩
    | pending handle p =>
      obtain ⟨-, hout⟩ := Ideal.view_eq_inl.mp hview.symm
      simp only [hout]
      exact ⟨rfl, h⟩

theorem answer {c : Core P V W} {d : Ideal V} (h : Alike c.slots d) (pass : Pass) :
    (c.finish pass).2 = (d.answer pass).2 ∧
      Alike (c.finish pass).1.slots (d.answer pass).1 := by
  cases pass with
  | poll =>
    have hany : c.slots.any (fun s => !s.isReady) =
        d.items.any (fun id => (d.output id).isNone) := by
      have hleft := congrArg (List.any · Sum.isLeft) h
      simp only [List.any_map] at hleft
      have hslot : (Sum.isLeft ∘ Slot.view : Slot V → Bool) = fun s => !s.isReady := by
        funext s
        cases s <;> rfl
      have hitem : (Sum.isLeft ∘ d.view) = fun id => (d.output id).isNone := by
        funext id
        simp only [Function.comp_apply, Ideal.view]
        cases d.output id <;> rfl
      rwa [hslot, hitem] at hleft
    refine ⟨?_, h⟩
    simp only [Core.finish, Ideal.answer, hany]
  | next side =>
    obtain ⟨hvalue, halike⟩ := h.take side
    rw [Core.finish, Ideal.answer]
    generalize c.pop side = res at hvalue halike
    generalize d.take side = ideal at hvalue halike
    obtain ⟨value, c'⟩ := res
    obtain ⟨_, d'⟩ := ideal
    obtain rfl : value = _ := hvalue
    cases value with
    | some v => exact ⟨rfl, halike⟩
    | none =>
      refine ⟨?_, halike⟩
      have hempty : c'.slots.isEmpty = d'.items.isEmpty := by
        have hlen := congrArg List.length halike
        simp only [List.length_map] at hlen
        rw [Bool.eq_iff_iff, List.isEmpty_iff_length_eq_zero, List.isEmpty_iff_length_eq_zero,
          hlen]
      simp only [hempty]

end Alike

/-- What is taken is remembered. -/
theorem Ideal.take_handed (d : Ideal V) (side : End) :
    (d.take side).2.handed.map (fun entry => entry.2.2) =
      d.handed.map (fun entry => entry.2.2) ++ (d.take side).1.toList := by
  rw [Ideal.take]
  split
  next => exact (List.append_nil _).symm
  next id _ =>
    split
    next => exact (List.append_nil _).symm
    next value _ => simp

theorem Ideal.take_pushed (d : Ideal V) (side : End) : (d.take side).2.pushed = d.pushed := by
  rw [Ideal.take]
  split
  · rfl
  · split <;> rfl

theorem Ideal.answer_pushed (d : Ideal V) (pass : Pass) :
    (d.answer pass).1.pushed = d.pushed := by
  cases pass with
  | poll => rfl
  | next side =>
    rw [← d.take_pushed side, Ideal.answer]
    split <;> rename_i heq <;> rw [heq]

theorem Ideal.answer_handed (d : Ideal V) (pass : Pass) :
    (d.answer pass).1.handed.map (fun entry => entry.2.2) =
      d.handed.map (fun entry => entry.2.2) ++ (d.answer pass).2.output.toList := by
  cases pass with
  | poll => exact (List.append_nil _).symm
  | next side =>
    have htake := d.take_handed side
    rw [Ideal.answer]
    generalize d.take side = res at htake
    obtain ⟨value, d'⟩ := res
    cases value with
    | some v => exact htake
    | none =>
      refine htake.trans ?_
      dsimp only
      split <;> rfl

/-! ## Whole runs -/

/-- The points of `drop`, at which the futures inside go away. -/
def Pc.dropping : Pc P V → Bool
  | dropSlot | dropRelease _ | dropDropWaker _ | dropped => true
  | _ => false

/-- The invariant of the runs of the observed deque. -/
structure Together (pc : Pc P V) (slots : List (Slot V)) (futures : Nat) (r : Recorded V) :
    Prop where
  alike : pc.dropping = false → Alike slots r.ideal ∧ futures = r.ideal.pushed
  sound : r.ideal.Sound
  same : r.answers = r.idealAnswers
  handed : r.answers.filterMap Returned.output = r.ideal.handed.map fun entry => entry.2.2

namespace Together

/-- A step between two points of the same kind that is of no concern to the
ideal deque. -/
theorem silent {pc pc' : Pc P V} {slots : List (Slot V)} {futures : Nat} {r : Recorded V}
    (h : Together pc slots futures r) (hpc : pc'.dropping = false → pc.dropping = false) :
    Together pc' slots futures r :=
  ⟨fun hd => h.alike (hpc hd), h.sound, h.same, h.handed⟩

/-- Both deques have answered, and the answers agree. -/
theorem answered {pc pc' : Pc P V} {slots slots' : List (Slot V)} {futures : Nat}
    {r : Recorded V} (h : Together pc slots futures r) (hpc : pc.dropping = false)
    {returned : Returned V} {ideal : Ideal V × Returned V} (hsame : returned = ideal.2)
    (halike : Alike slots' ideal.1) (hsound : ideal.1.Sound)
    (hpushed : ideal.1.pushed = r.ideal.pushed)
    (hhanded : ideal.1.handed.map (fun entry => entry.2.2) =
      r.ideal.handed.map (fun entry => entry.2.2) ++ ideal.2.output.toList) :
    Together pc' slots' futures (r.answered returned ideal) := by
  refine ⟨fun _ => ⟨halike, (h.alike hpc).2.trans hpushed.symm⟩, hsound, ?_, ?_⟩
  · simp only [Recorded.answered, h.same, hsame]
  · simp only [Recorded.answered, List.filterMap_append, h.handed, hhanded, hsame,
      List.filterMap_cons, List.filterMap_nil]
    cases ideal.2.output <;> rfl

theorem callOwner {last : Option (Returned V)} {op : Call P V} {c c' : Core P V W}
    {pc' : Pc P V} {r : Recorded V} (h : Together (.idle last : Pc P V) c.slots c.futures r)
    (hcall : callOwner c op = some (c', pc')) :
    Together pc' c'.slots c'.futures (record r c.slots (.idle last) (.call op) pc') := by
  obtain ⟨halike, hfutures⟩ := h.alike rfl
  cases op with
  | push side p =>
    obtain ⟨c₁, hpush, heq⟩ := Option.map_eq_some_iff.mp hcall
    cases heq
    obtain ⟨metas, -, rfl⟩ := Option.map_eq_some_iff.mp hpush
    have hnew := halike.push h.sound side p
    rw [← hfutures] at hnew
    refine ⟨fun _ => ⟨hnew, ?_⟩, h.sound.push side, h.same, ?_⟩
    · cases side <;> exact congrArg Nat.succ hfutures
    · cases side <;> exact h.handed
  | pop side =>
    have heq : ((c.pop side).2, Pc.idle (some (.popped (c.pop side).1))) = (c', pc') :=
      Option.some.inj hcall
    obtain ⟨rfl, rfl⟩ := Prod.mk.inj heq
    obtain ⟨hvalue, hslots⟩ := halike.take side
    obtain ⟨slots, hpop, -⟩ := c.pop_pendings side
    have hfut : (c.pop side).2.futures = c.futures := by rw [hpop]
    rw [hfut]
    exact h.answered rfl (congrArg Returned.popped hvalue) hslots (h.sound.take side)
      (r.ideal.take_pushed side) (r.ideal.take_handed side)
  | poll waker | pollNext side waker =>
    cases hcall
    exact h.silent fun _ => rfl
  | drop =>
    cases hcall
    exact h.silent fun hd => by cases hd
  | polled poll | wake mode p | cloneWaker p | dropWaker p => cases hcall

theorem polled {pass : Pass} {i : Nat} {p : MetaPtr} {poll : Poll V} {c c' : Core P V W}
    {pc' : Pc P V} {r : Recorded V} (h : Together (.polling pass i p : Pc P V) c.slots c.futures r)
    {handle : Nat} (hslot : c.slots[i]? = some (.pending handle p))
    (hpolled : polled c pass i p poll = some (c', pc')) :
    Together pc' c'.slots c'.futures
      (record r c.slots (.polling pass i p) (.call (.polled poll)) pc') := by
  obtain ⟨halike, hfutures⟩ := h.alike rfl
  unfold FutureDeque.polled at hpolled
  split at hpolled
  next =>
    cases poll with
    | pending =>
      cases hpolled
      exact h.silent fun _ => rfl
    | ready value =>
      cases hpolled
      rw [record, hslot]
      have hitem := List.mem_of_getElem? (halike.pending hslot).1
      exact ⟨fun _ => ⟨halike.complete h.sound hslot value, hfutures⟩,
        h.sound.complete hitem value, h.same, h.handed⟩
  next => cases hpolled

theorem stepOwner [DecidableEq P] {pc pc' : Pc P V} {c c' : Core P V W} {r : Recorded V}
    (h : Together pc c.slots c.futures r) (hstep : stepOwner c pc = some (c', pc')) :
    Together pc' c'.slots c'.futures (record r c.slots pc .step pc') := by
  cases pc with
  | pollLock pass waker =>
    obtain ⟨c₁, hlock, heq⟩ := Option.map_eq_some_iff.mp hstep
    cases heq
    rw [Core.lock] at hlock
    split at hlock
    · cases hlock
      exact h.silent fun _ => rfl
    · cases hlock
  | pollUpdate pass waker =>
    cases hstep
    exact h.silent fun _ => rfl
  | pollSlot pass i =>
    rw [FutureDeque.stepOwner] at hstep
    split at hstep
    next =>
      have heq : ((c.finish pass).1, Pc.idle (some (c.finish pass).2)) = (c', pc') :=
        Option.some.inj hstep
      obtain ⟨rfl, rfl⟩ := Prod.mk.inj heq
      obtain ⟨halike, -⟩ := h.alike rfl
      obtain ⟨hreturned, hslots⟩ := halike.answer pass
      obtain ⟨slots, hfinish, -⟩ := c.finish_pendings pass
      have hfut : (c.finish pass).1.futures = c.futures := by rw [hfinish]
      rw [hfut]
      exact h.answered rfl hreturned hslots (h.sound.answer pass) (r.ideal.answer_pushed pass)
        (r.ideal.answer_handed pass)
    next =>
      cases hstep
      exact h.silent fun _ => rfl
    next k p hslot =>
      obtain ⟨⟨was, metas⟩, hcheck, heq⟩ := Option.map_eq_some_iff.mp hstep
      cases was <;> cases heq <;> exact h.silent fun _ => rfl
  | pollRelease pass i p | dropRelease p | pollDropWaker pass i p | dropDropWaker p =>
    obtain ⟨metas, hrelease, heq⟩ := Option.map_eq_some_iff.mp hstep
    cases heq
    exact h.silent id
  | dropSlot =>
    rw [FutureDeque.stepOwner] at hstep
    split at hstep <;> cases hstep <;>
      exact ⟨fun hd => (by cases hd), h.sound, h.same, h.handed⟩
  | idle _ | polling _ _ _ | dropped | wakeSwap _ _ | wakeLock _ _ | wakeClone _ _
  | wakeParent _ _ _ | dropWaker _ | cloneWaker _ => cases hstep

end Together

section Runs

variable [DecidableEq P] [DecidableEq W]

/-- The correspondence in every reachable state. -/
theorem reachable_together {noop : P}
    {q : Threads (Core P V W) (Pc P V) (Option W) × Recorded V}
    (h : ((futureDeque P V W noop).observe outputs).Reachable q) :
    Together (q.1.pc none) q.1.shared.slots q.1.shared.futures q.2 := by
  refine h.invariant
    (I := fun q => Together (q.1.pc none) q.1.shared.slots q.1.shared.futures q.2)
    (show Together (.idle none : Pc P V) [] 0 (.new V) from
      ⟨fun _ => ⟨rfl, rfl⟩, Ideal.sound_new, rfl, rfl⟩) ?_
  rintro q ⟨t, a⟩ q' hreach hq - hnext
  obtain ⟨hthread, hrecord⟩ := Machine.observe_next.mp hnext
  obtain ⟨hact, hother⟩ := threads_next.mp hthread
  obtain ⟨hcounted, hlocal⟩ := reachable_counted (Machine.observe_fst hreach)
  rw [hrecord]
  cases t with
  | some w =>
    -- Using wakers does not touch the slots.
    obtain ⟨-, -, hslots, hfutures⟩ := (act_atomic hcounted (hlocal _) hact).frame.deque nofun
    rw [hother none nofun, hslots, hfutures]
    exact hq
  | none =>
    rcases act_cases hact with ⟨-, last, op, hpc, rfl, hcall⟩ |
      ⟨-, pass, i, p, poll, hpc, rfl, hpolled⟩ | ⟨-, rfl, hstep⟩ | ⟨w, hw, -⟩ | ⟨w, hw, -⟩
    · rw [hpc] at hq
      simp only [outputs, hpc]
      exact hq.callOwner hcall
    · obtain ⟨handle, hslot⟩ := (hlocal none).polling rfl pass i p hpc
      rw [hpc] at hq
      simp only [outputs, hpc]
      exact hq.polled hslot hpolled
    · exact hq.stepOwner hstep
    · cases hw
    · cases hw

end Runs

/-- What holds between a deque and the ideal deque of its futures. -/
structure DequeOfOutputs (σ : Threads (Core P V W) (Pc P V) (Option W)) (r : Recorded V) :
    Prop where
  /-- Every call has answered what the ideal deque answers. -/
  same : r.answers = r.idealAnswers
  /-- The outputs handed out are those the ideal deque handed out, in order. -/
  handed : r.answers.filterMap Returned.output = r.ideal.handed.map fun entry => entry.2.2
  /-- They are outputs of pushed futures, each at most once, and the futures
  not handed out are still inside. -/
  outputs : ∀ entry ∈ r.ideal.handed, r.ideal.output entry.2.1 = some entry.2.2
  exact : (r.ideal.handed.map (fun entry => entry.2.1) ++ r.ideal.items).Perm
    (List.range r.ideal.pushed)
  /-- What can be popped at an end is the output of the future at that end. -/
  ends : (σ.pc none).dropping = false → ∀ side value, (σ.shared.pop side).1 = some value →
    ∃ id, atEnd r.ideal.items side = some id ∧ r.ideal.output id = some value

/-- **`FutureDeque` is a double-ended queue of outputs.** -/
theorem deque_of_outputs {P V W : Type} [DecidableEq P] [DecidableEq W] {noop : P}
    {q : Threads (Core P V W) (Pc P V) (Option W) × Recorded V}
    (h : ((futureDeque P V W noop).observe outputs).Reachable q) :
    DequeOfOutputs q.1 q.2 := by
  have htogether := reachable_together h
  refine ⟨htogether.same, htogether.handed, htogether.sound.output, htogether.sound.exact,
    fun hd side value hpop => ?_⟩
  rw [((htogether.alike hd).1.take side).1, Ideal.take] at hpop
  split at hpop
  next => cases hpop
  next id hid =>
    split at hpop
    next => cases hpop
    next v hv => exact ⟨id, hid, hv.trans hpop⟩

/-- Two futures at the back and one at the front; the middle one is ready
first and waits for its turn. -/
theorem deque_of_outputs_both_ends :
    ∃ q, ((futureDeque Nat Nat Nat 0).observe outputs).run
        ([(none, Act.call (Call.push .back 10)), (none, .call (.push .back 20)),
          (none, .call (.push .front 30)), (none, .call (.pollNext .back 1))] ++
          List.replicate 3 (none, Act.step) ++
          [(none, Act.call (Call.polled .pending)), (none, .step),
            (none, .call (.polled (.ready 100)))] ++ List.replicate 3 (none, Act.step) ++
          [(none, Act.call (Call.polled (.ready 101)))] ++ List.replicate 3 (none, Act.step) ++
          [(none, Act.call (Call.pop .front)), (none, .call (.pop .back))]) = some q ∧
      q.2.answers = [.polledNext (.ready (some 101)), .popped none, .popped (some 100)] ∧
      DequeOfOutputs q.1 q.2 := by
  obtain ⟨q, hrun, hanswers⟩ : ∃ q, ((futureDeque Nat Nat Nat 0).observe outputs).run
        ([(none, Act.call (Call.push .back 10)), (none, .call (.push .back 20)),
          (none, .call (.push .front 30)), (none, .call (.pollNext .back 1))] ++
          List.replicate 3 (none, Act.step) ++
          [(none, Act.call (Call.polled .pending)), (none, .step),
            (none, .call (.polled (.ready 100)))] ++ List.replicate 3 (none, Act.step) ++
          [(none, Act.call (Call.polled (.ready 101)))] ++ List.replicate 3 (none, Act.step) ++
          [(none, Act.call (Call.pop .front)), (none, .call (.pop .back))]) = some q ∧
      q.2.answers = [.polledNext (.ready (some 101)), .popped none, .popped (some 100)] :=
    ⟨_, rfl, by decide⟩
  exact ⟨q, hrun, hanswers, deque_of_outputs (Machine.reachable_of_run hrun)⟩

end Folo.FutureDeque
