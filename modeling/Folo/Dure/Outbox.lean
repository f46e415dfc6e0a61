import Folo.Dure.Message
import Mathlib.Algebra.Group.Nat.Defs

/-!
# `Outbox`

The queue of `outbox.rs`, one function for each section under its lock.
`send` is two of them: it queues, and when the backlog is past the cap it
then abandons; `queue` is the first and says whether the second follows.

`accepted` is a history variable: every message ever queued. The writer takes
messages in that order, and abandoning discards the ones not yet taken.
-/

namespace Folo.Dure

/-- `payload_len`. -/
def payloadLen : Message → Nat
  | .output data | .input data => data.length
  | _ => 0

/-- `usize::MAX`. -/
def usizeMax : Nat := 2 ^ 64 - 1

/-- `OutboxState`, and every message it has queued. -/
structure Outbox where
  queued : List Message
  pendingBytes : Nat
  abandoned : Bool
  finished : Bool
  accepted : List Message
  deriving DecidableEq

namespace Outbox

/-- `OutboxState::default()`. -/
def new : Outbox := ⟨[], 0, false, false, []⟩

/-- The first section of `send`, and whether the backlog overflowed. -/
def queue (o : Outbox) (message : Message) : Outbox × Bool :=
  if o.abandoned || o.finished then (o, false)
  else
    let pendingBytes := Nat.min (o.pendingBytes + payloadLen message) usizeMax
    ({ o with
        pendingBytes
        queued := o.queued ++ [message]
        accepted := o.accepted ++ [message] },
      maxClientBacklogBytes < pendingBytes)

/-- The section of `abandon`. -/
def abandon (o : Outbox) : Outbox :=
  if o.abandoned then o else { o with abandoned := true, queued := [], pendingBytes := 0 }

/-- `finish`. -/
def finish (o : Outbox) : Outbox := { o with finished := true }

/-- `send`, where nothing comes between its sections. -/
def send (o : Outbox) (message : Message) : Outbox :=
  let r := o.queue message
  if r.2 then r.1.abandon else r.1

/-- `take_next`: `none` while it waits; otherwise the next message, or no
more. -/
def takeNext (o : Outbox) : Option (Option Message × Outbox) :=
  if o.abandoned then some (none, o)
  else
    match o.queued with
    | message :: queued =>
      some (some message,
        { o with queued, pendingBytes := o.pendingBytes - payloadLen message })
    | [] => if o.finished then some (none, o) else none

/-! ## What each operation keeps -/

theorem queue_of_open {o : Outbox} (h : (o.abandoned || o.finished) = false) (message : Message) :
    (o.queue message).1 = { o with
      pendingBytes := Nat.min (o.pendingBytes + payloadLen message) usizeMax
      queued := o.queued ++ [message]
      accepted := o.accepted ++ [message] } := by
  rw [queue, if_neg (by rw [h]; exact Bool.false_ne_true)]

theorem queue_of_closed {o : Outbox} (h : (o.abandoned || o.finished) = true)
    (message : Message) : (o.queue message).1 = o := by
  rw [queue, if_pos h]

@[simp] theorem queue_finished (o : Outbox) (message : Message) :
    (o.queue message).1.finished = o.finished := by
  unfold queue
  split <;> rfl

@[simp] theorem queue_abandoned (o : Outbox) (message : Message) :
    (o.queue message).1.abandoned = o.abandoned := by
  unfold queue
  split <;> rfl

@[simp] theorem abandon_finished (o : Outbox) : o.abandon.finished = o.finished := by
  unfold abandon
  split <;> rfl

@[simp] theorem abandon_abandoned (o : Outbox) : o.abandon.abandoned = true := by
  unfold abandon
  split
  · assumption
  · rfl

@[simp] theorem abandon_accepted (o : Outbox) : o.abandon.accepted = o.accepted := by
  unfold abandon
  split <;> rfl

/-- What the writer has taken and what is queued are what was accepted, in
order; abandoning discards the end of it. -/
structure Fifo (o : Outbox) (taken : List Message) : Prop where
  start : taken ++ o.queued <+: o.accepted
  whole : o.abandoned = false → taken ++ o.queued = o.accepted

theorem Fifo.queue {o : Outbox} {taken : List Message} (h : o.Fifo taken) (message : Message) :
    (o.queue message).1.Fifo taken := by
  cases hopen : o.abandoned || o.finished with
  | true => rwa [queue_of_closed hopen]
  | false =>
    have hall : taken ++ o.queued = o.accepted := h.whole (Bool.or_eq_false_iff.mp hopen).1
    have hall' : taken ++ (o.queued ++ [message]) = o.accepted ++ [message] := by
      rw [← List.append_assoc, hall]
    rw [queue_of_open hopen]
    exact ⟨hall' ▸ List.prefix_rfl, fun _ => hall'⟩

theorem Fifo.abandon {o : Outbox} {taken : List Message} (h : o.Fifo taken) :
    o.abandon.Fifo taken := by
  unfold Outbox.abandon
  split
  · exact h
  · refine ⟨?_, nofun⟩
    rw [List.append_nil]
    exact (List.prefix_append _ _).trans h.start

/-- Its client is told that it was displaced, or the connection is given
up. -/
def Noticed (o : Outbox) : Prop := .displaced ∈ o.accepted ∨ o.abandoned = true

/-- What every operation but `finish` keeps. -/
structure Later (o o' : Outbox) : Prop where
  finished : o'.finished = o.finished
  noticed : o.Noticed → o'.Noticed
  fifo : ∀ taken, o.Fifo taken → o'.Fifo taken

theorem Later.refl (o : Outbox) : Later o o := ⟨rfl, id, fun _ => id⟩

theorem Later.trans {o o' o'' : Outbox} (h : Later o o') (h' : Later o' o'') : Later o o'' :=
  ⟨h'.finished.trans h.finished, fun hn => h'.noticed (h.noticed hn),
    fun taken hf => h'.fifo taken (h.fifo taken hf)⟩

theorem later_queue (o : Outbox) (message : Message) : Later o (o.queue message).1 := by
  refine ⟨o.queue_finished message, fun h => ?_, fun taken h => h.queue message⟩
  cases hopen : o.abandoned || o.finished with
  | true => rwa [queue_of_closed hopen]
  | false =>
    rw [queue_of_open hopen]
    exact h.imp_left fun hmem => List.mem_append_left _ hmem

theorem later_abandon (o : Outbox) : Later o o.abandon :=
  ⟨o.abandon_finished, fun _ => .inr o.abandon_abandoned, fun _ h => h.abandon⟩

theorem later_send (o : Outbox) (message : Message) : Later o (o.send message) := by
  have hqueue := o.later_queue message
  show Later o (if (o.queue message).2 then (o.queue message).1.abandon else (o.queue message).1)
  split
  · exact hqueue.trans (o.queue message).1.later_abandon
  · exact hqueue

/-- A notice is queued, or the outbox was abandoned. -/
theorem noticed_queue {o : Outbox} (h : o.finished = false) :
    (o.queue .displaced).1.Noticed := by
  cases hab : o.abandoned with
  | true => exact .inr ((o.queue_abandoned _).trans hab)
  | false =>
    rw [queue_of_open (by rw [hab, h]; rfl)]
    exact .inl (List.mem_append_right _ (List.mem_singleton.mpr rfl))

/-- Nothing more is accepted, and an abandoned outbox stays so. -/
structure Kept (o o' : Outbox) : Prop where
  accepted : o'.accepted = o.accepted
  abandoned : o'.abandoned = false → o.abandoned = false

theorem Kept.refl (o : Outbox) : Kept o o := ⟨rfl, id⟩

theorem kept_abandon (o : Outbox) : Kept o o.abandon := by
  refine ⟨o.abandon_accepted, fun h => ?_⟩
  rw [o.abandon_abandoned] at h
  exact nomatch h

theorem kept_finish (o : Outbox) : Kept o o.finish := ⟨rfl, id⟩

/-- A message taken is the head of the queue of an outbox that is not
abandoned. -/
theorem takeNext_some {o o' : Outbox} {message : Message}
    (h : o.takeNext = some (some message, o')) :
    o.abandoned = false ∧ ∃ queued, o.queued = message :: queued ∧
      o' = { o with queued, pendingBytes := o.pendingBytes - payloadLen message } := by
  unfold takeNext at h
  split at h
  · simp at h
  · next hab =>
    split at h
    · next hq =>
      simp only [Option.some.injEq, Prod.mk.injEq] at h
      obtain ⟨rfl, rfl⟩ := h
      exact ⟨Bool.not_eq_true _ ▸ hab, _, hq, rfl⟩
    · split at h <;> simp at h

theorem takeNext_kept {o o' : Outbox} {message : Message}
    (h : o.takeNext = some (some message, o')) :
    o'.finished = o.finished ∧ (o.Noticed → o'.Noticed) := by
  obtain ⟨_, _, _, rfl⟩ := takeNext_some h
  exact ⟨rfl, id⟩

theorem kept_takeNext {o o' : Outbox} {message : Message}
    (h : o.takeNext = some (some message, o')) : Kept o o' := by
  obtain ⟨_, _, _, rfl⟩ := takeNext_some h
  exact ⟨rfl, id⟩

theorem Fifo.takeNext {o o' : Outbox} {message : Message} {taken : List Message}
    (h : o.Fifo taken) (htake : o.takeNext = some (some message, o')) :
    o'.Fifo (taken ++ [message]) := by
  obtain ⟨_, queued, hq, rfl⟩ := takeNext_some htake
  have hmove : taken ++ [message] ++ queued = taken ++ o.queued := by
    rw [hq, List.append_assoc, List.singleton_append]
  exact ⟨hmove ▸ h.start, fun hab => hmove ▸ h.whole hab⟩

end Outbox

end Folo.Dure
