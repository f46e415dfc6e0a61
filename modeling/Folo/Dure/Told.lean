import Folo.Dure.Outbox

/-!
# What one connection is told

The grammar of a connection's messages: one `Attached`, the opening output,
output in the order of the app, at most one terminal message. `Told` says
how far the outbox of a connection is in it, from what was routed to the
connection (`routed`), what of this the pump still has in its hands
(`inHand`), what of the opening output is not queued yet (`pending`), and
whether the connection is being closed (`closed`). Each operation on the
outbox has one lemma.
-/

namespace Folo.Dure

/-- What may stand at the end of a connection's messages. -/
inductive Terminal : List Message → Prop
  | none : Terminal []
  | displaced : Terminal [.displaced]
  | appExited (status : Int32) : Terminal [.appExited status]

/-- `Attached`, the opening output, output, and the end. -/
def messages (id : SessionId) (opening : List Message) (outputs : List (List UInt8))
    (terminal : List Message) : List Message :=
  .attached id :: (opening ++ (outputs.map .output ++ terminal))

/-- How far an outbox is: what it accepted is a part of the grammar, all of
it unless it was abandoned, and without an end unless it is being closed. -/
structure ToldWith (id : SessionId) (opening pending : List Message)
    (routed inHand : List (List UInt8)) (closed : Bool) (o : Outbox)
    (outputs : List (List UInt8)) (terminal : List Message) : Prop where
  ends : Terminal terminal
  accepted : o.accepted <+: messages id opening outputs terminal
  sent : outputs <+: routed
  whole : o.abandoned = false → o.accepted ++ pending = messages id opening outputs terminal
  unended : closed = false → terminal = []
  current : o.abandoned = false → closed = false → outputs ++ inHand = routed

/-- An outbox is somewhere in the grammar. -/
def Told (id : SessionId) (opening pending : List Message) (routed inHand : List (List UInt8))
    (closed : Bool) (o : Outbox) : Prop :=
  ∃ outputs terminal, ToldWith id opening pending routed inHand closed o outputs terminal

theorem messages_output (id : SessionId) (opening : List Message) (outputs : List (List UInt8))
    (bytes : List UInt8) :
    messages id opening (outputs ++ [bytes]) [] =
      messages id opening outputs [] ++ [.output bytes] := by
  simp only [messages, List.map_append, List.map_cons, List.map_nil, List.append_nil,
    List.cons_append, List.append_assoc]

theorem messages_end (id : SessionId) (opening : List Message) (outputs : List (List UInt8))
    (terminal : List Message) :
    messages id opening outputs terminal = messages id opening outputs [] ++ terminal := by
  simp only [messages, List.append_nil, List.cons_append, List.append_assoc]

variable {id : SessionId} {opening pending : List Message} {routed inHand : List (List UInt8)}
  {closed : Bool} {o : Outbox}

namespace Told

/-- A connection may start to be closed at any time. -/
theorem close (h : Told id opening pending routed inHand closed o) {closed' : Bool}
    (hclosed : closed = true → closed' = true) :
    Told id opening pending routed inHand closed' o := by
  obtain ⟨outputs, terminal, h⟩ := h
  have hopen : closed' = false → closed = false := fun hc =>
    Bool.not_eq_true _ ▸ fun ht => Bool.false_ne_true (hc.symm.trans (hclosed ht))
  exact ⟨outputs, terminal, h.ends, h.accepted, h.sent, h.whole,
    fun hc => h.unended (hopen hc), fun hab hc => h.current hab (hopen hc)⟩

/-- Only what was accepted matters, and abandoning only takes duties off. -/
theorem keep (h : Told id opening pending routed inHand closed o) {o' : Outbox}
    (hkept : o.Kept o') : Told id opening pending routed inHand closed o' := by
  obtain ⟨outputs, terminal, h⟩ := h
  refine ⟨outputs, terminal, h.ends, ?_, h.sent, fun hab => ?_, h.unended, fun hab => ?_⟩
  · rw [hkept.accepted]
    exact h.accepted
  · rw [hkept.accepted]
    exact h.whole (hkept.abandoned hab)
  · exact h.current (hkept.abandoned hab)

/-- A burst is routed to the connection. -/
theorem route (h : Told id opening pending routed [] closed o) (bytes : List UInt8) :
    Told id opening pending (routed ++ [bytes]) [bytes] closed o := by
  obtain ⟨outputs, terminal, h⟩ := h
  refine ⟨outputs, terminal, h.ends, h.accepted, h.sent.trans (List.prefix_append _ _),
    h.whole, h.unended, fun hab hc => ?_⟩
  rw [← h.current hab hc, List.append_nil]

/-- The pump queues it, unless the connection is being closed. -/
theorem output {bytes : List UInt8} (h : Told id opening [] routed [bytes] closed o)
    (hfinished : o.finished = true → closed = true)
    (hopen : o.abandoned = false → o.finished = false → closed = false) :
    Told id opening [] routed [] closed (o.queue (.output bytes)).1 := by
  obtain ⟨outputs, terminal, h⟩ := h
  cases hab : o.abandoned with
  | true =>
    rw [Outbox.queue_of_closed (by rw [hab]; rfl)]
    have hgone : o.abandoned ≠ false := by
      rw [hab]
      exact nofun
    exact ⟨outputs, terminal, h.ends, h.accepted, h.sent, h.whole, h.unended,
      fun hab => absurd hab hgone⟩
  | false =>
    cases hfin : o.finished with
    | true =>
      rw [Outbox.queue_of_closed (by rw [hab, hfin]; rfl)]
      have hclosed : closed ≠ false := by
        rw [hfinished hfin]
        exact nofun
      exact ⟨outputs, terminal, h.ends, h.accepted, h.sent, h.whole, h.unended,
        fun _ hc => absurd hc hclosed⟩
    | false =>
      have hc := hopen hab hfin
      obtain rfl := h.unended hc
      have hall : o.accepted ++ [.output bytes] = messages id opening (outputs ++ [bytes]) [] := by
        rw [messages_output, ← h.whole hab, List.append_nil]
      have hcur := h.current hab hc
      rw [Outbox.queue_of_open (by rw [hab, hfin]; rfl)]
      refine ⟨outputs ++ [bytes], [], .none, hall ▸ List.prefix_rfl, hcur ▸ List.prefix_rfl,
        fun _ => ?_, fun _ => rfl, fun _ _ => ?_⟩
      · rw [List.append_nil, hall]
      · rw [List.append_nil, hcur]

/-- The terminal message is queued, and the connection is being closed. -/
theorem terminate (h : Told id opening [] routed inHand false o) {message : Message}
    (hmessage : Terminal [message]) :
    Told id opening [] routed inHand true (o.queue message).1 := by
  obtain ⟨outputs, terminal, h⟩ := h
  obtain rfl := h.unended rfl
  cases hopen : o.abandoned || o.finished with
  | true =>
    rw [Outbox.queue_of_closed hopen]
    exact ⟨outputs, [], .none, h.accepted, h.sent, h.whole, nofun, fun _ => nofun⟩
  | false =>
    have hab := (Bool.or_eq_false_iff.mp hopen).1
    have hall : o.accepted ++ [message] = messages id opening outputs [message] := by
      rw [messages_end, ← h.whole hab, List.append_nil]
    rw [Outbox.queue_of_open hopen]
    refine ⟨outputs, [message], hmessage, hall ▸ List.prefix_rfl, h.sent, fun _ => ?_, nofun,
      fun _ => nofun⟩
    rw [List.append_nil, hall]

/-! ## The opening -/

theorem acknowledge (hnone : o.accepted = []) (hfinished : o.finished = false) :
    Told id [] [] [] [] false (o.send (.attached id)) := by
  have hqueue : Told id [] [] [] [] false (o.queue (.attached id)).1 := by
    cases hab : o.abandoned with
    | true =>
      rw [Outbox.queue_of_closed (by rw [hab]; rfl)]
      refine ⟨[], [], .none, hnone ▸ List.nil_prefix, List.prefix_rfl, fun hf => ?_, fun _ => rfl,
        fun _ _ => rfl⟩
      rw [hab] at hf
      exact nomatch hf
    | false =>
      rw [Outbox.queue_of_open (by rw [hab, hfinished]; rfl), hnone]
      exact ⟨[], [], .none, List.prefix_rfl, List.prefix_rfl, fun _ => rfl, fun _ => rfl,
        fun _ _ => rfl⟩
  show Told id [] [] [] [] false
    (if (o.queue (.attached id)).2 then (o.queue (.attached id)).1.abandon
      else (o.queue (.attached id)).1)
  split
  · exact hqueue.keep (Outbox.kept_abandon _)
  · exact hqueue

/-- The hold becomes the opening output, none of it queued. -/
theorem takePreamble (h : Told id [] [] [] [] false o) (held : List Message) :
    Told id held held [] [] false o := by
  obtain ⟨outputs, terminal, h⟩ := h
  obtain rfl := h.unended rfl
  obtain rfl := List.prefix_nil.mp h.sent
  refine ⟨[], [], .none, h.accepted.trans ?_, List.prefix_rfl, fun hab => ?_, fun _ => rfl,
    fun _ _ => rfl⟩
  · exact ⟨held, by simp only [messages, List.map_nil, List.append_nil,
      List.singleton_append]⟩
  · have hall : o.accepted = messages id [] [] [] := by
      rw [← h.whole hab, List.append_nil]
    rw [hall]
    simp only [messages, List.map_nil, List.append_nil, List.singleton_append]

/-- The next chunk of it is queued. -/
theorem sendHeld {message : Message} {rest : List Message}
    (h : Told id opening (message :: rest) routed inHand closed o)
    (hfinished : o.finished = false) :
    Told id opening rest routed inHand closed (o.send message) := by
  have hqueue : Told id opening rest routed inHand closed (o.queue message).1 := by
    obtain ⟨outputs, terminal, h⟩ := h
    cases hab : o.abandoned with
    | true =>
      rw [Outbox.queue_of_closed (by rw [hab]; rfl)]
      have hgone : o.abandoned ≠ false := by
        rw [hab]
        exact nofun
      exact ⟨outputs, terminal, h.ends, h.accepted, h.sent, fun hab => absurd hab hgone,
        h.unended, fun hab => absurd hab hgone⟩
    | false =>
      have hall := h.whole hab
      rw [← List.singleton_append, ← List.append_assoc] at hall
      rw [Outbox.queue_of_open (by rw [hab, hfinished]; rfl)]
      exact ⟨outputs, terminal, h.ends, hall ▸ List.prefix_append _ _, h.sent,
        fun _ => hall, h.unended, h.current⟩
  show Told id opening rest routed inHand closed
    (if (o.queue message).2 then (o.queue message).1.abandon else (o.queue message).1)
  split
  · exact hqueue.keep (Outbox.kept_abandon _)
  · exact hqueue

end Told

end Folo.Dure
