import Folo.Dure.Ownership
import Folo.Dure.Told

/-!
# The stream of every connection

Where every connection is in the grammar of `Told`, in runs in which the
pump does not queue a burst on an outbox between its displacement notice and
its end (`InTime`). `route_output` chooses the client under the slot's lock
and queues after it, and `attach_client` queues the notice and finishes the
outbox in two sections, so a burst may come between; then it stands behind
the notice (`output_after_displaced`).
-/

namespace Folo.Dure

open Folo.Lib

/-! ## What a place in the code means -/

/-- The connection whose notice is queued and whose outbox is not finished. -/
def AttachLock.noticing : AttachLock → Option ConnId
  | attaching _ _ (.abandonOld old) | attaching _ _ (.finishOld old) => some old
  | _ => none

/-- What of its opening output an attach has still to queue. -/
def AttachLock.pending (conn : ConnId) : AttachLock → List Message
  | attaching c _ (.sendHeld rest) => if c = conn then rest else []
  | _ => []

/-- An attach that has taken the opening output, and not the slot. -/
def AttachLock.opening : AttachLock → Bool
  | attaching _ _ (.sendHeld _) | attaching _ _ .install => true
  | _ => false

/-- The client that the pump has chosen. -/
def PumpPc.owner : PumpPc → Option ConnId
  | send owner _ | abandon owner => some owner
  | _ => none

/-- The burst that the pump has not queued yet. -/
def PumpPc.inHand (conn : ConnId) : PumpPc → List (List UInt8)
  | send owner bytes => if owner = conn then [bytes] else []
  | _ => []

/-- The pump has been joined. -/
def MainPc.joined : MainPc → Bool
  | waitApp | checkFailed _ | awaitFirstAttach _ | joinPump _ => false
  | _ => true

/-- The last client, once its outcome is queued or there is none. -/
def MainPc.closing : MainPc → Option ConnId
  | abandonLast client | finishLast client => some client
  | _ => none

/-- What the app wrote first, up to the backlog cap. -/
def openingOutput (bursts : List (List UInt8)) : List UInt8 :=
  bursts.flatten.take maxClientBacklogBytes

/-- Holding one more burst. -/
theorem hold_openingOutput (bursts : List (List UInt8)) (bytes : List UInt8) :
    holdForFirstClient (some (openingOutput bursts)) bytes =
      some (openingOutput (bursts ++ [bytes])) := by
  have hroom : maxClientBacklogBytes - (bursts.flatten.take maxClientBacklogBytes).length =
      maxClientBacklogBytes - bursts.flatten.length := by
    rw [List.length_take]
    omega
  rw [holdForFirstClient, Option.map_some, openingOutput, openingOutput, hroom, List.flatten_append,
    List.flatten_singleton, List.take_append]

namespace Session

/-- The opening output that a connection was given. -/
def opening (s : Session) (conn : ConnId) : List Message :=
  match s.history.opened with
  | some (c, n) =>
    if c = conn then preambleMessages (openingOutput ((s.history.routed.take n).map Prod.snd))
    else []
  | none => []

/-- The bursts that were routed to a connection. -/
def routedTo (s : Session) (conn : ConnId) : List (List UInt8) :=
  s.history.routed.filterMap fun r => if r.1 = some conn then some r.2 else none

/-- The outbox of a connection is finished, or about to be. -/
def closed (s : Session) (conn : ConnId) : Bool :=
  (s.outbox conn).finished || decide (s.shared.attach.noticing = some conn) ||
    decide (s.main.closing = some conn)

/-- Where a connection is in the grammar. -/
def Told (s : Session) (conn : ConnId) : Prop :=
  Dure.Told s.sessionId (s.opening conn) (s.shared.attach.pending conn) (s.routedTo conn)
    (s.pump.inHand conn) (s.closed conn) (s.outbox conn)

end Session

/-- The invariant. -/
structure Streams (s : Session) : Prop where
  told : ∀ c ∈ s.history.acknowledged, s.Told c
  silent : ∀ c, c ∉ s.history.acknowledged → (s.outbox c).accepted = []
  routed : ∀ c bytes, (some c, bytes) ∈ s.history.routed → c ∈ s.history.owners
  pump : ∀ c, s.pump.owner = some c → c ∈ s.history.owners
  joined : s.main.joined = true → ∃ ok, s.pump = .done ok
  opened : ∀ c n, s.history.opened = some (c, n) → s.history.acknowledged.head? = some c ∧
    n ≤ s.history.routed.length ∧ ∀ r ∈ s.history.routed.take n, r.1 = none
  preamble : ∀ held, s.shared.preamble = some held → s.history.opened = none ∧
    s.history.owners = [] ∧ held = openingOutput (s.history.routed.map Prod.snd)
  opening : s.shared.attach.opening = true → s.shared.preamble = none

theorem streams_start (id : SessionId) : Streams (.start id) where
  told := nofun
  silent _ _ := rfl
  routed := nofun
  pump := nofun
  joined := nofun
  opened := nofun
  preamble _ hheld := ⟨rfl, rfl, (Option.some.inj hheld).symm⟩
  opening := nofun

/-! ## Steps that queue nothing -/

/-- A step that neither queues nor routes anything. -/
structure Still (s s' : Session) : Prop where
  kept : ∀ c, (s.outbox c).Kept (s'.outbox c)
  pending : ∀ c, s'.shared.attach.pending c = s.shared.attach.pending c
  closed : ∀ c, s.closed c = true → s'.closed c = true
  opening : s'.shared.attach.opening = true → s'.shared.preamble = none
  inHand : ∀ c, s'.pump.inHand c = s.pump.inHand c
  owner : ∀ c, s'.pump.owner = some c → s.pump.owner = some c
  joined : s'.main.joined = true → s.main.joined = true ∧ s'.pump = s.pump ∨
    ∃ ok, s'.pump = .done ok
  owners : ∀ c ∈ s.history.owners, c ∈ s'.history.owners
  preamble : ∀ held, s'.shared.preamble = some held →
    s.shared.preamble = some held ∧ s'.history.owners = s.history.owners
  id : s'.sessionId = s.sessionId
  routed : s'.history.routed = s.history.routed
  opened : s'.history.opened = s.history.opened
  acknowledged : s'.history.acknowledged = s.history.acknowledged

/-- What a step that neither queues nor routes anything leaves alone. -/
structure StillFrame (s s' : Session) : Prop where
  pump : s'.pump = s.pump
  preamble : s'.shared.preamble = s.shared.preamble
  id : s'.sessionId = s.sessionId
  routed : s'.history.routed = s.history.routed
  opened : s'.history.opened = s.history.opened
  acknowledged : s'.history.acknowledged = s.history.acknowledged
  owners : s'.history.owners = s.history.owners

/-- Where a connection is in the grammar that a step leaves alone. -/
theorem told_congr {s s' : Session} {c : ConnId} (h : s.Told c)
    (hkept : (s.outbox c).Kept (s'.outbox c)) (hclosed : s.closed c = true → s'.closed c = true)
    (hpending : s'.shared.attach.pending c = s.shared.attach.pending c)
    (hopened : s'.history.opened = s.history.opened)
    (hrouted : s'.history.routed = s.history.routed)
    (hinHand : s'.pump.inHand c = s.pump.inHand c) (hid : s'.sessionId = s.sessionId) :
    s'.Told c := by
  have hopening : s'.opening c = s.opening c := by
    rw [Session.opening, Session.opening, hopened, hrouted]
  have hroutedTo : s'.routedTo c = s.routedTo c := by
    rw [Session.routedTo, Session.routedTo, hrouted]
  rw [Session.Told, hid, hopening, hpending, hroutedTo, hinHand]
  exact (Told.keep h hkept).close hclosed

theorem Streams.still {s s' : Session} (h : Streams s) (hs : Still s s') : Streams s' where
  told c hc := told_congr (h.told c (hs.acknowledged ▸ hc)) (hs.kept c) (hs.closed c)
    (hs.pending c) hs.opened hs.routed (hs.inHand c) hs.id
  silent c hc := (hs.kept c).accepted.trans (h.silent c (hs.acknowledged ▸ hc))
  routed c bytes hmem := hs.owners c (h.routed c bytes (hs.routed ▸ hmem))
  pump c hc := hs.owners c (h.pump c (hs.owner c hc))
  joined hj := (hs.joined hj).elim (fun ⟨hj, hp⟩ => hp ▸ h.joined hj) fun hp => hp
  opened c n hopened := by
    rw [hs.acknowledged, hs.routed]
    exact h.opened c n (hs.opened ▸ hopened)
  preamble held hheld := by
    obtain ⟨hpre, howners⟩ := hs.preamble held hheld
    rw [hs.opened, hs.routed, howners]
    exact h.preamble held hpre
  opening := hs.opening

/-- A connection stays closed. -/
theorem closed_of {s s' : Session} {c : ConnId}
    (hfinished : (s.outbox c).finished = true → (s'.outbox c).finished = true)
    (hnoticing : s.shared.attach.noticing = some c →
      s'.shared.attach.noticing = some c ∨ (s'.outbox c).finished = true)
    (hclosing : s.main.closing = some c → s'.main.closing = some c ∨
      (s'.outbox c).finished = true) (h : s.closed c = true) : s'.closed c = true := by
  simp only [Session.closed, Bool.or_eq_true, decide_eq_true_eq] at h ⊢
  obtain (h | h) | h := h
  · exact .inl (.inl (hfinished h))
  · exact .inl ((hnoticing h).symm)
  · rcases hclosing h with h | h
    · exact .inr h
    · exact .inl (.inl h)

/-! ## Where a connection stands -/

section Standing

variable {s : Session} {c : ConnId}

theorem not_closed (hfinished : (s.outbox c).finished = false)
    (hnoticing : s.shared.attach.noticing ≠ some c) (hclosing : s.main.closing ≠ some c) :
    s.closed c = false := by
  rw [Session.closed, hfinished, decide_eq_false hnoticing, decide_eq_false hclosing]
  rfl

theorem held_of_noticing {lock : AttachLock} (h : lock.noticing = some c) :
    lock.held = some c := by
  unfold AttachLock.noticing at h
  split at h
  · exact h
  · exact h
  · exact nomatch h

theorem last_of_closing {main : MainPc} (h : main.closing = some c) : main.last = some c := by
  unfold MainPc.closing at h
  split at h
  · exact h
  · exact h
  · exact nomatch h

theorem owner_of_inHand {pump : PumpPc} (h : pump.inHand c ≠ []) : pump.owner = some c := by
  unfold PumpPc.inHand at h
  split at h
  · split at h
    · next heq => exact congrArg some heq
    · exact absurd rfl h
  · exact absurd rfl h

theorem held_tenure (h : s.shared.attach.held = some c) : c ∈ s.tenure :=
  List.mem_append_right _ (List.mem_append_left _ (Option.mem_toList.mpr h))

theorem last_tenure (h : s.main.last = some c) : c ∈ s.tenure :=
  List.mem_append_right _ (List.mem_append_right _ (Option.mem_toList.mpr h))

/-- The connection that is displaced and the last client are two. -/
theorem Ownership.held_ne_last (ho : Ownership s) (hheld : s.shared.attach.held = some c) :
    s.main.last ≠ some c := by
  intro hlast
  have hnodup := (List.nodup_append.mp ho.tenure).2.1
  exact (List.nodup_append.mp hnodup).2.2 c (Option.mem_toList.mpr hheld) c
    (Option.mem_toList.mpr hlast) rfl

/-- Nobody but an owner is being closed. -/
theorem Ownership.not_closed_of_not_owner (ho : Ownership s) (hc : c ∉ s.history.owners) :
    s.closed c = false :=
  not_closed (Bool.not_eq_true _ ▸ fun hfin => hc (ho.finished c hfin))
    (fun h => hc (ho.unfinished c (held_tenure (held_of_noticing h))).1)
    (fun h => hc (ho.unfinished c (last_tenure (last_of_closing h))).1)

theorem Streams.routedTo_nil (h : Streams s) (hc : c ∉ s.history.owners) :
    s.routedTo c = [] := by
  refine List.filterMap_eq_nil_iff.mpr fun r hr => if_neg fun heq => hc ?_
  exact h.routed c r.2 (heq ▸ hr)

theorem Streams.inHand_nil (h : Streams s) (hc : c ∉ s.history.owners) :
    s.pump.inHand c = [] := by
  by_contra hne
  exact hc (h.pump c (owner_of_inHand hne))

/-- While an attach is at its opening, no other connection is. -/
theorem pending_of_ne {conn : ConnId} {size : WindowSize} {pc : AttachPc} (hc : c ≠ conn) :
    AttachLock.pending c (.attaching conn size pc) = [] := by
  cases pc with
  | sendHeld rest => exact if_neg (Ne.symm hc)
  | _ => rfl

end Standing

theorem kept_setOutbox {s : Session} {conn : ConnId} {o : Outbox}
    (h : (s.outbox conn).Kept o) (c : ConnId) :
    (s.outbox c).Kept ((s.setOutbox conn o).outbox c) := by
  by_cases hc : c = conn
  · rw [hc, s.setOutbox_self]
    exact h
  · rw [s.setOutbox_of_ne hc]
    exact .refl _

theorem finished_finish {s : Session} {conn c : ConnId} (h : (s.outbox c).finished = true) :
    ((s.finish conn).outbox c).finished = true := by
  by_cases hc : c = conn
  · rw [hc]
    exact congrArg Outbox.finished (s.setOutbox_self _)
  · rw [Session.finish, s.setOutbox_of_ne hc, h]

/-- One connection is told something more; the others are left alone. -/
theorem Streams.tell {s s' : Session} (h : Streams s) {c : ConnId} {o : Outbox}
    (hmem : c ∈ s.history.acknowledged) (hout : s'.outbox = (s.setOutbox c o).outbox)
    (htold : s.Told c → s'.Told c)
    (hpending : ∀ d, d ≠ c → s'.shared.attach.pending d = s.shared.attach.pending d)
    (hclosed : ∀ d, s.closed d = true → s'.closed d = true)
    (hinHand : ∀ d, d ≠ c → s'.pump.inHand d = s.pump.inHand d)
    (hpump : ∀ d, s'.pump.owner = some d → d ∈ s.history.owners)
    (hjoined : s'.main.joined = true → ∃ ok, s'.pump = .done ok)
    (hopening : s'.shared.attach.opening = true → s'.shared.preamble = none)
    (hpreamble : s'.shared.preamble = s.shared.preamble) (hid : s'.sessionId = s.sessionId)
    (hhistory : s'.history = s.history) : Streams s' := by
  have hother : ∀ d, d ≠ c → s'.outbox d = s.outbox d := fun d hd => by
    rw [hout, s.setOutbox_of_ne hd]
  refine ⟨fun d hd => ?_, fun d hd => ?_, hhistory ▸ h.routed, hhistory ▸ hpump, hjoined,
    hhistory ▸ h.opened, ?_, hopening⟩
  · rw [hhistory] at hd
    by_cases heq : d = c
    · exact heq ▸ htold (h.told c hmem)
    · refine told_congr (h.told d hd) ?_ (hclosed d) (hpending d heq) (hhistory ▸ rfl)
        (hhistory ▸ rfl) (hinHand d heq) hid
      rw [hother d heq]
      exact .refl _
  · rw [hhistory] at hd
    rw [hother d fun heq => hd (heq ▸ hmem)]
    exact h.silent d hd
  · rw [hpreamble, hhistory]
    exact h.preamble

/-! ## `attach_client` -/

section Attach

variable {s s' : Session} {conn : ConnId} {size : WindowSize} {panics : Bool}

/-- An attach that has been acknowledged and not installed is no owner. -/
theorem Ownership.greeting_new (ho : Ownership s) (h : s.shared.attach.greeting = some conn) :
    conn ∉ s.history.owners ∧ conn ∈ s.history.acknowledged := by
  have horder := ho.order
  rw [h] at horder
  refine ⟨fun hmem => ?_, ?_⟩
  · exact (List.nodup_append.mp (horder ▸ ho.nodup)).2.2 conn hmem conn
      (List.mem_singleton_self _) rfl
  · rw [horder]
    exact List.mem_append_right _ (List.mem_singleton_self _)

/-- A step of an attach that queues nothing. -/
theorem Streams.attachStill (h : Streams s) {pc pc' : AttachPc}
    (hlock : s.shared.attach = .attaching conn size pc)
    (hattach : s'.shared.attach = .attaching conn size pc')
    (hkept : ∀ c, (s.outbox c).Kept (s'.outbox c))
    (hfinished : ∀ c, (s.outbox c).finished = true → (s'.outbox c).finished = true)
    (hpending : ∀ c, AttachLock.pending c (.attaching conn size pc') =
      AttachLock.pending c (.attaching conn size pc))
    (hnoticing : ∀ c, AttachLock.noticing (.attaching conn size pc) = some c →
      AttachLock.noticing (.attaching conn size pc') = some c ∨ (s'.outbox c).finished = true)
    (hopening : AttachLock.opening (.attaching conn size pc') = true →
      AttachLock.opening (.attaching conn size pc) = true)
    (hmain : s'.main = s.main) (hframe : StillFrame s s') : Streams s' := by
  obtain ⟨hpump, hpreamble, hid, hrouted, hopened, hack, howners⟩ := hframe
  refine h.still
    { kept := hkept
      pending := fun c => by rw [hattach, hlock, hpending]
      closed := fun c => closed_of (hfinished c) (fun hn => ?_) fun hc => .inl (hmain ▸ hc)
      opening := fun hopen => ?_
      inHand := fun _ => hpump ▸ rfl
      owner := fun _ hc => hpump ▸ hc
      joined := fun hj => .inl ⟨hmain ▸ hj, hpump⟩
      owners := fun _ hc => howners ▸ hc
      preamble := fun _ hheld => ⟨hpreamble ▸ hheld, howners⟩
      id := hid, routed := hrouted, opened := hopened, acknowledged := hack }
  · rw [hlock] at hn
    rw [hattach]
    exact hnoticing c hn
  · rw [hpreamble]
    rw [hattach] at hopen
    exact h.opening (hlock ▸ hopening hopen)

theorem Streams.acknowledge (h : Streams s) (ho : Ownership s)
    (hlock : s.shared.attach = .attaching conn size .acknowledge)
    (hs : s.stepAttach conn size panics .acknowledge = some s') : Streams s' := by
  have hnew := (ho.attaching hlock).2.1
  obtain rfl := Option.some.inj hs
  have horder : s.history.acknowledged = s.history.owners := by
    rw [ho.order, hlock]
    exact List.append_nil _
  have hnot : conn ∉ s.history.owners := horder ▸ hnew
  have hfinished : (s.outbox conn).finished = false :=
    Bool.not_eq_true _ ▸ fun hfin => hnot (ho.finished conn hfin)
  have hopened : s.opening conn = [] := by
    unfold Session.opening
    split
    · next c n hop =>
      refine if_neg fun heq => hnew ?_
      exact List.mem_of_mem_head? (heq ▸ (h.opened c n hop).1)
    · rfl
  refine ⟨fun c hc => ?_, fun c hc => ?_, h.routed, h.pump, h.joined, fun c n hop => ?_,
    h.preamble, nofun⟩
  · by_cases heq : c = conn
    · rw [heq]
      show Dure.Told s.sessionId (s.opening conn) [] (s.routedTo conn) (s.pump.inHand conn) _
        ((s.setOutbox conn _).outbox conn)
      rw [hopened, h.routedTo_nil hnot, h.inHand_nil hnot, s.setOutbox_self]
      exact (Told.acknowledge (h.silent conn hnew) hfinished).close nofun
    · have hmem : c ∈ s.history.acknowledged :=
        (List.mem_append.mp hc).resolve_right fun hin => heq (List.mem_singleton.mp hin)
      have hsame := s.setOutbox_of_ne heq ((s.outbox conn).send (.attached s.sessionId))
      refine told_congr (h.told c hmem) ⟨congrArg Outbox.accepted hsame, fun hab => ?_⟩
        (closed_of (fun hfin => ?_) (fun hn => ?_) .inl) ?_ rfl rfl rfl rfl
      · exact congrArg Outbox.abandoned hsame ▸ hab
      · exact (congrArg Outbox.finished hsame).trans hfin
      · rw [hlock] at hn
        exact nomatch hn
      · rw [hlock]
        rfl
  · have hne : c ≠ conn := fun heq => hc (heq ▸ List.mem_append_right _ (List.mem_singleton_self _))
    exact (congrArg Outbox.accepted (s.setOutbox_of_ne hne _)).trans
      (h.silent c fun hin => hc (List.mem_append_left _ hin))
  · obtain ⟨hhead, hbound, hnone⟩ := h.opened c n hop
    refine ⟨?_, hbound, hnone⟩
    show (s.history.acknowledged ++ [conn]).head? = some c
    rw [List.head?_append, hhead]
    rfl

theorem Streams.takePreamble (h : Streams s) (ho : Ownership s)
    (hlock : s.shared.attach = .attaching conn size .takePreamble)
    (hs : s.stepAttach conn size panics .takePreamble = some s') : Streams s' := by
  have hgreeting : s.shared.attach.greeting = some conn := by rw [hlock]; rfl
  obtain ⟨hnot, hack⟩ := ho.greeting_new hgreeting
  cases hpre : s.shared.preamble with
  | none =>
    simp only [Session.stepAttach, hpre, if_true, Option.getD_none] at hs
    obtain rfl := Option.some.inj hs
    refine h.still ⟨fun c => .refl _, fun c => ?_, fun c => closed_of id (fun hn => ?_) .inl,
      fun _ => rfl, fun _ => rfl, fun _ => id, fun hj => .inl ⟨hj, rfl⟩, fun _ => id, (by intros; contradiction), rfl,
      rfl, rfl, rfl⟩
    · rw [hlock]
      exact ite_self _
    · rw [hlock] at hn
      cases hn
  | some held =>
    simp only [Session.stepAttach, hpre, reduceCtorEq, if_false, Option.getD_some] at hs
    obtain rfl := Option.some.inj hs
    obtain ⟨hopened, howners, hheld⟩ := h.preamble held hpre
    have honly : s.history.acknowledged = [conn] := by
      rw [ho.order, howners, hlock]
      rfl
    refine ⟨fun c hc => ?_, h.silent, h.routed, h.pump, h.joined, fun c n hop => ?_, (by intros; contradiction),
      fun _ => rfl⟩
    · have hc' : c ∈ s.history.acknowledged := hc
      rw [honly] at hc'
      obtain rfl := List.mem_singleton.mp hc'
      have htold := h.told c hack
      have hnone : s.opening c = [] := by
        rw [Session.opening, hopened]
      rw [Session.Told, hnone, hlock, h.routedTo_nil hnot, h.inHand_nil hnot,
        ho.not_closed_of_not_owner hnot] at htold
      show Dure.Told s.sessionId
        (if c = c then preambleMessages (openingOutput
          ((s.history.routed.take s.history.routed.length).map Prod.snd)) else [])
        (if c = c then preambleMessages held else []) (s.routedTo c) (s.pump.inHand c) _
        (s.outbox c)
      rw [if_pos rfl, if_pos rfl, List.take_length, ← hheld, h.routedTo_nil hnot,
        h.inHand_nil hnot]
      exact (Told.takePreamble htold _).close (by intros; contradiction)
    · obtain ⟨rfl, rfl⟩ := Prod.mk.inj (Option.some.inj hop)
      refine ⟨congrArg List.head? honly, Nat.le_refl _, fun r hr => ?_⟩
      cases hr1 : r.1 with
      | none => rfl
      | some d =>
        have hmem : (some d, r.2) ∈ s.history.routed := hr1 ▸ List.mem_of_mem_take hr
        exact absurd (howners ▸ h.routed d r.2 hmem) List.not_mem_nil

theorem Streams.sendHeld (h : Streams s) (ho : Ownership s) {message : Message}
    {rest : List Message}
    (hlock : s.shared.attach = .attaching conn size (.sendHeld (message :: rest)))
    (hs : s.stepAttach conn size panics (.sendHeld (message :: rest)) = some s') : Streams s' := by
  have hgreeting : s.shared.attach.greeting = some conn := by rw [hlock]; rfl
  obtain ⟨hnot, hack⟩ := ho.greeting_new hgreeting
  obtain rfl := Option.some.inj hs
  have hfinished : (s.outbox conn).finished = false :=
    Bool.not_eq_true _ ▸ fun hfin => hnot (ho.finished conn hfin)
  have hsend := ((s.outbox conn).later_send message).finished
  refine h.tell hack rfl (fun htold => ?_) (fun d hd => ?_)
    (fun d => closed_of (fun hfin => ?_) (fun hn => ?_) .inl) (fun _ _ => rfl) h.pump h.joined
    (fun _ => h.opening (by rw [hlock]; rfl)) rfl rfl rfl
  · rw [Session.Told, hlock] at htold
    show Dure.Told s.sessionId (s.opening conn) (if conn = conn then rest else [])
      (s.routedTo conn) (s.pump.inHand conn) _ ((s.setOutbox conn _).outbox conn)
    have hpending : AttachLock.pending conn (.attaching conn size (.sendHeld (message :: rest))) =
        message :: rest := if_pos rfl
    rw [hpending, ho.not_closed_of_not_owner hnot] at htold
    rw [if_pos rfl, s.setOutbox_self]
    exact (htold.sendHeld hfinished).close nofun
  · rw [hlock]
    exact (pending_of_ne hd).trans (pending_of_ne hd).symm
  · show ((s.setOutbox conn _).outbox d).finished = true
    by_cases heq : d = conn
    · rw [heq, s.setOutbox_self, hsend]
      exact heq ▸ hfin
    · rwa [s.setOutbox_of_ne heq]
  · rw [hlock] at hn
    exact nomatch hn

theorem Streams.install (h : Streams s)
    (hlock : s.shared.attach = .attaching conn size .install)
    (hs : s.stepAttach conn size panics .install = some s') : Streams s' := by
  have hpre : s.shared.preamble = none := h.opening (by rw [hlock]; rfl)
  obtain rfl := Option.some.inj hs
  refine h.still ⟨fun c => .refl _, fun c => ?_, fun c => closed_of id (fun hn => ?_) .inl, nofun,
    fun _ => rfl, fun _ => id, fun hj => .inl ⟨hj, rfl⟩, fun c => List.mem_append_left _,
    fun held hheld => ?_, rfl, rfl, rfl, rfl⟩
  · rw [hlock]
    rfl
  · rw [hlock] at hn
    exact nomatch hn
  · have hsome : s.shared.preamble = some held := hheld
    rw [hpre] at hsome
    exact nomatch hsome

theorem Streams.sendDisplaced (h : Streams s) (ho : Ownership s) {old : ConnId}
    (hlock : s.shared.attach = .attaching conn size (.sendDisplaced old))
    (hs : s.stepAttach conn size panics (.sendDisplaced old) = some s') : Streams s' := by
  have hheld : s.shared.attach.held = some old := by
    rw [hlock]
    rfl
  have hun := ho.unfinished old (held_tenure hheld)
  have hopen : s.closed old = false :=
    not_closed hun.2 (by rw [hlock]; exact nofun)
      fun hcl => ho.held_ne_last hheld (last_of_closing hcl)
  have hack : old ∈ s.history.acknowledged := by
    rw [ho.order]
    exact List.mem_append_left _ hun.1
  have hfinished : ∀ d, (s.outbox d).finished = true →
      ((s.setOutbox old ((s.outbox old).queue .displaced).1).outbox d).finished = true :=
    fun d hfin => by
      rw [(later_setOutbox ((s.outbox old).later_queue .displaced) d).finished]
      exact hfin
  have htell : ∀ pc' : AttachPc, AttachLock.noticing (.attaching conn size pc') = some old →
      (∀ d, AttachLock.pending d (.attaching conn size pc') = []) →
      AttachLock.opening (.attaching conn size pc') = false →
      Streams ((s.setOutbox old ((s.outbox old).queue .displaced).1).goAttach conn size pc') := by
    intro pc' hnoticing hpending hopening
    refine h.tell hack rfl (fun htold => ?_) (fun d hd => ?_)
      (fun d => closed_of (hfinished d) (fun hn => ?_) .inl) (fun _ _ => rfl) h.pump h.joined
      (fun hop => ?_) rfl rfl rfl
    · rw [Session.Told, hopen, hlock] at htold
      show Dure.Told s.sessionId (s.opening old) (AttachLock.pending old (.attaching conn size pc'))
        (s.routedTo old) (s.pump.inHand old) _ ((s.setOutbox old _).outbox old)
      rw [hpending, s.setOutbox_self]
      refine (htold.terminate .displaced).close fun _ => ?_
      simp only [Session.closed, Bool.or_eq_true, decide_eq_true_eq]
      exact .inl (.inr hnoticing)
    · rw [hlock]
      exact hpending d
    · rw [hlock] at hn
      exact nomatch hn
    · exact absurd (hopening.symm.trans hop) Bool.false_ne_true
  cases hover : ((s.outbox old).queue .displaced).2 with
  | true =>
    simp only [Session.stepAttach, hover, if_true] at hs
    obtain rfl := Option.some.inj hs
    exact htell _ rfl (fun _ => rfl) rfl
  | false =>
    simp only [Session.stepAttach, hover, Bool.false_eq_true, if_false] at hs
    obtain rfl := Option.some.inj hs
    exact htell _ rfl (fun _ => rfl) rfl

theorem Streams.stepAttach (h : Streams s) (ho : Ownership s) {pc : AttachPc}
    (hlock : s.shared.attach = .attaching conn size pc)
    (hs : s.stepAttach conn size panics pc = some s') : Streams s' := by
  have hkeep : ∀ c, (s.outbox c).Kept (s.outbox c) := fun c => .refl _
  cases pc with
  | loadStopping =>
    cases hst : s.shared.stopping with
    | true =>
      simp only [Session.stepAttach, hst, if_true] at hs
      obtain rfl := Option.some.inj hs
      exact h.attachStill hlock rfl hkeep (fun _ => id) (fun _ => rfl) ((by intros; contradiction)) ((by intros; contradiction)) rfl
        ⟨rfl, rfl, rfl, rfl, rfl, rfl, rfl⟩
    | false =>
      simp only [Session.stepAttach, hst, Bool.false_eq_true, if_false] at hs
      obtain rfl := Option.some.inj hs
      exact h.attachStill hlock rfl hkeep (fun _ => id) (fun _ => rfl) ((by intros; contradiction)) ((by intros; contradiction)) rfl
        ⟨rfl, rfl, rfl, rfl, rfl, rfl, rfl⟩
  | startOutbox =>
    cases panics with
    | true =>
      simp only [Session.stepAttach, if_true] at hs
      obtain rfl := Option.some.inj hs
      exact h.attachStill hlock rfl hkeep (fun _ => id) (fun _ => rfl) ((by intros; contradiction)) ((by intros; contradiction)) rfl
        ⟨rfl, rfl, rfl, rfl, rfl, rfl, rfl⟩
    | false =>
      simp only [Session.stepAttach, Bool.false_eq_true, if_false] at hs
      obtain rfl := Option.some.inj hs
      exact h.attachStill hlock rfl hkeep (fun _ => id) (fun _ => rfl) ((by intros; contradiction)) ((by intros; contradiction)) rfl
        ⟨rfl, rfl, rfl, rfl, rfl, rfl, rfl⟩
  | acknowledge => exact h.acknowledge ho hlock hs
  | takePreamble => exact h.takePreamble ho hlock hs
  | sendHeld rest =>
    cases rest with
    | nil =>
      obtain rfl := Option.some.inj hs
      exact h.attachStill hlock rfl hkeep (fun _ => id) (fun _ => (ite_self _).symm) ((by intros; contradiction))
        (fun _ => rfl) rfl ⟨rfl, rfl, rfl, rfl, rfl, rfl, rfl⟩
    | cons message rest => exact h.sendHeld ho hlock hs
  | install => exact h.install hlock hs
  | noteClaimed previous =>
    obtain rfl := Option.some.inj hs
    cases previous with
    | none =>
      exact h.attachStill hlock rfl hkeep (fun _ => id) (fun _ => rfl) ((by intros; contradiction)) ((by intros; contradiction)) rfl
        ⟨rfl, rfl, rfl, rfl, rfl, rfl, rfl⟩
    | some old =>
      exact h.attachStill hlock rfl hkeep (fun _ => id) (fun _ => rfl) ((by intros; contradiction)) ((by intros; contradiction)) rfl
        ⟨rfl, rfl, rfl, rfl, rfl, rfl, rfl⟩
  | sendDisplaced old => exact h.sendDisplaced ho hlock hs
  | abandonOld old =>
    obtain rfl := Option.some.inj hs
    refine h.attachStill hlock rfl (kept_setOutbox (s.outbox old).kept_abandon) (fun c hfin => ?_)
      (fun _ => rfl) (fun _ => .inl) ((by intros; contradiction)) rfl ⟨rfl, rfl, rfl, rfl, rfl, rfl, rfl⟩
    rw [← hfin]
    exact (later_setOutbox (s.outbox old).later_abandon c).finished
  | finishOld old =>
    obtain rfl := Option.some.inj hs
    refine h.attachStill hlock rfl (kept_setOutbox (s.outbox old).kept_finish) (fun c hfin => ?_)
      (fun _ => rfl) (fun c hn => .inr ?_) ((by intros; contradiction)) rfl ⟨rfl, rfl, rfl, rfl, rfl, rfl, rfl⟩
    · exact finished_finish hfin
    · obtain rfl := Option.some.inj hn
      exact congrArg Outbox.finished (s.setOutbox_self _)
  | applySize =>
    obtain rfl := Option.some.inj hs
    cases panics <;>
      exact h.attachStill hlock rfl hkeep (fun _ => id) (fun _ => rfl) ((by intros; contradiction)) ((by intros; contradiction)) rfl
        ⟨rfl, rfl, rfl, rfl, rfl, rfl, rfl⟩
  | unlock result =>
    obtain rfl := Option.some.inj hs
    refine h.still ⟨hkeep, fun c => ?_, fun c => closed_of id (fun hn => ?_) .inl, (by intros; contradiction),
      fun _ => rfl, fun _ => id, fun hj => .inl ⟨hj, rfl⟩, fun _ => id, fun _ hp => ⟨hp, rfl⟩, rfl,
      rfl, rfl, rfl⟩
    · rw [hlock]
      rfl
    · rw [hlock] at hn
      cases hn

end Attach

/-! ## The other threads -/

section Others

variable {s s' : Session}

/-- A step outside the attach lock that queues nothing. -/
theorem Streams.aside (h : Streams s) (hkept : ∀ c, (s.outbox c).Kept (s'.outbox c))
    (hfinished : ∀ c, (s.outbox c).finished = true → (s'.outbox c).finished = true)
    (hmain : s'.main.joined = s.main.joined)
    (hclosing : ∀ c, s.main.closing = some c →
      s'.main.closing = some c ∨ (s'.outbox c).finished = true)
    (hattach : s'.shared.attach = s.shared.attach) (hframe : StillFrame s s') : Streams s' := by
  obtain ⟨hpump, hpreamble, hid, hrouted, hopened, hack, howners⟩ := hframe
  exact h.still
    { kept := hkept
      pending := fun _ => hattach ▸ rfl
      closed := fun c => closed_of (hfinished c) (fun hn => .inl (hattach ▸ hn)) (hclosing c)
      opening := fun hop => hpreamble ▸ h.opening (hattach ▸ hop)
      inHand := fun _ => hpump ▸ rfl
      owner := fun _ hc => hpump ▸ hc
      joined := fun hj => .inl ⟨hmain ▸ hj, hpump⟩
      owners := fun _ hc => howners ▸ hc
      preamble := fun _ hheld => ⟨hpreamble ▸ hheld, howners⟩
      id := hid, routed := hrouted, opened := hopened, acknowledged := hack }

theorem Streams.stepRelay (h : Streams s) (ho : Ownership s) {conn : ConnId} {panics : Bool}
    (hs : s.stepRelay conn panics = some s') : Streams s' := by
  have hkeep : ∀ c, (s.outbox c).Kept (s.outbox c) := fun c => .refl _
  have habandon := kept_setOutbox (s := s) (s.outbox conn).kept_abandon
  have hfinished : ∀ c, (s.outbox c).finished = true →
      ((s.abandon conn).outbox c).finished = true := fun c hfin =>
    ((later_setOutbox (s.outbox conn).later_abandon c).finished).trans hfin
  unfold Session.stepRelay at hs
  split at hs
  · split at hs
    · next hfree =>
      obtain rfl := Option.some.inj hs
      refine h.still ⟨hkeep, fun c => ?_, fun c => closed_of id (fun hn => ?_) .inl, nofun,
        fun _ => rfl, fun _ => id, fun hj => .inl ⟨hj, rfl⟩, fun _ => id, fun _ hp => ⟨hp, rfl⟩,
        rfl, rfl, rfl, rfl⟩
      · rw [hfree]
        rfl
      · rw [hfree] at hn
        exact nomatch hn
    · exact nomatch hs
  · split at hs
    · next hlock =>
      split at hs
      · next heq => exact h.stepAttach ho (heq ▸ hlock) hs
      · exact nomatch hs
    · exact nomatch hs
  · obtain rfl := Option.some.inj hs
    exact h.aside habandon hfinished rfl (fun _ => .inl) rfl ⟨rfl, rfl, rfl, rfl, rfl, rfl, rfl⟩
  · split at hs
    · exact nomatch hs
    · obtain rfl := Option.some.inj hs
      unfold Session.applyClientMessage
      split
      · split
        all_goals
          exact h.aside hkeep (fun _ => id) rfl (fun _ => .inl) rfl
            ⟨rfl, rfl, rfl, rfl, rfl, rfl, rfl⟩
      · exact h.aside hkeep (fun _ => id) rfl (fun _ => .inl) rfl
          ⟨rfl, rfl, rfl, rfl, rfl, rfl, rfl⟩
  · obtain rfl := Option.some.inj hs
    exact h.aside hkeep (fun _ => id) rfl (fun _ => .inl) rfl ⟨rfl, rfl, rfl, rfl, rfl, rfl, rfl⟩
  · split at hs
    · exact nomatch hs
    · obtain rfl := Option.some.inj hs
      unfold Session.detachClient
      split
      all_goals
        exact h.aside hkeep (fun _ => id) rfl (fun _ => .inl) rfl
          ⟨rfl, rfl, rfl, rfl, rfl, rfl, rfl⟩
  · obtain rfl := Option.some.inj hs
    exact h.aside habandon hfinished rfl (fun _ => .inl) rfl ⟨rfl, rfl, rfl, rfl, rfl, rfl, rfl⟩
  · obtain rfl := Option.some.inj hs
    exact h.aside hkeep (fun _ => id) rfl (fun _ => .inl) rfl ⟨rfl, rfl, rfl, rfl, rfl, rfl, rfl⟩
  all_goals exact nomatch hs

/-- The opening output does not change when more is read. -/
theorem Streams.opening_append (h : Streams s) {r : Option ConnId × List UInt8}
    (hopened : s'.history.opened = s.history.opened)
    (hrouted : s'.history.routed = s.history.routed ++ [r]) (c : ConnId) :
    s'.opening c = s.opening c := by
  unfold Session.opening
  rw [hopened]
  split
  · next d n hop =>
    rw [hrouted, List.take_append_of_le_length (h.opened d n hop).2.1]
  · rfl

theorem routedTo_append {r : Option ConnId × List UInt8}
    (hrouted : s'.history.routed = s.history.routed ++ [r]) (c : ConnId) :
    s'.routedTo c = s.routedTo c ++ if r.1 = some c then [r.2] else [] := by
  rw [Session.routedTo, Session.routedTo, hrouted, List.filterMap_append]
  congr 1
  split
  · next heq => exact (List.filterMap_cons_some (if_pos heq)).trans (congrArg _ List.filterMap_nil)
  · next hne => exact (List.filterMap_cons_none (if_neg hne)).trans List.filterMap_nil

/-- A burst is routed: the pump has it in its hands for its owner. -/
theorem Streams.told_route (h : Streams s) {r : Option ConnId × List UInt8} {c : ConnId}
    (htold : s.Told c) (hrouted : s'.history.routed = s.history.routed ++ [r])
    (hnone : s.pump.inHand c = [])
    (hinHand : s'.pump.inHand c = if r.1 = some c then [r.2] else [])
    (hopened : s'.history.opened = s.history.opened) (hid : s'.sessionId = s.sessionId)
    (hout : s'.outbox = s.outbox) (hattach : s'.shared.attach = s.shared.attach)
    (hmain : s'.main = s.main) :
    s'.Told c := by
  have hclosed : s'.closed c = s.closed c := by
    rw [Session.closed, Session.closed, hout, hattach, hmain]
  rw [Session.Told, hnone] at htold
  rw [Session.Told, h.opening_append hopened hrouted, routedTo_append hrouted, hid, hout, hattach,
    hclosed, hinHand]
  split
  · exact htold.route r.2
  · rw [List.append_nil]
    exact htold

/-- What one more burst does to what is known of the opening output. -/
theorem Streams.opened_append (h : Streams s) (r : Option ConnId × List UInt8) {c : ConnId}
    {n : Nat} (hop : s.history.opened = some (c, n)) : s.history.acknowledged.head? = some c ∧
      n ≤ (s.history.routed ++ [r]).length ∧
      ∀ r' ∈ (s.history.routed ++ [r]).take n, r'.1 = none := by
  obtain ⟨hhead, hbound, hnone⟩ := h.opened c n hop
  refine ⟨hhead, ?_, ?_⟩
  · rw [List.length_append]
    omega
  · rw [List.take_append_of_le_length hbound]
    exact hnone

/-- The choice of the client, under the slot's lock. -/
theorem Streams.routeOutput (h : Streams s) (ho : Ownership s) {bytes : List UInt8}
    (hpump : s.pump = .route bytes) : Streams (s.routeOutput bytes) := by
  have hnone : ∀ c, s.pump.inHand c = [] := fun c => by
    rw [hpump]
    rfl
  have hjoined : s.main.joined ≠ true := fun hj => by
    obtain ⟨ok, hdone⟩ := h.joined hj
    exact nomatch hpump.symm.trans hdone
  unfold Session.routeOutput
  cases hclient : s.shared.client with
  | some owner =>
    have howner : owner ∈ s.history.owners :=
      (ho.unfinished owner (List.mem_append_left _ (Option.mem_toList.mpr hclient))).1
    simp only [hclient]
    refine ⟨fun c hc => ?_, h.silent, fun c b hmem => ?_, fun c hc => Option.some.inj hc ▸ howner,
      fun hj => absurd hj hjoined, fun c n hop => h.opened_append _ hop, fun held hheld => ?_,
      h.opening⟩
    · refine h.told_route (h.told c hc) rfl (hnone c) ?_ rfl rfl rfl rfl rfl
      by_cases heq : owner = c
      · exact (if_pos heq).trans (if_pos (congrArg some heq)).symm
      · exact (if_neg heq).trans (if_neg fun hs => heq (Option.some.inj hs)).symm
    · rcases List.mem_append.mp hmem with hin | hin
      · exact h.routed c b hin
      · obtain ⟨hc, -⟩ := Prod.mk.inj (List.mem_singleton.mp hin)
        exact Option.some.inj hc ▸ howner
    · exact absurd ((h.preamble held hheld).2.1 ▸ howner) List.not_mem_nil
  | none =>
    simp only [hclient]
    refine ⟨fun c hc => ?_, h.silent, fun c b hmem => ?_, nofun, fun hj => absurd hj hjoined,
      fun c n hop => h.opened_append _ hop, fun held hheld => ?_, fun hop => ?_⟩
    · exact h.told_route (h.told c hc) rfl (hnone c) rfl rfl rfl rfl rfl rfl
    · rcases List.mem_append.mp hmem with hin | hin
      · exact h.routed c b hin
      · exact nomatch (Prod.mk.inj (List.mem_singleton.mp hin)).1
    · have hhold : holdForFirstClient s.shared.preamble bytes = some held := hheld
      cases hpre : s.shared.preamble with
      | none =>
        rw [hpre] at hhold
        exact nomatch hhold
      | some old =>
        obtain ⟨hopened, howners, rfl⟩ := h.preamble old hpre
        refine ⟨hopened, howners, ?_⟩
        rw [hpre, hold_openingOutput] at hhold
        rw [← Option.some.inj hhold, List.map_append]
        rfl
    · have hpre : s.shared.preamble = none := h.opening hop
      show holdForFirstClient s.shared.preamble bytes = none
      rw [hpre]
      rfl

/-- An owner is past its opening output. -/
theorem Ownership.pending_nil (ho : Ownership s) {c : ConnId} (hc : c ∈ s.history.owners) :
    s.shared.attach.pending c = [] := by
  unfold AttachLock.pending
  split
  · next d size rest hlock =>
    refine if_neg fun heq => ?_
    have hgreeting : s.shared.attach.greeting = some c := by
      rw [hlock, ← heq]
      rfl
    exact (ho.greeting_new hgreeting).1 hc
  · rfl

/-- **The condition**: the pump does not queue a burst on an outbox, not
abandoned, between its notice and its end. -/
def InTime (s : Session) : Move → Prop
  | .pump =>
    match s.pump with
    | .send owner _ =>
      s.shared.attach.noticing = some owner → (s.outbox owner).abandoned = true
    | _ => True
  | _ => True

instance : ∀ s m, Decidable (InTime s m) := fun s m => by
  unfold InTime
  split
  · split <;> infer_instance
  · infer_instance

/-- The pump queues the burst in its hands. -/
theorem Streams.sendOutput (h : Streams s) (ho : Ownership s) {owner : ConnId}
    {bytes : List UInt8} (hpump : s.pump = .send owner bytes)
    (htime : s.shared.attach.noticing = some owner → (s.outbox owner).abandoned = true)
    {pc : PumpPc} (howner : ∀ c, pc.owner = some c → c = owner)
    (hinHand : ∀ c, pc.inHand c = []) :
    Streams { s.setOutbox owner ((s.outbox owner).queue (.output bytes)).1 with pump := pc } := by
  have hmem : owner ∈ s.history.owners := h.pump owner (hpump ▸ rfl)
  have hjoined : s.main.joined ≠ true := fun hj => by
    obtain ⟨ok, hdone⟩ := h.joined hj
    exact nomatch hpump.symm.trans hdone
  have hclosing : s.main.closing ≠ some owner := fun hcl => by
    refine hjoined ?_
    unfold MainPc.closing at hcl
    split at hcl
    · next hmain => exact hmain ▸ rfl
    · next hmain => exact hmain ▸ rfl
    · exact nomatch hcl
  refine h.tell (o := ((s.outbox owner).queue (.output bytes)).1) ?_ rfl (fun htold => ?_)
    (fun _ _ => rfl) (fun d => closed_of (fun hfin => ?_) .inl .inl) (fun d hd => ?_)
    (fun d hd => howner d hd ▸ hmem) (fun hj => absurd hj hjoined) h.opening rfl rfl rfl
  · rw [ho.order]
    exact List.mem_append_left _ hmem
  · rw [Session.Told, ho.pending_nil hmem, hpump] at htold
    show Dure.Told s.sessionId (s.opening owner) (s.shared.attach.pending owner)
      (s.routedTo owner) (pc.inHand owner) _ ((s.setOutbox owner _).outbox owner)
    rw [ho.pending_nil hmem, hinHand, s.setOutbox_self]
    have hin : PumpPc.inHand owner (.send owner bytes) = [bytes] := if_pos rfl
    rw [hin] at htold
    refine (htold.output (fun hfin => ?_) fun hab hfin => ?_).close
      (closed_of (fun hfin => ?_) .inl .inl)
    · simp only [Session.closed, hfin, Bool.true_or]
    · refine not_closed hfin (fun hn => ?_) hclosing
      exact nomatch hab.symm.trans (htime hn)
    · show ((s.setOutbox owner _).outbox owner).finished = true
      rw [s.setOutbox_self, Outbox.queue_finished, hfin]
  · show ((s.setOutbox owner _).outbox d).finished = true
    rw [(later_setOutbox ((s.outbox owner).later_queue (.output bytes)) d).finished, hfin]
  · rw [hpump, hinHand]
    exact (if_neg (Ne.symm hd)).symm

/-- A step of the pump that queues and routes nothing. -/
theorem Streams.pumpMove (h : Streams s) {pc : PumpPc}
    (hkept : ∀ c, (s.outbox c).Kept (s'.outbox c))
    (hfinished : ∀ c, (s.outbox c).finished = true → (s'.outbox c).finished = true)
    (hpump : s'.pump = pc) (hrunning : ∀ ok, s.pump ≠ .done ok)
    (hold : ∀ c, s.pump.inHand c = []) (hinHand : ∀ c, pc.inHand c = [])
    (howner : ∀ c, pc.owner ≠ some c) (hshared : s'.shared = s.shared)
    (hhistory : s'.history = s.history) (hmain : s'.main = s.main)
    (hid : s'.sessionId = s.sessionId) : Streams s' := by
  refine h.still ⟨hkept, fun _ => hshared ▸ rfl,
    fun c => closed_of (hfinished c) (hshared ▸ .inl) (hmain ▸ .inl), hshared ▸ h.opening,
    fun c => ?_, fun c hc => absurd (hpump ▸ hc) (howner c), fun hj => ?_, hhistory ▸ fun _ => id,
    fun held hheld => ⟨hshared ▸ hheld, hhistory ▸ rfl⟩, hid, hhistory ▸ rfl, hhistory ▸ rfl,
    hhistory ▸ rfl⟩
  · rw [hpump, hold, hinHand]
  · obtain ⟨ok, hdone⟩ := h.joined (hmain ▸ hj)
    exact absurd hdone (hrunning ok)

theorem Streams.stepPump (h : Streams s) (ho : Ownership s) (htime : InTime s .pump)
    (hs : s.stepPump = some s') : Streams s' := by
  have hkeep : ∀ c, (s.outbox c).Kept (s.outbox c) := fun c => .refl _
  unfold Session.stepPump at hs
  split at hs
  · next hpump =>
    obtain rfl := Option.some.inj hs
    refine h.pumpMove hkeep (fun _ => id) rfl (by rw [hpump]; exact nofun) (fun c => hpump ▸ rfl)
      (fun c => ?_) (fun c => ?_) rfl rfl rfl rfl
    · split <;> rfl
    · split <;> exact nofun
  · next hpump =>
    split at hs
    · exact nomatch hs
    · obtain rfl := Option.some.inj hs
      exact h.routeOutput ho hpump
  · next owner bytes hpump =>
    rw [InTime, hpump] at htime
    obtain rfl := Option.some.inj hs
    refine h.sendOutput ho hpump htime (fun c hc => ?_) fun c => ?_
    · split at hc
      · exact (Option.some.inj hc).symm
      · exact nomatch hc
    · split <;> rfl
  · next owner hpump =>
    obtain rfl := Option.some.inj hs
    refine h.pumpMove (kept_setOutbox (s.outbox owner).kept_abandon) (fun c hfin => ?_) rfl
      (by rw [hpump]; exact nofun) (fun c => hpump ▸ rfl) (fun c => rfl) (fun c => nofun)
      rfl rfl rfl rfl
    exact ((later_setOutbox (s.outbox owner).later_abandon c).finished).trans hfin
  · next hpump =>
    obtain rfl := Option.some.inj hs
    exact h.pumpMove hkeep (fun _ => id) rfl (by rw [hpump]; exact nofun) (fun c => hpump ▸ rfl)
      (fun c => rfl) (fun c => nofun) rfl rfl rfl rfl
  · exact nomatch hs
  · exact nomatch hs

theorem Streams.read (h : Streams s) {r : Session.Read} (hs : s.read r = some s') :
    Streams s' := by
  have hkeep : ∀ c, (s.outbox c).Kept (s.outbox c) := fun c => .refl _
  unfold Session.read at hs
  split at hs
  case h_4 => exact nomatch hs
  all_goals
    next hpump =>
      obtain rfl := Option.some.inj hs
      exact h.pumpMove hkeep (fun _ => id) rfl (by rw [hpump]; exact nofun) (fun c => hpump ▸ rfl)
        (fun c => rfl) (fun c => nofun) rfl rfl rfl rfl

theorem Streams.stepWriter (h : Streams s) {conn : ConnId} {fails : Bool}
    (hs : s.stepWriter conn fails = some s') : Streams s' := by
  have hkeep : ∀ c, (s.outbox c).Kept (s.outbox c) := fun c => .refl _
  unfold Session.stepWriter at hs
  split at hs
  · split at hs
    · next message o htake =>
      obtain rfl := Option.some.inj hs
      refine h.aside (kept_setOutbox (Outbox.kept_takeNext htake)) (fun c hfin => ?_) rfl
        (fun _ => .inl) rfl ⟨rfl, rfl, rfl, rfl, rfl, rfl, rfl⟩
      show ((s.setOutbox conn o).outbox c).finished = true
      by_cases hc : c = conn
      · rw [hc, s.setOutbox_self, (Outbox.takeNext_kept htake).1]
        exact hc ▸ hfin
      · rwa [s.setOutbox_of_ne hc]
    · obtain rfl := Option.some.inj hs
      exact h.aside hkeep (fun _ => id) rfl (fun _ => .inl) rfl ⟨rfl, rfl, rfl, rfl, rfl, rfl, rfl⟩
    · exact nomatch hs
  · obtain rfl := Option.some.inj hs
    cases fails
    all_goals
      exact h.aside hkeep (fun _ => id) rfl (fun _ => .inl) rfl ⟨rfl, rfl, rfl, rfl, rfl, rfl, rfl⟩
  · exact nomatch hs
  · exact nomatch hs

/-- The last client is told the status. -/
theorem Streams.sendExited (h : Streams s) (ho : Ownership s) {status : Int32} {client : ConnId}
    (hmain : s.main = .sendExited status client) {pc : MainPc}
    (hclosing : pc.closing = some client) :
    Streams { s.setOutbox client ((s.outbox client).queue (.appExited status)).1 with
      main := pc } := by
  have hlast : s.main.last = some client := hmain ▸ rfl
  have hun := ho.unfinished client (last_tenure hlast)
  have hopen : s.closed client = false :=
    not_closed hun.2 (fun hn => ho.held_ne_last (held_of_noticing hn) hlast) (hmain ▸ nofun)
  have hlater := later_setOutbox (s := s) ((s.outbox client).later_queue (.appExited status))
  refine h.tell (o := ((s.outbox client).queue (.appExited status)).1) ?_ rfl (fun htold => ?_)
    (fun _ _ => rfl) (fun d => closed_of (fun hfin => (hlater d).finished.trans hfin) .inl
      (hmain ▸ nofun)) (fun _ _ => rfl) h.pump (fun _ => h.joined (hmain ▸ rfl)) h.opening
    rfl rfl rfl
  · rw [ho.order]
    exact List.mem_append_left _ hun.1
  · rw [Session.Told, ho.pending_nil hun.1, hopen] at htold
    show Dure.Told s.sessionId (s.opening client) (s.shared.attach.pending client)
      (s.routedTo client) (s.pump.inHand client) _ ((s.setOutbox client _).outbox client)
    rw [ho.pending_nil hun.1, s.setOutbox_self]
    refine (htold.terminate (.appExited status)).close fun _ => ?_
    simp only [Session.closed, Bool.or_eq_true, decide_eq_true_eq]
    exact .inr hclosing

theorem Streams.stepMain (h : Streams s) (ho : Ownership s) (hs : s.stepMain = some s') :
    Streams s' := by
  have hkeep : ∀ c, (s.outbox c).Kept (s.outbox c) := fun c => .refl _
  unfold Session.stepMain at hs
  split at hs
  · next hmain =>
    obtain rfl := Option.some.inj hs
    split
    all_goals
      exact h.aside hkeep (fun _ => id) (hmain ▸ rfl) (hmain ▸ nofun) rfl
        ⟨rfl, rfl, rfl, rfl, rfl, rfl, rfl⟩
  · next hmain =>
    split at hs
    · obtain rfl := Option.some.inj hs
      exact h.aside hkeep (fun _ => id) (hmain ▸ rfl) (hmain ▸ nofun) rfl
        ⟨rfl, rfl, rfl, rfl, rfl, rfl, rfl⟩
    · exact nomatch hs
  · next hmain =>
    split at hs
    · next ok hpump =>
      obtain rfl := Option.some.inj hs
      exact h.still ⟨hkeep, fun _ => rfl, fun c => closed_of id .inl (hmain ▸ nofun), h.opening,
        fun _ => rfl, fun _ => id, fun _ => .inr ⟨ok, hpump⟩, fun _ => id, fun _ hp => ⟨hp, rfl⟩,
        rfl, rfl, rfl, rfl⟩
    · exact nomatch hs
  · next hmain =>
    split at hs
    · next hfree =>
      obtain rfl := Option.some.inj hs
      refine h.still ⟨hkeep, fun c => ?_, fun c => closed_of id (fun hn => ?_) (hmain ▸ nofun),
        nofun, fun _ => rfl, fun _ => id, fun _ => .inl ⟨hmain ▸ rfl, rfl⟩, fun _ => id,
        fun _ hp => ⟨hp, rfl⟩, rfl, rfl, rfl, rfl⟩
      · rw [hfree]
        rfl
      · rw [hfree] at hn
        exact nomatch hn
    · exact nomatch hs
  · next outcome hmain =>
    split at hs
    · next pc hlock =>
      have hnoticing : ∀ c, s.shared.attach.noticing ≠ some c := fun c => by
        rw [hlock]
        exact nofun
      have hpending : ∀ c, [] = s.shared.attach.pending c := fun c => by
        rw [hlock]
        rfl
      cases pc
      all_goals
        obtain rfl := Option.some.inj hs
        exact h.still ⟨hkeep, hpending, fun c => closed_of id (fun hn => absurd hn (hnoticing c))
          (hmain ▸ nofun), nofun, fun _ => rfl, fun _ => id, fun _ => .inr (h.joined (hmain ▸ rfl)),
          fun _ => id, fun _ hp => ⟨hp, rfl⟩, rfl, rfl, rfl, rfl⟩
    · exact nomatch hs
  · next status client hmain =>
    obtain rfl := Option.some.inj hs
    refine h.sendExited ho hmain ?_
    split <;> rfl
  · next client hmain =>
    obtain rfl := Option.some.inj hs
    refine h.aside (kept_setOutbox (s.outbox client).kept_abandon) (fun c hfin => ?_) (hmain ▸ rfl)
      (hmain ▸ fun _ => .inl) rfl ⟨rfl, rfl, rfl, rfl, rfl, rfl, rfl⟩
    exact ((later_setOutbox (s.outbox client).later_abandon c).finished).trans hfin
  · next client hmain =>
    obtain rfl := Option.some.inj hs
    refine h.aside (kept_setOutbox (s.outbox client).kept_finish)
      (fun c => finished_finish) (hmain ▸ rfl) (fun c hc => .inr ?_) rfl
      ⟨rfl, rfl, rfl, rfl, rfl, rfl, rfl⟩
    rw [hmain] at hc
    obtain rfl := Option.some.inj hc
    exact congrArg Outbox.finished (s.setOutbox_self _)
  · exact nomatch hs
  · exact nomatch hs

end Others

/-! ## Runs -/

theorem Streams.next {id : SessionId} {s s' : Session} {m : Move} (h : Streams s)
    (ho : Ownership s) (htime : InTime s m) (hs : (sessions id).next s m = some s') :
    Streams s' := by
  have hkeep : ∀ c, (s.outbox c).Kept (s.outbox c) := fun c => .refl _
  cases m with
  | receive conn r =>
    change s.receive conn r = some s' at hs
    unfold Session.receive at hs
    split at hs
    case h_7 => exact nomatch hs
    all_goals
      obtain rfl := Option.some.inj hs
      exact h.aside hkeep (fun _ h => h) rfl (fun _ => .inl) rfl ⟨rfl, rfl, rfl, rfl, rfl, rfl, rfl⟩
  | relay conn panics => exact h.stepRelay ho hs
  | initiatorGone =>
    obtain rfl := Option.some.inj hs
    exact h.aside hkeep (fun _ h => h) rfl (fun _ => .inl) rfl ⟨rfl, rfl, rfl, rfl, rfl, rfl, rfl⟩
  | read r => exact h.read hs
  | pump => exact h.stepPump ho htime hs
  | appExits waited =>
    change s.appExits waited = some s' at hs
    unfold Session.appExits at hs
    split at hs
    · next hmain =>
      obtain rfl := Option.some.inj hs
      exact h.aside hkeep (fun _ h => h) (hmain ▸ rfl) (hmain ▸ nofun) rfl
        ⟨rfl, rfl, rfl, rfl, rfl, rfl, rfl⟩
    · exact nomatch hs
  | main => exact h.stepMain ho hs
  | writer conn fails => exact h.stepWriter hs

theorem streams_of_reach {id : SessionId} {s : Session}
    (h : Machine.Reach (sessions id) InTime s) : Streams s :=
  h.invariant (streams_start id) fun _ _ _ hr hi htime hs =>
    hi.next (ownership_of_reach hr) htime hs

/-- `messages` is a stream in the grammar of a connection: what was routed
to it, or the start of this, between its opening output and an end. -/
def Grammatical (s : Session) (conn : ConnId) (stream : List Message) : Prop :=
  ∃ outputs terminal, stream <+: messages s.sessionId (s.opening conn) outputs terminal ∧
    outputs <+: s.routedTo conn ∧ Terminal terminal

/-- What a connection was sent, and where it comes from. -/
structure StreamOrdered (s : Session) (conn : ConnId) : Prop where
  grammatical : Grammatical s conn (s.taken conn)
  /-- Its output is output of the app, in the order of the app. -/
  ordered : (s.routedTo conn).Sublist (s.history.routed.map Prod.snd)
  /-- Only the first connection that was acknowledged has an opening: what
  the app wrote while nobody had the slot. -/
  opening : s.opening conn ≠ [] → s.history.acknowledged.head? = some conn ∧
    ∃ n, (∀ r ∈ s.history.routed.take n, r.1 = none) ∧
      s.opening conn = preambleMessages (openingOutput ((s.history.routed.take n).map Prod.snd))

theorem routedTo_sublist (s : Session) (conn : ConnId) :
    (s.routedTo conn).Sublist (s.history.routed.map Prod.snd) := by
  unfold Session.routedTo
  induction s.history.routed with
  | nil => exact List.Sublist.slnil
  | cons r rest ih =>
    rw [List.filterMap_cons, List.map_cons]
    split
    · exact ih.cons _
    · next b hb =>
      have heq : r.2 = b := by
        split at hb
        · exact Option.some.inj hb
        · exact nomatch hb
      exact heq ▸ ih.cons_cons _

/-- **The stream of every connection**, in runs in which the pump is in
time. -/
theorem stream_ordered {id : SessionId} {s : Session}
    (h : Machine.Reach (sessions id) InTime s) (conn : ConnId) : StreamOrdered s conn := by
  have hi := streams_of_reach h
  have htaken : s.taken conn <+: (s.outbox conn).accepted :=
    (List.prefix_append _ _).trans ((ownership_of_reach h).fifo conn).start
  refine ⟨?_, routedTo_sublist s conn, fun hne => ?_⟩
  · by_cases hack : conn ∈ s.history.acknowledged
    · obtain ⟨outputs, terminal, htold⟩ := hi.told conn hack
      exact ⟨outputs, terminal, htaken.trans htold.accepted, htold.sent, htold.ends⟩
    · rw [hi.silent conn hack] at htaken
      rw [List.prefix_nil.mp htaken]
      exact ⟨[], [], List.nil_prefix, List.nil_prefix, .none⟩
  · cases hopened : s.history.opened with
    | none =>
      rw [Session.opening, hopened] at hne
      exact absurd rfl hne
    | some o =>
      obtain ⟨hhead, -, hnone⟩ := hi.opened o.1 o.2 hopened
      have hopening : s.opening conn = if o.1 = conn then
          preambleMessages (openingOutput ((s.history.routed.take o.2).map Prod.snd)) else [] := by
        rw [Session.opening, hopened]
      rw [hopening] at hne ⊢
      split at hne
      · next heq => exact ⟨heq ▸ hhead, o.2, hnone, if_pos heq⟩
      · exact absurd rfl hne

/-- A client gets what the app wrote before it came and after, a second one
steals the console and gets the status. -/
def inTimeMoves : List Move :=
  [Move.pump, .read (.burst [1]), .pump] ++
  Move.receive 0 (.message (.attach .default)) ::
    List.replicate 11 (Move.relay 0 false) ++
  [Move.pump, .read (.burst [2]), .pump, .pump] ++
  Move.receive 1 (.message (.attach .default)) ::
    List.replicate 12 (Move.relay 1 false) ++
  List.replicate 8 (Move.writer 0 false) ++
  [Move.pump, .read .eof, .appExits (some 0)] ++ List.replicate 9 Move.main ++
  List.replicate 4 (Move.writer 1 false)

theorem stream_ordered_stolen : ∃ s, ((sessions .min).restrict InTime).run inTimeMoves = some s ∧
    s.taken 0 = [.attached .min, .output [1], .output [2], .displaced] ∧
    s.taken 1 = [.attached .min, .appExited 0] ∧ StreamOrdered s 0 := by
  obtain ⟨s, hrun, hfirst, hsecond⟩ : ∃ s,
      ((sessions .min).restrict InTime).run inTimeMoves = some s ∧
        s.taken 0 = [.attached .min, .output [1], .output [2], .displaced] ∧
        s.taken 1 = [.attached .min, .appExited 0] :=
    ⟨_, rfl, rfl, rfl⟩
  exact ⟨s, hrun, hfirst, hsecond, stream_ordered (Machine.reach_of_run_restrict hrun) 0⟩

/-- The pump has chosen the first client and queues after the notice of the
steal, before the end. -/
def lateMoves : List Move :=
  Move.receive 0 (.message (.attach .default)) ::
    List.replicate 10 (Move.relay 0 false) ++
  [Move.pump, .read (.burst [1]), .pump] ++
  Move.receive 1 (.message (.attach .default)) ::
    List.replicate 9 (Move.relay 1 false) ++
  [Move.pump, .relay 1 false] ++ List.replicate 6 (Move.writer 0 false)

theorem output_after_displaced : ∃ s, (sessions .min).run lateMoves = some s ∧
    s.sent 0 = [.attached .min, .displaced, .output [1]] ∧ ¬ Grammatical s 0 (s.sent 0) := by
  obtain ⟨s, hrun, hsent, hopening⟩ : ∃ s, (sessions .min).run lateMoves = some s ∧
      s.sent 0 = [.attached .min, .displaced, .output [1]] ∧ s.opening 0 = [] :=
    ⟨_, rfl, rfl, rfl⟩
  refine ⟨s, hrun, hsent, ?_⟩
  rintro ⟨outputs, terminal, hprefix, -, hterminal⟩
  rw [hsent, hopening, messages, List.nil_append] at hprefix
  have htail := (List.cons_prefix_cons.mp hprefix).2
  cases outputs with
  | cons bytes outputs => cases (List.cons_prefix_cons.mp htail).1
  | nil =>
    have hlength := htail.length_le
    cases hterminal <;> exact absurd hlength (by simp)

end Folo.Dure
