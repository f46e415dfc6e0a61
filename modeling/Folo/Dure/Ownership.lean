import Mathlib.Data.List.Nodup
import Folo.Dure.Session

/-!
# Who owns the console

The invariant of the client slot. What the holder of the attach lock has
established, it has established until it lets go (`LockAgree`); whoever has
the slot, is being displaced from it or was taken from it by `stop_clients`
is one connection each (`tenure`), and none of these has an outbox that was
finished, so its notice is still accepted.
-/

namespace Folo.Dure

open Folo.Lib

/-! ## What a place in the code means -/

/-- Has not taken the attach lock. -/
def RelayPc.fresh : RelayPc → Bool
  | first | lockAttach _ => true
  | _ => false

/-- The connection that an attach displaces, or that `stop_clients` took. -/
def AttachLock.held : AttachLock → Option ConnId
  | attaching _ _ (.noteClaimed previous) => previous
  | attaching _ _ (.sendDisplaced old) | attaching _ _ (.abandonOld old)
  | attaching _ _ (.finishOld old) => some old
  | stopping (.unlock client) => client
  | _ => none

/-- The connection whose displacement notice is not queued yet. -/
def AttachLock.owed : AttachLock → Option ConnId
  | attaching _ _ (.noteClaimed previous) => previous
  | attaching _ _ (.sendDisplaced old) => some old
  | _ => none

/-- The attach that was acknowledged and does not have the slot yet. -/
def AttachLock.greeting : AttachLock → Option ConnId
  | attaching conn _ .takePreamble | attaching conn _ (.sendHeld _)
  | attaching conn _ .install => some conn
  | _ => none

/-- `stop_clients` has returned. -/
def MainPc.stopped : MainPc → Bool
  | sendExited .. | abandonLast _ | finishLast _ | done => true
  | _ => false

/-- The last client, until its outbox is finished. -/
def MainPc.last : MainPc → Option ConnId
  | sendExited _ client | abandonLast client | finishLast client => some client
  | _ => none

/-- Who has, or may still get a message from who had, the client slot. -/
def Session.tenure (s : Session) : List ConnId :=
  s.shared.client.toList ++ (s.shared.attach.held.toList ++ s.main.last.toList)

/-- What an attach has established. -/
def AttachAgree (s : Session) (conn : ConnId) : AttachPc → Prop
  | .loadStopping => conn ∉ s.history.acknowledged ∧ s.writer conn = .unstarted
  | .startOutbox =>
    (conn ∉ s.history.acknowledged ∧ s.writer conn = .unstarted) ∧ s.shared.stopping = false
  | .acknowledge => conn ∉ s.history.acknowledged ∧ s.shared.stopping = false
  | .takePreamble | .sendHeld _ | .install => s.shared.stopping = false
  | .noteClaimed _ | .sendDisplaced _ | .abandonOld _ | .finishOld _ | .applySize =>
    s.shared.client = some conn
  | .unlock _ => True

/-- What the holder of the attach lock has established. -/
def LockAgree (s : Session) : AttachLock → Prop
  | .free | .stopping .storeStopping => True
  | .attaching conn _ pc => s.relay conn = .attaching ∧ AttachAgree s conn pc
  | .stopping .takeClient => s.shared.stopping = true
  | .stopping (.unlock _) => s.shared.stopping = true ∧ s.shared.client = none

/-- The invariant. -/
structure Ownership (s : Session) : Prop where
  lock : LockAgree s s.shared.attach
  stopped : s.main.stopped = true → s.shared.stopping = true ∧ s.shared.client = none
  fresh : ∀ c, (s.relay c).fresh = true →
    c ∉ s.history.acknowledged ∧ s.writer c = .unstarted
  order : s.history.acknowledged = s.history.owners ++ s.shared.attach.greeting.toList
  nodup : s.history.acknowledged.Nodup
  tenure : s.tenure.Nodup
  unfinished : ∀ c ∈ s.tenure, c ∈ s.history.owners ∧ (s.outbox c).finished = false
  finished : ∀ c, (s.outbox c).finished = true → c ∈ s.history.owners
  displaced : ∀ c ∈ s.history.displaced, c ∈ s.history.owners ∧ s.shared.client ≠ some c
  notice : ∀ c ∈ s.history.displaced, s.shared.attach.owed = some c ∨ (s.outbox c).Noticed
  fifo : ∀ c, (s.outbox c).Fifo (s.taken c)

theorem ownership_start (id : SessionId) : Ownership (.start id) where
  lock := trivial
  stopped := nofun
  fresh _ _ := ⟨List.not_mem_nil, rfl⟩
  order := rfl
  nodup := List.nodup_nil
  tenure := List.nodup_nil
  unfinished := nofun
  finished := nofun
  displaced := nofun
  notice := nofun
  fifo _ := ⟨List.prefix_rfl, fun _ => rfl⟩

/-! ## Steps that acknowledge and install nobody -/

/-- A step after which the same connections were acknowledged, had the slot
and were displaced, and nobody new has it. -/
structure Quiet (s s' : Session) : Prop where
  acknowledged : s'.history.acknowledged = s.history.acknowledged
  owners : s'.history.owners = s.history.owners
  displaced : s'.history.displaced = s.history.displaced
  client : ∀ c, s'.shared.client = some c → s.shared.client = some c
  fresh : ∀ c, (s'.relay c).fresh = true →
    (s.relay c).fresh = true ∧ s'.writer c = s.writer c
  greeting : s'.shared.attach.greeting = s.shared.attach.greeting
  tenure : s'.tenure.Sublist s.tenure
  finished : ∀ c, (s'.outbox c).finished = (s.outbox c).finished ∨
    c ∈ s.tenure ∧ c ∉ s'.tenure
  noticed : ∀ c, (s.outbox c).Noticed → (s'.outbox c).Noticed
  owed : ∀ c, s.shared.attach.owed = some c →
    s'.shared.attach.owed = some c ∨ (s'.outbox c).Noticed
  fifo : ∀ c, (s.outbox c).Fifo (s.taken c) → (s'.outbox c).Fifo (s'.taken c)

theorem Ownership.quiet {s s' : Session} (h : Ownership s) (hq : Quiet s s')
    (hlock : LockAgree s' s'.shared.attach)
    (hstopped : s'.main.stopped = true → s'.shared.stopping = true ∧ s'.shared.client = none) :
    Ownership s' where
  lock := hlock
  stopped := hstopped
  fresh c hc := by
    obtain ⟨hfresh, hwriter⟩ := hq.fresh c hc
    rw [hq.acknowledged, hwriter]
    exact h.fresh c hfresh
  order := by rw [hq.acknowledged, hq.owners, hq.greeting, h.order]
  nodup := hq.acknowledged ▸ h.nodup
  tenure := h.tenure.sublist hq.tenure
  unfinished c hc := by
    have hfin := (hq.finished c).resolve_right fun hout => hout.2 hc
    rw [hq.owners, hfin]
    exact h.unfinished c (hq.tenure.subset hc)
  finished c hc := by
    rw [hq.owners]
    obtain hfin | ⟨hmem, -⟩ := hq.finished c
    · exact h.finished c (hfin ▸ hc)
    · exact (h.unfinished c hmem).1
  displaced c hc := by
    rw [hq.displaced] at hc
    rw [hq.owners]
    exact ⟨(h.displaced c hc).1, fun hcl => (h.displaced c hc).2 (hq.client c hcl)⟩
  notice c hc := by
    rw [hq.displaced] at hc
    exact (h.notice c hc).elim (hq.owed c) fun hn => .inr (hq.noticed c hn)
  fifo c := hq.fifo c (h.fifo c)

/-- Who was acknowledged, who has owned the console and who lost it to another
stays as it is. -/
structure SameOwners (s s' : Session) : Prop where
  acknowledged : s'.history.acknowledged = s.history.acknowledged
  owners : s'.history.owners = s.history.owners
  displaced : s'.history.displaced = s.history.displaced

/-- A step that changes neither who is where nor which outboxes are
finished. -/
theorem Quiet.of_later {s s' : Session} (hfresh : ∀ c, (s'.relay c).fresh = true →
      (s.relay c).fresh = true ∧ s'.writer c = s.writer c)
    (hlater : ∀ c, (s.outbox c).Later (s'.outbox c))
    (hgreeting : s'.shared.attach.greeting = s.shared.attach.greeting)
    (hheld : s'.shared.attach.held = s.shared.attach.held)
    (howed : ∀ c, s.shared.attach.owed = some c →
      s'.shared.attach.owed = some c ∨ (s'.outbox c).Noticed)
    (howners : SameOwners s s') (hclient : s'.shared.client = s.shared.client)
    (hlast : s'.main.last = s.main.last) (htaken : ∀ c, s'.taken c = s.taken c) : Quiet s s' where
  acknowledged := howners.acknowledged
  owners := howners.owners
  displaced := howners.displaced
  client _ hc := hclient ▸ hc
  fresh := hfresh
  greeting := hgreeting
  tenure := by
    rw [Session.tenure, Session.tenure, hclient, hheld, hlast]
  finished c := .inl (hlater c).finished
  noticed c := (hlater c).noticed
  owed := howed
  fifo c hf := htaken c ▸ (hlater c).fifo _ hf

theorem later_setOutbox {s : Session} {conn : ConnId} {o : Outbox}
    (h : (s.outbox conn).Later o) (c : ConnId) :
    (s.outbox c).Later ((s.setOutbox conn o).outbox c) := by
  by_cases hc : c = conn
  · rw [hc, s.setOutbox_self]
    exact h
  · rw [s.setOutbox_of_ne hc]
    exact .refl _

/-! ## `attach_client` -/

section Attach

variable {s s' : Session} {conn : ConnId} {size : WindowSize} {panics : Bool}

/-- The thread that holds the attach lock is not about to take it. -/
theorem Ownership.attaching (h : Ownership s) {pc : AttachPc}
    (hlock : s.shared.attach = .attaching conn size pc) :
    s.relay conn = .attaching ∧ AttachAgree s conn pc := by
  have hagree := h.lock
  rw [hlock] at hagree
  exact hagree

theorem Ownership.acknowledge (h : Ownership s)
    (hlock : s.shared.attach = .attaching conn size .acknowledge)
    (hs : s.stepAttach conn size panics .acknowledge = some s') : Ownership s' := by
  obtain ⟨hrelay, hnew, hstopping⟩ := h.attaching hlock
  obtain rfl := Option.some.inj hs
  have hlater := later_setOutbox (s := s) ((s.outbox conn).later_send (.attached s.sessionId))
  have hheld : s.shared.attach.held = none := by rw [hlock]; rfl
  have horder := h.order
  have htenure := h.tenure
  have hunfinished := h.unfinished
  rw [hlock] at horder
  simp only [Session.tenure, hheld] at htenure hunfinished
  refine ⟨⟨hrelay, hstopping⟩, h.stopped, fun c hc => ?_, ?_, ?_, htenure, fun c hc => ?_,
    fun c hc => ?_, h.displaced, fun c hc => ?_, fun c => (hlater c).fifo _ (h.fifo c)⟩
  · have hne : c ≠ conn := fun heq => by
      have hfresh : (s.relay c).fresh = true := hc
      rw [heq, hrelay] at hfresh
      exact nomatch hfresh
    refine ⟨fun hmem => ?_, (h.fresh c hc).2⟩
    exact (List.mem_append.mp hmem).elim (h.fresh c hc).1 fun hmem =>
      hne (List.mem_singleton.mp hmem)
  · exact congrArg (· ++ [conn]) (horder.trans (List.append_nil _))
  · exact List.nodup_append.mpr ⟨h.nodup, List.nodup_singleton _, fun a ha b hb heq =>
      hnew (List.mem_singleton.mp hb ▸ heq ▸ ha)⟩
  · exact ⟨(hunfinished c hc).1, (hlater c).finished.trans (hunfinished c hc).2⟩
  · exact h.finished c ((hlater c).finished.symm.trans hc)
  · refine .inr ((hlater c).noticed ((h.notice c hc).resolve_left fun howed => ?_))
    rw [hlock] at howed
    exact nomatch howed

theorem Ownership.install (h : Ownership s)
    (hlock : s.shared.attach = .attaching conn size .install)
    (hs : s.stepAttach conn size panics .install = some s') : Ownership s' := by
  obtain ⟨hrelay, hstopping⟩ := h.attaching hlock
  obtain rfl := Option.some.inj hs
  have horder : s.history.acknowledged = s.history.owners ++ [conn] := by
    rw [h.order, hlock]
    rfl
  have hnew : conn ∉ s.history.owners := fun hmem =>
    (List.nodup_append.mp (horder ▸ h.nodup)).2.2 conn hmem conn (List.mem_singleton_self _) rfl
  have htenure : (s.shared.client.toList ++ s.main.last.toList).Nodup := by
    have := h.tenure
    rwa [Session.tenure, hlock] at this
  have hmem : ∀ c ∈ s.shared.client.toList ++ s.main.last.toList, c ∈ s.tenure := fun c hc => by
    rw [Session.tenure, hlock]
    exact hc
  have hnot : s.main.stopped ≠ true := fun hst =>
    Bool.false_ne_true (hstopping.symm.trans (h.stopped hst).1)
  refine ⟨⟨hrelay, rfl⟩, fun hst => absurd hst hnot, h.fresh,
    horder.trans (List.append_nil _).symm, h.nodup, ?_, fun c hc => ?_,
    fun c hc => List.mem_append_left _ (h.finished c hc), fun c hc => ?_, fun c hc => ?_, h.fifo⟩
  · refine List.nodup_cons.mpr ⟨fun hin => ?_, htenure⟩
    exact hnew (h.unfinished conn (hmem conn hin)).1
  · rcases List.mem_cons.mp hc with rfl | hin
    · exact ⟨List.mem_append_right _ (List.mem_singleton_self _),
        Bool.not_eq_true _ ▸ fun hfin => hnew (h.finished c hfin)⟩
    · have hun := h.unfinished c (hmem c hin)
      exact ⟨List.mem_append_left _ hun.1, hun.2⟩
  · have hown : c ∈ s.history.owners := by
      rcases List.mem_append.mp hc with hin | hin
      · exact (h.displaced c hin).1
      · exact (h.unfinished c (hmem c (List.mem_append_left _ hin))).1
    exact ⟨List.mem_append_left _ hown, fun heq => hnew (Option.some.inj heq ▸ hown)⟩
  · rcases List.mem_append.mp hc with hin | hin
    · refine .inr ((h.notice c hin).resolve_left fun howed => ?_)
      rw [hlock] at howed
      exact nomatch howed
    · exact .inl (Option.mem_toList.mp hin)

/-- What an attach that takes no part in the transfer leaves alone. -/
structure AttachFrame (s s' : Session) (conn : ConnId) : Prop where
  writer : ∀ c, c ≠ conn → s'.writer c = s.writer c
  taken : ∀ c, s'.taken c = s.taken c
  relay : s'.relay = s.relay
  main : s'.main = s.main
  client : s'.shared.client = s.shared.client
  stopping : s'.shared.stopping = s.shared.stopping
  owners : SameOwners s s'

theorem AttachFrame.of_eq {s s' : Session} {conn : ConnId} (hwriter : s'.writer = s.writer)
    (hsent : s'.sent = s.sent) (hrelay : s'.relay = s.relay) (hmain : s'.main = s.main)
    (hclient : s'.shared.client = s.shared.client)
    (hstopping : s'.shared.stopping = s.shared.stopping) (howners : SameOwners s s') :
    AttachFrame s s' conn where
  writer _ _ := hwriter ▸ rfl
  taken _ := by rw [Session.taken, Session.taken, hsent, hwriter]
  relay := hrelay
  main := hmain
  client := hclient
  stopping := hstopping
  owners := howners

/-- A step of an attach that takes no part in the transfer: it may only
touch outboxes. -/
theorem Ownership.attachMove (h : Ownership s) {pc pc' : AttachPc}
    (hlock : s.shared.attach = .attaching conn size pc)
    (hlater : ∀ c, (s.outbox c).Later (s'.outbox c))
    (hattach : s'.shared.attach = .attaching conn size pc')
    (hagree : AttachAgree s conn pc → AttachAgree s' conn pc')
    (hgreeting : AttachLock.greeting (.attaching conn size pc') =
      AttachLock.greeting (.attaching conn size pc))
    (hheld : AttachLock.held (.attaching conn size pc') =
      AttachLock.held (.attaching conn size pc))
    (howed : ∀ c, AttachLock.owed (.attaching conn size pc) = some c →
      AttachLock.owed (.attaching conn size pc') = some c ∨ (s'.outbox c).Noticed)
    (hframe : AttachFrame s s' conn) : Ownership s' := by
  obtain ⟨hattaching, hpc⟩ := h.attaching hlock
  refine h.quiet (.of_later (fun c hc => ?_) hlater ?_ ?_ ?_ hframe.owners hframe.client
    (hframe.main ▸ rfl) hframe.taken) ?_ ?_
  · rw [hframe.relay] at hc
    refine ⟨hc, hframe.writer c fun heq => ?_⟩
    rw [heq, hattaching] at hc
    exact nomatch hc
  · rw [hattach, hlock, hgreeting]
  · rw [hattach, hlock, hheld]
  · rw [hattach, hlock]
    exact howed
  · rw [hattach]
    exact ⟨hframe.relay ▸ hattaching, hagree hpc⟩
  · rw [hframe.main, hframe.client, hframe.stopping]
    exact h.stopped

theorem Ownership.finishOld (h : Ownership s) {old : ConnId}
    (hlock : s.shared.attach = .attaching conn size (.finishOld old))
    (hs : s.stepAttach conn size panics (.finishOld old) = some s') : Ownership s' := by
  obtain ⟨hrelay, hclient⟩ := h.attaching hlock
  obtain rfl := Option.some.inj hs
  have htenure : s.tenure = s.shared.client.toList ++ old :: s.main.last.toList := by
    rw [Session.tenure, hlock]
    rfl
  have hnodup := htenure ▸ h.tenure
  have hother : ∀ c, c ≠ old → (s.finish old).outbox c = s.outbox c := fun c hc =>
    s.setOutbox_of_ne hc _
  refine h.quiet ⟨rfl, rfl, rfl, fun c hc => hc, fun c hc => ⟨hc, rfl⟩, ?_, ?_, fun c => ?_,
    fun c hn => ?_, fun c howed => ?_, fun c hf => ?_⟩ ⟨hrelay, hclient⟩ h.stopped
  · rw [hlock]
    rfl
  · rw [htenure]
    exact List.Sublist.append_left (List.sublist_cons_self _ _) _
  · by_cases hc : c = old
    · refine .inr ⟨?_, fun hin => ?_⟩
      · rw [htenure, hc]
        exact List.mem_append_right _ List.mem_cons_self
      · rw [hc] at hin
        exact (List.nodup_cons.mp (List.nodup_middle.mp hnodup)).1 hin
    · exact .inl (congrArg Outbox.finished (hother c hc))
  · show ((s.finish old).outbox c).Noticed
    by_cases hc : c = old
    · rw [hc, Session.finish, s.setOutbox_self]
      exact hc ▸ hn
    · rwa [hother c hc]
  · rw [hlock] at howed
    exact nomatch howed
  · show ((s.finish old).outbox c).Fifo (s.taken c)
    by_cases hc : c = old
    · rw [hc, Session.finish, s.setOutbox_self]
      exact ⟨(hc ▸ hf).start, (hc ▸ hf).whole⟩
    · rwa [hother c hc]

theorem Ownership.unlock (h : Ownership s) {result : AttachResult}
    (hlock : s.shared.attach = .attaching conn size (.unlock result))
    (hs : s.stepAttach conn size panics (.unlock result) = some s') : Ownership s' := by
  obtain rfl := Option.some.inj hs
  refine h.quiet (.of_later (fun c hc => ?_) (fun c => .refl _) ?_ ?_ ?_ ⟨rfl, rfl, rfl⟩ rfl rfl
    fun _ => rfl) trivial h.stopped
  · by_cases heq : c = conn
    · rw [heq, Session.goRelay_self] at hc
      cases result with
      | panicked created => cases created <;> exact nomatch hc
      | _ => exact nomatch hc
    · rw [Session.goRelay_of_ne _ heq] at hc
      exact ⟨hc, rfl⟩
  · rw [hlock]
    rfl
  · rw [hlock]
    rfl
  · rw [hlock]
    exact nofun

theorem Ownership.stepAttach (h : Ownership s) {pc : AttachPc}
    (hlock : s.shared.attach = .attaching conn size pc)
    (hs : s.stepAttach conn size panics pc = some s') : Ownership s' := by
  have hkeep : ∀ c, (s.outbox c).Later (s.outbox c) := fun c => .refl _
  cases pc with
  | loadStopping =>
    cases hst : s.shared.stopping with
    | true =>
      simp only [Session.stepAttach, hst, if_true] at hs
      obtain rfl := Option.some.inj hs
      exact h.attachMove hlock hkeep rfl (fun _ => trivial) rfl rfl (nofun)
        (.of_eq rfl rfl rfl rfl rfl rfl ⟨rfl, rfl, rfl⟩)
    | false =>
      simp only [Session.stepAttach, hst, Bool.false_eq_true, if_false] at hs
      obtain rfl := Option.some.inj hs
      exact h.attachMove hlock hkeep rfl (fun hnew => ⟨hnew, hst⟩) rfl rfl (nofun)
        (.of_eq rfl rfl rfl rfl rfl rfl ⟨rfl, rfl, rfl⟩)
  | startOutbox =>
    cases panics with
    | true =>
      simp only [Session.stepAttach, if_true] at hs
      obtain rfl := Option.some.inj hs
      exact h.attachMove hlock hkeep rfl (fun _ => trivial) rfl rfl (nofun)
        (.of_eq rfl rfl rfl rfl rfl rfl ⟨rfl, rfl, rfl⟩)
    | false =>
      simp only [Session.stepAttach, Bool.false_eq_true, if_false] at hs
      obtain rfl := Option.some.inj hs
      have hwriter := (h.attaching hlock).2.1.2
      refine h.attachMove hlock hkeep rfl (fun hnew => ⟨hnew.1.1, hnew.2⟩) rfl rfl (nofun)
        ⟨fun c hc => s.goWriter_of_ne hc _, fun c => ?_, rfl, rfl, rfl, rfl, ⟨rfl, rfl, rfl⟩⟩
      show (s.goWriter conn .takeNext).taken c = s.taken c
      by_cases hc : c = conn
      · rw [hc, Session.taken, Session.taken, s.goWriter_self, hwriter]
        rfl
      · rw [Session.taken, Session.taken, s.goWriter_of_ne hc]
        rfl
  | acknowledge => exact h.acknowledge hlock hs
  | takePreamble =>
    obtain rfl := Option.some.inj hs
    exact h.attachMove hlock hkeep rfl id rfl rfl (nofun)
      (.of_eq rfl rfl rfl rfl rfl rfl ⟨rfl, rfl, rfl⟩)
  | sendHeld rest =>
    cases rest with
    | nil =>
      obtain rfl := Option.some.inj hs
      exact h.attachMove hlock hkeep rfl id rfl rfl (nofun)
        (.of_eq rfl rfl rfl rfl rfl rfl ⟨rfl, rfl, rfl⟩)
    | cons message rest =>
      obtain rfl := Option.some.inj hs
      exact h.attachMove hlock (later_setOutbox ((s.outbox conn).later_send message)) rfl id rfl
        rfl (nofun) (.of_eq rfl rfl rfl rfl rfl rfl ⟨rfl, rfl, rfl⟩)
  | install => exact h.install hlock hs
  | noteClaimed previous =>
    obtain rfl := Option.some.inj hs
    cases previous with
    | none =>
      exact h.attachMove hlock hkeep rfl id rfl rfl (nofun)
        (.of_eq rfl rfl rfl rfl rfl rfl ⟨rfl, rfl, rfl⟩)
    | some old =>
      exact h.attachMove hlock hkeep rfl id rfl rfl (fun c => .inl)
        (.of_eq rfl rfl rfl rfl rfl rfl ⟨rfl, rfl, rfl⟩)
  | sendDisplaced old =>
    have hlater := later_setOutbox (s := s) ((s.outbox old).later_queue .displaced)
    have hold : old ∈ s.tenure := by
      rw [Session.tenure, hlock]
      exact List.mem_append_right _ List.mem_cons_self
    have hnoticed : ∀ c, some old = some c →
        ((s.setOutbox old ((s.outbox old).queue .displaced).1).outbox c).Noticed := by
      intro c hc
      rw [← Option.some.inj hc, s.setOutbox_self]
      exact Outbox.noticed_queue (h.unfinished old hold).2
    cases hover : ((s.outbox old).queue .displaced).2 with
    | true =>
      simp only [Session.stepAttach, hover, if_true] at hs
      obtain rfl := Option.some.inj hs
      exact h.attachMove hlock hlater rfl id rfl rfl (fun c hc => .inr (hnoticed c hc))
        (.of_eq rfl rfl rfl rfl rfl rfl ⟨rfl, rfl, rfl⟩)
    | false =>
      simp only [Session.stepAttach, hover, Bool.false_eq_true, if_false] at hs
      obtain rfl := Option.some.inj hs
      exact h.attachMove hlock hlater rfl id rfl rfl (fun c hc => .inr (hnoticed c hc))
        (.of_eq rfl rfl rfl rfl rfl rfl ⟨rfl, rfl, rfl⟩)
  | abandonOld old =>
    obtain rfl := Option.some.inj hs
    exact h.attachMove hlock (later_setOutbox (s.outbox old).later_abandon) rfl id rfl rfl (nofun)
      (.of_eq rfl rfl rfl rfl rfl rfl ⟨rfl, rfl, rfl⟩)
  | finishOld old => exact h.finishOld hlock hs
  | applySize =>
    obtain rfl := Option.some.inj hs
    exact h.attachMove hlock hkeep rfl (fun _ => trivial) rfl rfl (nofun)
      (.of_eq rfl rfl rfl rfl rfl rfl ⟨rfl, rfl, rfl⟩)
  | unlock result => exact h.unlock hlock hs

end Attach

/-! ## The other steps of a connection's thread -/

section Relay

variable {s s' : Session} {conn : ConnId} {panics : Bool}

/-- A thread outside the attach lock does not disturb its holder. -/
theorem LockAgree.other (h : Ownership s) (hattach : s'.shared.attach = s.shared.attach)
    (hrelay : ∀ c, s.relay c = .attaching → s'.relay c = .attaching)
    (hack : s'.history.acknowledged = s.history.acknowledged)
    (hstopping : s'.shared.stopping = s.shared.stopping)
    (hclient : s'.shared.client = s.shared.client)
    (hwriter : ∀ c, s.writer c = .unstarted → s'.writer c = s.writer c) :
    LockAgree s' s'.shared.attach := by
  have hagree := h.lock
  rw [hattach]
  cases hlock : s.shared.attach with
  | free => trivial
  | attaching c size pc =>
    rw [hlock] at hagree
    refine ⟨hrelay c hagree.1, ?_⟩
    have hpc := hagree.2
    cases pc with
    | loadStopping => exact ⟨hack ▸ hpc.1, (hwriter c hpc.2).trans hpc.2⟩
    | startOutbox =>
      exact ⟨⟨hack ▸ hpc.1.1, (hwriter c hpc.1.2).trans hpc.1.2⟩, hstopping.trans hpc.2⟩
    | acknowledge => exact ⟨hack ▸ hpc.1, hstopping.trans hpc.2⟩
    | takePreamble | sendHeld _ | install => exact hstopping.trans hpc
    | unlock _ => trivial
    | _ => exact hclient.trans hpc
  | stopping pc =>
    rw [hlock] at hagree
    have hsame : LockAgree s' (.stopping pc) = LockAgree s (.stopping pc) := by
      cases pc <;> simp only [LockAgree, hstopping, hclient]
    exact hsame ▸ hagree

/-- What a step outside the attach lock leaves alone. -/
structure AsideFrame (s s' : Session) : Prop where
  client : s'.shared.client = s.shared.client
  stopped : s'.main.stopped = s.main.stopped
  last : s'.main.last = s.main.last
  fresh : ∀ c, (s'.relay c).fresh = true → (s.relay c).fresh = true
  attaching : ∀ c, s.relay c = .attaching → s'.relay c = .attaching
  writer : ∀ c, s.writer c = .unstarted → s'.writer c = s.writer c
  taken : ∀ c, s'.taken c = s.taken c
  attach : s'.shared.attach = s.shared.attach
  stopping : s'.shared.stopping = s.shared.stopping
  owners : SameOwners s s'

theorem AsideFrame.of_eq (hclient : s'.shared.client = s.shared.client)
    (hstopped : s'.main.stopped = s.main.stopped) (hlast : s'.main.last = s.main.last)
    (hrelay : s'.relay = s.relay) (hwriter : s'.writer = s.writer) (hsent : s'.sent = s.sent)
    (hattach : s'.shared.attach = s.shared.attach)
    (hstopping : s'.shared.stopping = s.shared.stopping) (howners : SameOwners s s') :
    AsideFrame s s' where
  client := hclient
  stopped := hstopped
  last := hlast
  fresh _ hc := hrelay ▸ hc
  attaching _ hc := hrelay ▸ hc
  writer _ _ := hwriter ▸ rfl
  taken _ := by rw [Session.taken, Session.taken, hsent, hwriter]
  attach := hattach
  stopping := hstopping
  owners := howners

/-- A step outside the attach lock that may only touch outboxes. -/
theorem Ownership.aside (h : Ownership s) (hlater : ∀ c, (s.outbox c).Later (s'.outbox c))
    (hframe : AsideFrame s s') : Ownership s' := by
  obtain ⟨hclient, hstopped, hlast, hfresh, hattaching, hwriter, htaken, hattach, hstopping,
    howners⟩ := hframe
  refine h.quiet (.of_later (fun c hc => ⟨hfresh c hc, hwriter c (h.fresh c (hfresh c hc)).2⟩)
    hlater (hattach ▸ rfl) (hattach ▸ rfl) (hattach ▸ fun _ => .inl) howners hclient hlast htaken)
    (.other h hattach hattaching howners.acknowledged hstopping hclient hwriter) ?_
  rw [hstopped, hclient, hstopping]
  exact h.stopped

/-- What a step of a connection's thread leaves alone. -/
structure RelayFrame (s s' : Session) : Prop where
  shared : s'.shared = s.shared
  main : s'.main = s.main
  writer : s'.writer = s.writer
  sent : s'.sent = s.sent
  owners : SameOwners s s'

/-- A step of a connection's thread that may only touch outboxes. -/
theorem Ownership.relayMove (h : Ownership s) {pc : RelayPc} (hout : s.relay conn ≠ .attaching)
    (hrelay : s'.relay = Function.update s.relay conn pc)
    (hpc : pc.fresh = true → (s.relay conn).fresh = true)
    (hlater : ∀ c, (s.outbox c).Later (s'.outbox c))
    (hframe : RelayFrame s s') : Ownership s' := by
  obtain ⟨hshared, hmain, hwriter, hsent, howners⟩ := hframe
  have hother : ∀ c, c ≠ conn → s'.relay c = s.relay c := fun c hc => by
    rw [hrelay, Function.update_of_ne hc]
  refine h.aside hlater ⟨hshared ▸ rfl, hmain ▸ rfl, hmain ▸ rfl, fun c hc => ?_, fun c hc => ?_,
    fun c _ => hwriter ▸ rfl, fun c => ?_, hshared ▸ rfl, hshared ▸ rfl, howners⟩
  · by_cases heq : c = conn
    · rw [heq, hrelay, Function.update_self] at hc
      exact heq ▸ hpc hc
    · rwa [hother c heq] at hc
  · have hne : c ≠ conn := fun heq => hout (heq ▸ hc)
    rw [hother c hne, hc]
  · rw [Session.taken, Session.taken, hsent, hwriter]

theorem Ownership.receive (h : Ownership s) {r : Session.Received}
    (hs : s.receive conn r = some s') : Ownership s' := by
  have hkeep : ∀ c, (s.outbox c).Later (s.outbox c) := fun c => .refl _
  unfold Session.receive at hs
  cases hpc : s.relay conn with
  | first =>
    rw [hpc] at hs
    have hout : s.relay conn ≠ .attaching := hpc ▸ nofun
    have hfresh : (s.relay conn).fresh = true := hpc ▸ rfl
    cases r with
    | message m =>
      cases m <;> obtain rfl := Option.some.inj hs
      all_goals
        exact h.relayMove hout rfl (fun _ => hfresh) hkeep
          ⟨rfl, rfl, rfl, rfl, ⟨rfl, rfl, rfl⟩⟩
    | failed | panicked =>
      obtain rfl := Option.some.inj hs
      exact h.relayMove hout rfl (fun _ => hfresh) hkeep ⟨rfl, rfl, rfl, rfl, ⟨rfl, rfl, rfl⟩⟩
  | receiving =>
    rw [hpc] at hs
    have hout : s.relay conn ≠ .attaching := hpc ▸ nofun
    cases r <;> obtain rfl := Option.some.inj hs
    all_goals exact h.relayMove hout rfl nofun hkeep ⟨rfl, rfl, rfl, rfl, ⟨rfl, rfl, rfl⟩⟩
  | _ =>
    rw [hpc] at hs
    exact nomatch hs

theorem Ownership.applyClientMessage (h : Ownership s) {m : Message}
    (hpc : s.relay conn = .apply m) : Ownership (s.applyClientMessage conn m panics) := by
  have hout : s.relay conn ≠ .attaching := by
    rw [hpc]
    exact nofun
  have hkeep : ∀ c, (s.outbox c).Later (s.outbox c) := fun c => .refl _
  unfold Session.applyClientMessage
  split
  · split
    · cases panics <;> exact h.relayMove hout rfl nofun hkeep ⟨rfl, rfl, rfl, rfl, ⟨rfl, rfl, rfl⟩⟩
    · exact h.relayMove hout rfl nofun hkeep ⟨rfl, rfl, rfl, rfl, ⟨rfl, rfl, rfl⟩⟩
  · exact h.relayMove hout rfl nofun hkeep ⟨rfl, rfl, rfl, rfl, ⟨rfl, rfl, rfl⟩⟩

theorem Ownership.detachClient (h : Ownership s) {panicked : Bool}
    (hpc : s.relay conn = .detach panicked) : Ownership (s.detachClient conn panicked) := by
  have hout : s.relay conn ≠ .attaching := by
    rw [hpc]
    exact nofun
  unfold Session.detachClient
  split
  · next hclient =>
    -- The holder of the attach lock is another connection and does not have the slot.
    refine h.quiet ⟨rfl, rfl, rfl, nofun, fun c hc => ?_, rfl, ?_, fun c => .inl rfl, fun c => id,
      fun c => .inl, fun c => id⟩ ?_ fun hst => ⟨(h.stopped hst).1, rfl⟩
    · by_cases heq : c = conn
      · rw [heq, Session.goRelay_self] at hc
        exact nomatch hc
      · rw [Session.goRelay_of_ne _ heq] at hc
        exact ⟨hc, rfl⟩
    · exact List.sublist_append_right _ _
    · show LockAgree _ s.shared.attach
      have hagree := h.lock
      cases hlock : s.shared.attach with
      | free => trivial
      | attaching c size pc =>
        rw [hlock] at hagree
        have hne : c ≠ conn := fun heq => hout (heq ▸ hagree.1)
        have hslot : s.shared.client ≠ some c := fun heq =>
          hne (Option.some.inj (heq.symm.trans hclient))
        refine ⟨(Session.goRelay_of_ne _ hne _).trans hagree.1, ?_⟩
        have hpc := hagree.2
        cases pc <;> first | exact hpc | exact absurd hpc hslot
      | stopping pc =>
        rw [hlock] at hagree
        cases pc with
        | unlock client => exact ⟨hagree.1, rfl⟩
        | _ => exact hagree
  · cases panicked
    all_goals
      exact h.relayMove hout rfl nofun (fun c => .refl _)
        ⟨rfl, rfl, rfl, rfl, ⟨rfl, rfl, rfl⟩⟩

theorem Ownership.stepRelay (h : Ownership s) (hs : s.stepRelay conn panics = some s') :
    Ownership s' := by
  have habandon := later_setOutbox (s := s) (s.outbox conn).later_abandon
  have hkeep : ∀ c, (s.outbox c).Later (s.outbox c) := fun c => .refl _
  unfold Session.stepRelay at hs
  split at hs
  · next size hpc =>
    split at hs
    · next hfree =>
      obtain rfl := Option.some.inj hs
      refine h.quiet (.of_later (fun c hc => ?_) hkeep ?_ ?_ ?_ ⟨rfl, rfl, rfl⟩ rfl rfl
        fun _ => rfl) ⟨?_, ?_⟩ h.stopped
      · by_cases heq : c = conn
        · rw [heq, Session.goRelay_self] at hc
          exact nomatch hc
        · rw [Session.goRelay_of_ne _ heq] at hc
          exact ⟨hc, rfl⟩
      · rw [hfree]
        rfl
      · rw [hfree]
        rfl
      · rw [hfree]
        exact nofun
      · exact Session.goRelay_self ..
      · exact h.fresh conn (hpc ▸ rfl)
    · exact nomatch hs
  · split at hs
    · next hlock =>
      split at hs
      · next heq =>
        subst heq
        exact h.stepAttach hlock hs
      · exact nomatch hs
    · exact nomatch hs
  · next hpc =>
    obtain rfl := Option.some.inj hs
    exact h.relayMove (by rw [hpc]; exact nofun) rfl nofun habandon
      ⟨rfl, rfl, rfl, rfl, ⟨rfl, rfl, rfl⟩⟩
  · next hpc =>
    split at hs
    · exact nomatch hs
    · obtain rfl := Option.some.inj hs
      exact h.applyClientMessage hpc
  · next hpc =>
    obtain rfl := Option.some.inj hs
    exact h.relayMove (by rw [hpc]; exact nofun) rfl nofun hkeep
      ⟨rfl, rfl, rfl, rfl, ⟨rfl, rfl, rfl⟩⟩
  · next hpc =>
    split at hs
    · exact nomatch hs
    · obtain rfl := Option.some.inj hs
      exact h.detachClient hpc
  · next hpc =>
    obtain rfl := Option.some.inj hs
    exact h.relayMove (by rw [hpc]; exact nofun) rfl nofun habandon
      ⟨rfl, rfl, rfl, rfl, ⟨rfl, rfl, rfl⟩⟩
  · next hpc =>
    obtain rfl := Option.some.inj hs
    exact h.relayMove (by rw [hpc]; exact nofun) rfl nofun hkeep
      ⟨rfl, rfl, rfl, rfl, ⟨rfl, rfl, rfl⟩⟩
  all_goals exact nomatch hs

end Relay

/-! ## The pump, the writers and the main thread -/

section Others

variable {s s' : Session}

theorem Ownership.stepPump (h : Ownership s) (hs : s.stepPump = some s') : Ownership s' := by
  have hkeep : ∀ c, (s.outbox c).Later (s.outbox c) := fun c => .refl _
  unfold Session.stepPump at hs
  split at hs
  · obtain rfl := Option.some.inj hs
    exact h.aside hkeep (.of_eq rfl rfl rfl rfl rfl rfl rfl rfl ⟨rfl, rfl, rfl⟩)
  · split at hs
    · exact nomatch hs
    · obtain rfl := Option.some.inj hs
      unfold Session.routeOutput
      cases hclient : s.shared.client with
      | none =>
        simp only [hclient]
        exact h.aside hkeep
          (.of_eq hclient.symm rfl rfl rfl rfl rfl rfl rfl ⟨rfl, rfl, rfl⟩)
      | some owner =>
        simp only [hclient]
        exact h.aside hkeep (.of_eq rfl rfl rfl rfl rfl rfl rfl rfl ⟨rfl, rfl, rfl⟩)
  · next owner bytes _ =>
    obtain rfl := Option.some.inj hs
    exact h.aside (later_setOutbox ((s.outbox owner).later_queue (.output bytes)))
      (.of_eq rfl rfl rfl rfl rfl rfl rfl rfl ⟨rfl, rfl, rfl⟩)
  · next owner _ =>
    obtain rfl := Option.some.inj hs
    exact h.aside (later_setOutbox (s.outbox owner).later_abandon)
      (.of_eq rfl rfl rfl rfl rfl rfl rfl rfl ⟨rfl, rfl, rfl⟩)
  · obtain rfl := Option.some.inj hs
    exact h.aside hkeep (.of_eq rfl rfl rfl rfl rfl rfl rfl rfl ⟨rfl, rfl, rfl⟩)
  · exact nomatch hs
  · exact nomatch hs

theorem Ownership.read (h : Ownership s) {r : Session.Read} (hs : s.read r = some s') :
    Ownership s' := by
  have hkeep : ∀ c, (s.outbox c).Later (s.outbox c) := fun c => .refl _
  unfold Session.read at hs
  split at hs
  case h_4 => exact nomatch hs
  all_goals
    obtain rfl := Option.some.inj hs
    exact h.aside hkeep (.of_eq rfl rfl rfl rfl rfl rfl rfl rfl ⟨rfl, rfl, rfl⟩)

/-- A step of a writer. -/
theorem Ownership.writerMove (h : Ownership s) {conn : ConnId} (hpc : s.writer conn ≠ .unstarted)
    (hkept : (s'.outbox conn).finished = (s.outbox conn).finished ∧
      ((s.outbox conn).Noticed → (s'.outbox conn).Noticed))
    (hfifo : (s.outbox conn).Fifo (s.taken conn) → (s'.outbox conn).Fifo (s'.taken conn))
    (hother : ∀ c, c ≠ conn → s'.outbox c = s.outbox c ∧ s'.writer c = s.writer c ∧
      s'.sent c = s.sent c)
    (hshared : s'.shared = s.shared) (hhistory : s'.history = s.history)
    (hrelay : s'.relay = s.relay) (hmain : s'.main = s.main) :
    Ownership s' := by
  have hwriter : ∀ c, s.writer c = .unstarted → s'.writer c = s.writer c := fun c hc =>
    (hother c fun heq => hpc (heq ▸ hc)).2.1
  refine h.quiet ⟨hhistory ▸ rfl, hhistory ▸ rfl, hhistory ▸ rfl, fun c => hshared ▸ id,
    fun c hc => ?_, hshared ▸ rfl, ?_, fun c => .inl ?_, fun c hn => ?_, fun c => hshared ▸ .inl,
    fun c hf => ?_⟩ (.other h (hshared ▸ rfl) (fun c => hrelay ▸ id) (hhistory ▸ rfl)
      (hshared ▸ rfl) (hshared ▸ rfl) hwriter) (by rw [hmain, hshared]; exact h.stopped)
  · rw [hrelay] at hc
    exact ⟨hc, hwriter c (h.fresh c hc).2⟩
  · rw [Session.tenure, hshared, hmain]
    exact .refl _
  · by_cases hc : c = conn
    · exact hc ▸ hkept.1
    · rw [(hother c hc).1]
  · by_cases hc : c = conn
    · rw [hc] at hn ⊢
      exact hkept.2 hn
    · rwa [(hother c hc).1]
  · by_cases hc : c = conn
    · rw [hc] at hf ⊢
      exact hfifo hf
    · rw [Session.taken, (hother c hc).1, (hother c hc).2.1, (hother c hc).2.2]
      exact hf

theorem Ownership.stepWriter (h : Ownership s) {conn : ConnId} {fails : Bool}
    (hs : s.stepWriter conn fails = some s') : Ownership s' := by
  unfold Session.stepWriter at hs
  split at hs
  · next hpc =>
    have hstarted : s.writer conn ≠ .unstarted := hpc ▸ nofun
    have htaken : s.taken conn = s.sent conn := by
      rw [Session.taken, hpc]
      exact List.append_nil _
    split at hs
    · next message o htake =>
      obtain rfl := Option.some.inj hs
      refine h.writerMove hstarted ?_ (fun hf => ?_) (fun c hc =>
        ⟨s.setOutbox_of_ne hc _, Session.goWriter_of_ne _ hc _, rfl⟩) rfl rfl rfl rfl
      · show ((s.setOutbox conn o).outbox conn).finished = _ ∧
          (_ → ((s.setOutbox conn o).outbox conn).Noticed)
        rw [s.setOutbox_self]
        exact Outbox.takeNext_kept htake
      · show ((s.setOutbox conn o).outbox conn).Fifo _
        rw [s.setOutbox_self, Session.taken, Session.goWriter_self]
        exact (htaken ▸ hf).takeNext htake
    · obtain rfl := Option.some.inj hs
      refine h.writerMove hstarted ⟨rfl, id⟩ (fun hf => ?_) (fun c hc =>
        ⟨rfl, Session.goWriter_of_ne _ hc _, rfl⟩) rfl rfl rfl rfl
      have hsame : ((s.drop conn).goWriter conn .done).taken conn = s.taken conn := by
        rw [Session.taken, Session.goWriter_self, htaken]
        exact List.append_nil _
      exact hsame ▸ hf
    · exact nomatch hs
  · next message hpc =>
    have hstarted : s.writer conn ≠ .unstarted := hpc ▸ nofun
    have htaken : s.taken conn = s.sent conn ++ [message] := by
      rw [Session.taken, hpc]
      rfl
    have hsame : Function.update s.sent conn (s.sent conn ++ [message]) conn ++ [] =
        s.taken conn := by
      rw [Function.update_self, List.append_nil, htaken]
    have hsent : ∀ c, c ≠ conn →
        Function.update s.sent conn (s.sent conn ++ [message]) c = s.sent c :=
      fun c hc => Function.update_of_ne hc ..
    cases fails with
    | true =>
      simp only [if_true] at hs
      obtain rfl := Option.some.inj hs
      refine h.writerMove hstarted ⟨rfl, id⟩ (fun hf => ?_) (fun c hc =>
        ⟨rfl, Session.goWriter_of_ne _ hc _, hsent c hc⟩) rfl rfl rfl rfl
      rw [Session.taken, Session.goWriter_self]
      exact hsame ▸ hf
    | false =>
      simp only [Bool.false_eq_true, if_false] at hs
      obtain rfl := Option.some.inj hs
      refine h.writerMove hstarted ⟨rfl, id⟩ (fun hf => ?_) (fun c hc =>
        ⟨rfl, Session.goWriter_of_ne _ hc _, hsent c hc⟩) rfl rfl rfl rfl
      rw [Session.taken, Session.goWriter_self]
      exact hsame ▸ hf
  · exact nomatch hs
  · exact nomatch hs

/-- `stop_clients`: the slot's occupant moves to the lock and from there to
the main thread. -/
theorem Ownership.stepStop (h : Ownership s) {outcome : Option Int32} {pc : StopPc}
    (hmain : s.main = .stopping outcome) (hlock : s.shared.attach = .stopping pc)
    (hs : s.stepStop outcome pc = some s') : Ownership s' := by
  have hkeep : ∀ c, (s.outbox c).Later (s.outbox c) := fun c => .refl _
  have hagree := h.lock
  rw [hlock] at hagree
  have howed : ∀ c, s.shared.attach.owed ≠ some c := fun c => by
    rw [hlock]
    cases pc <;> exact nofun
  have hgreeting : s.shared.attach.greeting = none := by
    rw [hlock]
    cases pc <;> rfl
  cases pc with
  | storeStopping =>
    obtain rfl := Option.some.inj hs
    refine h.quiet (.of_later (fun c hc => ⟨hc, rfl⟩) hkeep hgreeting.symm ?_
      (fun c hc => absurd hc (howed c)) ⟨rfl, rfl, rfl⟩ rfl rfl fun _ => rfl) rfl fun hst => ?_
    · rw [hlock]
      rfl
    · rw [hmain] at hst
      exact nomatch hst
  | takeClient =>
    obtain rfl := Option.some.inj hs
    refine h.quiet ⟨rfl, rfl, rfl, nofun, fun c hc => ⟨hc, rfl⟩, hgreeting.symm, ?_,
      fun c => .inl rfl, fun c => id, fun c hc => absurd hc (howed c), fun c => id⟩
      ⟨hagree, rfl⟩ fun _ => ⟨hagree, rfl⟩
    simp only [Session.tenure, hlock, hmain]
    exact List.Sublist.refl _
  | unlock client =>
    obtain rfl := Option.some.inj hs
    refine h.quiet ⟨rfl, rfl, rfl, fun c => id, fun c hc => ⟨hc, rfl⟩, hgreeting.symm, ?_,
      fun c => .inl rfl, fun c => id, fun c hc => absurd hc (howed c), fun c => id⟩
      trivial fun _ => hagree
    simp only [Session.tenure, hlock, hmain]
    cases client with
    | none => exact List.Sublist.refl _
    | some client => cases outcome <;> exact List.Sublist.refl _

/-- The last client's outbox is finished when nobody refers to it any
more. -/
theorem Ownership.finishLast (h : Ownership s) {last : ConnId}
    (hmain : s.main = .finishLast last) :
    Ownership { s.finish last with main := .done } := by
  have htenure : s.tenure = s.shared.client.toList ++ (s.shared.attach.held.toList ++ [last]) := by
    rw [Session.tenure, hmain]
    rfl
  have hother : ∀ c, c ≠ last → (s.finish last).outbox c = s.outbox c := fun c hc =>
    s.setOutbox_of_ne hc _
  have hnodup := htenure ▸ h.tenure
  rw [← List.append_assoc] at htenure hnodup
  refine h.quiet ⟨rfl, rfl, rfl, fun c => id, fun c hc => ⟨hc, rfl⟩, rfl, ?_, fun c => ?_,
    fun c hn => ?_, fun c => .inl, fun c hf => ?_⟩
    (.other h rfl (fun c => id) rfl rfl rfl fun _ _ => rfl) fun _ => h.stopped (hmain ▸ rfl)
  · rw [htenure, Session.tenure]
    exact List.append_assoc .. ▸ List.Sublist.append_left (List.nil_sublist _) _
  · by_cases hc : c = last
    · refine .inr ⟨?_, fun hin => ?_⟩
      · rw [htenure, hc]
        exact List.mem_append_right _ (List.mem_singleton_self _)
      · rw [hc] at hin
        refine (List.nodup_append.mp hnodup).2.2 last ?_ last (List.mem_singleton_self _) rfl
        have hleft : last ∈ s.shared.client.toList ++ (s.shared.attach.held.toList ++ []) := hin
        rwa [List.append_nil] at hleft
    · exact .inl (congrArg Outbox.finished (hother c hc))
  · show ((s.finish last).outbox c).Noticed
    by_cases hc : c = last
    · rw [hc, Session.finish, s.setOutbox_self]
      exact hc ▸ hn
    · rwa [hother c hc]
  · show ((s.finish last).outbox c).Fifo (s.taken c)
    by_cases hc : c = last
    · rw [hc, Session.finish, s.setOutbox_self]
      exact ⟨(hc ▸ hf).start, (hc ▸ hf).whole⟩
    · rwa [hother c hc]

theorem Ownership.stepMain (h : Ownership s) (hs : s.stepMain = some s') : Ownership s' := by
  have hkeep : ∀ c, (s.outbox c).Later (s.outbox c) := fun c => .refl _
  unfold Session.stepMain at hs
  split at hs
  · next hmain =>
    obtain rfl := Option.some.inj hs
    split
    all_goals
      exact h.aside hkeep
        (.of_eq rfl (hmain ▸ rfl) (hmain ▸ rfl) rfl rfl rfl rfl rfl ⟨rfl, rfl, rfl⟩)
  · next hmain =>
    split at hs
    · obtain rfl := Option.some.inj hs
      exact h.aside hkeep
        (.of_eq rfl (hmain ▸ rfl) (hmain ▸ rfl) rfl rfl rfl rfl rfl ⟨rfl, rfl, rfl⟩)
    · exact nomatch hs
  · next hmain =>
    split at hs
    · obtain rfl := Option.some.inj hs
      exact h.aside hkeep
        (.of_eq rfl (hmain ▸ rfl) (hmain ▸ rfl) rfl rfl rfl rfl rfl ⟨rfl, rfl, rfl⟩)
    · exact nomatch hs
  · next hmain =>
    split at hs
    · next hfree =>
      obtain rfl := Option.some.inj hs
      refine h.quiet (.of_later (fun c hc => ⟨hc, rfl⟩) hkeep ?_ ?_ ?_ ⟨rfl, rfl, rfl⟩ rfl
        (hmain ▸ rfl) fun _ => rfl) trivial nofun
      · rw [hfree]
        rfl
      · rw [hfree]
        rfl
      · rw [hfree]
        exact nofun
    · exact nomatch hs
  · next hmain =>
    split at hs
    · next hlock => exact h.stepStop hmain hlock hs
    · exact nomatch hs
  · next status client hmain =>
    obtain rfl := Option.some.inj hs
    have hlater := later_setOutbox (s := s) ((s.outbox client).later_queue (.appExited status))
    cases ((s.outbox client).queue (.appExited status)).2 <;>
      exact h.aside hlater
        (.of_eq rfl (hmain ▸ rfl) (hmain ▸ rfl) rfl rfl rfl rfl rfl ⟨rfl, rfl, rfl⟩)
  · next client hmain =>
    obtain rfl := Option.some.inj hs
    exact h.aside (later_setOutbox (s.outbox client).later_abandon)
      (.of_eq rfl (hmain ▸ rfl) (hmain ▸ rfl) rfl rfl rfl rfl rfl ⟨rfl, rfl, rfl⟩)
  · next hmain =>
    obtain rfl := Option.some.inj hs
    exact h.finishLast hmain
  · exact nomatch hs
  · exact nomatch hs

end Others

/-! ## Runs -/

theorem Ownership.next {id : SessionId} {s s' : Session} {m : Move} (h : Ownership s)
    (hs : (sessions id).next s m = some s') : Ownership s' := by
  cases m with
  | receive conn r => exact h.receive hs
  | relay conn panics => exact h.stepRelay hs
  | initiatorGone =>
    obtain rfl := Option.some.inj hs
    exact h.aside (fun c => .refl _) (.of_eq rfl rfl rfl rfl rfl rfl rfl rfl ⟨rfl, rfl, rfl⟩)
  | read r => exact h.read hs
  | pump => exact h.stepPump hs
  | appExits waited =>
    change s.appExits waited = some s' at hs
    unfold Session.appExits at hs
    split at hs
    · next hmain =>
      obtain rfl := Option.some.inj hs
      exact h.aside (fun c => .refl _)
        (.of_eq rfl (hmain ▸ rfl) (hmain ▸ rfl) rfl rfl rfl rfl rfl ⟨rfl, rfl, rfl⟩)
    · exact nomatch hs
  | main => exact h.stepMain hs
  | writer conn fails => exact h.stepWriter hs

theorem ownership_of_reach {id : SessionId} {ok : Session → Move → Prop} {s : Session}
    (h : Machine.Reach (sessions id) ok s) : Ownership s :=
  h.invariant (ownership_start id) fun _ _ _ _ hi _ hs => hi.next hs

end Folo.Dure
