import Folo.Dure.Ownership

/-!
# The console a session shares out

An abstract console: a slot, who was acknowledged for it, who had it, who
was displaced from it, what was asked of the pseudoconsole, and whether it
is closed. Its events carry the rules: only the occupant reaches the
pseudoconsole or gives the slot up, a connection is acknowledged once and
takes the slot next, and nobody comes after it closed. Every step of a
session is one event of its console, or none (`console_step`).
-/

namespace Folo.Dure

open Folo.Lib

structure Console where
  client : Option ConnId
  pty : List (ConnId × PtyCall)
  acknowledged : List ConnId
  owners : List ConnId
  displaced : List ConnId
  closed : Bool

inductive ConsoleEvent
  | apply (conn : ConnId) (call : PtyCall)
  | acknowledge (conn : ConnId)
  | install (conn : ConnId)
  | detach (conn : ConnId)
  | close
  deriving DecidableEq

namespace Console

/-- The rules of the console. -/
def next (k : Console) : ConsoleEvent → Option Console
  | .apply conn call =>
    if k.client = some conn then some { k with pty := k.pty ++ [(conn, call)] } else none
  | .acknowledge conn =>
    if k.closed = false ∧ k.acknowledged = k.owners ∧ conn ∉ k.acknowledged then
      some { k with acknowledged := k.acknowledged ++ [conn] }
    else none
  | .install conn =>
    if k.closed = false ∧ k.acknowledged = k.owners ++ [conn] then
      some { k with
        client := some conn
        owners := k.owners ++ [conn]
        displaced := k.displaced ++ k.client.toList }
    else none
  | .detach conn => if k.client = some conn then some { k with client := none } else none
  | .close => some { k with client := none, closed := true }

end Console

/-- `stop_clients` has emptied the slot. -/
def AttachLock.closing : AttachLock → Bool
  | stopping (.unlock _) => true
  | _ => false

/-- The console of a session. -/
def Session.console (s : Session) : Console where
  client := s.shared.client
  pty := s.history.pty
  acknowledged := s.history.acknowledged
  owners := s.history.owners
  displaced := s.history.displaced
  closed := s.main.stopped || s.shared.attach.closing

/-- A step is an event of the console, of the connection whose thread moves,
or leaves it alone. -/
def ConsoleStep (s s' : Session) (conn : Option ConnId) : Prop :=
  s'.console = s.console ∨ ∃ e, s.console.next e = some s'.console ∧
    match e with
    | .apply c _ | .acknowledge c | .install c | .detach c => conn = some c
    | .close => conn = none

variable {id : SessionId} {s s' : Session} {conn : ConnId} {panics : Bool}

/-- A step that leaves the slot, the pseudoconsole and the histories alone. -/
theorem ConsoleStep.quiet {c : Option ConnId}
    (hclosed : (s'.main.stopped || s'.shared.attach.closing) =
      (s.main.stopped || s.shared.attach.closing))
    (hclient : s'.shared.client = s.shared.client) (hpty : s'.history.pty = s.history.pty)
    (hack : s'.history.acknowledged = s.history.acknowledged)
    (howners : s'.history.owners = s.history.owners)
    (hdisplaced : s'.history.displaced = s.history.displaced) : ConsoleStep s s' c := by
  left
  rw [Session.console, Session.console, hclosed, hclient, hpty, hack, howners, hdisplaced]

theorem console_stepAttach (h : Ownership s) {size : WindowSize} {pc : AttachPc}
    (hlock : s.shared.attach = .attaching conn size pc)
    (hs : s.stepAttach conn size panics pc = some s') : ConsoleStep s s' (some conn) := by
  have hopen : s.shared.attach.closing = false := by
    rw [hlock]
    rfl
  have horder := h.order
  rw [hlock] at horder
  have hagree := (h.attaching hlock).2
  have hnot : s.shared.stopping = false → s.main.stopped = false := fun hst =>
    Bool.not_eq_true _ ▸ fun hmain => Bool.false_ne_true (hst.symm.trans (h.stopped hmain).1)
  have hclosed : (s.main.stopped || false) = (s.main.stopped || s.shared.attach.closing) := by
    rw [hopen]
  have hclosedAt : s.shared.stopping = false → s.console.closed = false := fun hst =>
    hclosed.symm.trans (by rw [hnot hst]; rfl)
  cases pc with
  | acknowledge =>
    obtain rfl := Option.some.inj hs
    refine .inr ⟨.acknowledge conn, ?_, rfl⟩
    rw [Console.next, if_pos ⟨hclosedAt hagree.2, horder.trans (List.append_nil _), hagree.1⟩]
    exact congrArg (fun b => some (Console.mk _ _ _ _ _ b)) hclosed.symm
  | install =>
    obtain rfl := Option.some.inj hs
    refine .inr ⟨.install conn, ?_, rfl⟩
    rw [Console.next, if_pos ⟨hclosedAt hagree, horder⟩]
    exact congrArg (fun b => some (Console.mk _ _ _ _ _ b)) hclosed.symm
  | applySize =>
    obtain rfl := Option.some.inj hs
    refine .inr ⟨.apply conn (.resize size), ?_, rfl⟩
    rw [Console.next, if_pos (show s.console.client = some conn from hagree)]
    exact congrArg (fun b => some (Console.mk _ _ _ _ _ b)) hclosed.symm
  | startOutbox =>
    cases panics <;> obtain rfl := Option.some.inj hs
    all_goals exact .quiet hclosed rfl rfl rfl rfl rfl
  | sendHeld rest =>
    cases rest <;> obtain rfl := Option.some.inj hs
    all_goals exact .quiet hclosed rfl rfl rfl rfl rfl
  | _ =>
    obtain rfl := Option.some.inj hs
    exact .quiet hclosed rfl rfl rfl rfl rfl

theorem console_stepRelay (h : Ownership s) (hs : s.stepRelay conn panics = some s') :
    ConsoleStep s s' (some conn) := by
  unfold Session.stepRelay at hs
  split at hs
  · split at hs
    · next hfree =>
      obtain rfl := Option.some.inj hs
      exact .quiet (hfree ▸ rfl) rfl rfl rfl rfl rfl
    · exact nomatch hs
  · split at hs
    · next hlock =>
      split at hs
      · next heq => exact console_stepAttach h (heq ▸ hlock) hs
      · exact nomatch hs
    · exact nomatch hs
  · obtain rfl := Option.some.inj hs
    exact .quiet rfl rfl rfl rfl rfl rfl
  · split at hs
    · exact nomatch hs
    · obtain rfl := Option.some.inj hs
      unfold Session.applyClientMessage
      split
      · next hclient =>
        split
        · next call _ =>
          refine .inr ⟨.apply conn call, ?_, rfl⟩
          rw [Console.next, if_pos (show s.console.client = some conn from hclient)]
          rfl
        · exact .quiet rfl rfl rfl rfl rfl rfl
      · exact .quiet rfl rfl rfl rfl rfl rfl
  · obtain rfl := Option.some.inj hs
    exact .quiet rfl rfl rfl rfl rfl rfl
  · split at hs
    · exact nomatch hs
    · obtain rfl := Option.some.inj hs
      unfold Session.detachClient
      split
      · next hclient =>
        refine .inr ⟨.detach conn, ?_, rfl⟩
        rw [Console.next, if_pos (show s.console.client = some conn from hclient)]
        rfl
      · exact .quiet rfl rfl rfl rfl rfl rfl
  · obtain rfl := Option.some.inj hs
    exact .quiet rfl rfl rfl rfl rfl rfl
  · obtain rfl := Option.some.inj hs
    exact .quiet rfl rfl rfl rfl rfl rfl
  all_goals exact nomatch hs

theorem console_stepMain (hs : s.stepMain = some s') : ConsoleStep s s' none := by
  unfold Session.stepMain at hs
  split at hs
  · next hmain =>
    obtain rfl := Option.some.inj hs
    split <;> exact .quiet (hmain ▸ rfl) rfl rfl rfl rfl rfl
  · next hmain =>
    split at hs
    · obtain rfl := Option.some.inj hs
      exact .quiet (hmain ▸ rfl) rfl rfl rfl rfl rfl
    · exact nomatch hs
  · next hmain =>
    split at hs
    · obtain rfl := Option.some.inj hs
      exact .quiet (hmain ▸ rfl) rfl rfl rfl rfl rfl
    · exact nomatch hs
  · next hmain =>
    split at hs
    · next hfree =>
      obtain rfl := Option.some.inj hs
      exact .quiet (by rw [hmain, hfree]; rfl) rfl rfl rfl rfl rfl
    · exact nomatch hs
  · next outcome hmain =>
    split at hs
    · next pc hlock =>
      cases pc with
      | storeStopping =>
        obtain rfl := Option.some.inj hs
        exact .quiet (by rw [hlock]; rfl) rfl rfl rfl rfl rfl
      | takeClient =>
        obtain rfl := Option.some.inj hs
        refine .inr ⟨.close, ?_, rfl⟩
        exact congrArg (fun b => some (Console.mk _ _ _ _ _ b)) (Bool.or_true _).symm
      | unlock client =>
        obtain rfl := Option.some.inj hs
        have hafter : (Session.afterStop client outcome).stopped = true := by
          cases client <;> cases outcome <;> rfl
        exact .quiet (by rw [hlock, hafter]; exact (Bool.or_true _).symm) rfl rfl rfl rfl rfl
    · exact nomatch hs
  · next status client hmain =>
    obtain rfl := Option.some.inj hs
    split <;> exact .quiet (hmain ▸ rfl) rfl rfl rfl rfl rfl
  · next hmain =>
    obtain rfl := Option.some.inj hs
    exact .quiet (hmain ▸ rfl) rfl rfl rfl rfl rfl
  · next hmain =>
    obtain rfl := Option.some.inj hs
    exact .quiet (hmain ▸ rfl) rfl rfl rfl rfl rfl
  · exact nomatch hs
  · exact nomatch hs

/-- Whose thread a move is, when it is a connection's. -/
def Move.mover : Move → Option ConnId
  | receive conn _ | relay conn _ => some conn
  | _ => none

/-- **A session keeps the rules of its console.** -/
theorem console_step (h : Ownership s) {m : Move} (hs : (sessions id).next s m = some s') :
    ConsoleStep s s' m.mover := by
  cases m with
  | receive conn r =>
    change s.receive conn r = some s' at hs
    unfold Session.receive at hs
    split at hs
    case h_7 => exact nomatch hs
    all_goals
      obtain rfl := Option.some.inj hs
      exact .quiet rfl rfl rfl rfl rfl rfl
  | relay conn panics => exact console_stepRelay h hs
  | initiatorGone =>
    obtain rfl := Option.some.inj hs
    exact .quiet rfl rfl rfl rfl rfl rfl
  | read r =>
    change s.read r = some s' at hs
    unfold Session.read at hs
    split at hs
    case h_4 => exact nomatch hs
    all_goals
      obtain rfl := Option.some.inj hs
      exact .quiet rfl rfl rfl rfl rfl rfl
  | pump =>
    change s.stepPump = some s' at hs
    unfold Session.stepPump at hs
    split at hs
    case h_2 =>
      split at hs
      · exact nomatch hs
      · obtain rfl := Option.some.inj hs
        unfold Session.routeOutput
        cases hclient : s.shared.client with
        | none =>
          simp only [hclient]
          exact .quiet rfl hclient.symm rfl rfl rfl rfl
        | some owner =>
          simp only [hclient]
          exact .quiet rfl rfl rfl rfl rfl rfl
    case h_6 | h_7 => exact nomatch hs
    all_goals
      obtain rfl := Option.some.inj hs
      exact .quiet rfl rfl rfl rfl rfl rfl
  | appExits waited =>
    change s.appExits waited = some s' at hs
    unfold Session.appExits at hs
    split at hs
    · next hmain =>
      obtain rfl := Option.some.inj hs
      exact .quiet (hmain ▸ rfl) rfl rfl rfl rfl rfl
    · exact nomatch hs
  | main => exact console_stepMain hs
  | writer conn fails =>
    change s.stepWriter conn fails = some s' at hs
    unfold Session.stepWriter at hs
    split at hs
    · split at hs
      · obtain rfl := Option.some.inj hs
        exact .quiet rfl rfl rfl rfl rfl rfl
      · obtain rfl := Option.some.inj hs
        exact .quiet rfl rfl rfl rfl rfl rfl
      · exact nomatch hs
    · obtain rfl := Option.some.inj hs
      cases fails <;> exact .quiet rfl rfl rfl rfl rfl rfl
    · exact nomatch hs
    · exact nomatch hs

/-! ## What follows from the rules -/

/-- Once the console is closed it stays empty, and nobody is acknowledged. -/
theorem closed_next (hclosed : s.console.closed = true) (hclient : s.shared.client = none)
    {mover : Option ConnId} (hs : ConsoleStep s s' mover) :
    s'.console.closed = true ∧ s'.shared.client = none ∧
      s'.history.acknowledged = s.history.acknowledged := by
  have hfree : ∀ c, s.console.client ≠ some c := fun c hc =>
    nomatch (show s.shared.client = some c from hc).symm.trans hclient
  obtain hsame | ⟨e, he, -⟩ := hs
  · exact ⟨(congrArg Console.closed hsame).trans hclosed,
      (congrArg Console.client hsame).trans hclient, congrArg Console.acknowledged hsame⟩
  · cases e with
    | apply c call =>
      rw [Console.next, if_neg (hfree c)] at he
      exact nomatch he
    | acknowledge c =>
      rw [Console.next, if_neg fun hopen => Bool.false_ne_true (hopen.1.symm.trans hclosed)] at he
      exact nomatch he
    | install c =>
      rw [Console.next, if_neg fun hopen => Bool.false_ne_true (hopen.1.symm.trans hclosed)] at he
      exact nomatch he
    | detach c =>
      rw [Console.next, if_neg (hfree c)] at he
      exact nomatch he
    | close =>
      have heq := (Option.some.inj he).symm
      exact ⟨congrArg Console.closed heq, congrArg Console.client heq,
        congrArg Console.acknowledged heq⟩

theorem closed_runFrom (h : Ownership s) (hclosed : s.console.closed = true)
    (hclient : s.shared.client = none) (ms : List Move)
    (hrun : (sessions id).runFrom s ms = some s') :
    s'.shared.client = none ∧ s'.history.acknowledged = s.history.acknowledged := by
  induction ms generalizing s with
  | nil =>
    obtain rfl := Option.some.inj hrun
    exact ⟨hclient, rfl⟩
  | cons m ms ih =>
    rw [Machine.runFrom_cons, Option.bind_eq_some_iff] at hrun
    obtain ⟨t, hstep, hrest⟩ := hrun
    obtain ⟨hclosed', hclient', hack⟩ := closed_next hclosed hclient (console_step h hstep)
    obtain ⟨hfinal, hsame⟩ := ih (h.next hstep) hclosed' hclient' hrest
    exact ⟨hfinal, hsame.trans hack⟩

/-- A step by the thread of a displaced connection leaves the slot alone. -/
theorem displaced_step (h : Ownership s) (hconn : conn ∈ s.history.displaced)
    (hs : ConsoleStep s s' (some conn)) : s'.shared.client = s.shared.client := by
  obtain ⟨howner, hout⟩ := h.displaced conn hconn
  obtain hsame | ⟨e, he, hmover⟩ := hs
  · exact congrArg Console.client hsame
  · cases e with
    | apply c call =>
      rw [Console.next, Option.ite_none_right_eq_some] at he
      exact congrArg Console.client (Option.some.inj he.2).symm
    | acknowledge c =>
      rw [Console.next, Option.ite_none_right_eq_some] at he
      exact congrArg Console.client (Option.some.inj he.2).symm
    | install c =>
      rw [Console.next, Option.ite_none_right_eq_some] at he
      have horder : s.history.acknowledged = s.history.owners ++ [c] := he.1.2
      have hnodup := horder ▸ h.nodup
      have hc : c ∈ s.history.owners := Option.some.inj hmover ▸ howner
      exact absurd rfl ((List.nodup_append.mp hnodup).2.2 c hc c (List.mem_singleton_self c))
    | detach c =>
      rw [Console.next, Option.ite_none_right_eq_some] at he
      exact absurd (Option.some.inj hmover ▸ he.1) hout
    | close => exact nomatch hmover

/-- What holds of a state of a session: of its histories, of its next step
and of everything after it. -/
structure ConsoleOwned (id : SessionId) (s : Session) : Prop where
  /-- The pseudoconsole is reached by the thread of the connection that has
  the slot. -/
  applied : ∀ m s', (sessions id).next s m = some s' → s'.history.pty = s.history.pty ∨
    ∃ conn call, s'.history.pty = s.history.pty ++ [(conn, call)] ∧ m.mover = some conn ∧
      s.shared.client = some conn ∧ s'.shared.client = some conn
  /-- The thread of a displaced connection removes nobody. -/
  successor : ∀ conn ∈ s.history.displaced, ∀ m s', m.mover = some conn →
    (sessions id).next s m = some s' → s'.shared.client = s.shared.client
  /-- Owners follow each other as they were acknowledged, each once; one
  attach at most is between the two. -/
  order : s.history.acknowledged = s.history.owners ++ s.shared.attach.greeting.toList ∧
    s.history.acknowledged.Nodup
  /-- A displaced connection's notice is sent or on its way, or its outbox is
  abandoned, or its successor is just about to queue it. -/
  notice : ∀ conn ∈ s.history.displaced, s.shared.attach.owed = some conn ∨
    .displaced ∈ s.taken conn ++ (s.outbox conn).queued ∨ (s.outbox conn).abandoned = true
  /-- Nobody has the slot or is acknowledged after `stop_clients`. -/
  closed : s.console.closed = true → ∀ ms s', (sessions id).runFrom s ms = some s' →
    s'.shared.client = none ∧ s'.history.acknowledged = s.history.acknowledged

/-- **Console ownership**, in every state of every session. -/
theorem console_owned (h : Machine.Reachable (sessions id) s) : ConsoleOwned id s := by
  have ho := ownership_of_reach h
  refine ⟨fun m s' hs => ?_, fun conn hconn m s' hmover hs => ?_, ⟨ho.order, ho.nodup⟩,
    fun conn hconn => ?_, fun hclosed ms s' hrun => ?_⟩
  · obtain hsame | ⟨e, he, hmover⟩ := console_step ho hs
    · exact .inl (congrArg Console.pty hsame)
    · cases e with
      | apply c call =>
        rw [Console.next, Option.ite_none_right_eq_some] at he
        have heq := (Option.some.inj he.2).symm
        exact .inr ⟨c, call, congrArg Console.pty heq, hmover, he.1,
          (congrArg Console.client heq).trans he.1⟩
      | close => exact .inl (congrArg Console.pty (Option.some.inj he).symm)
      | _ =>
        rw [Console.next, Option.ite_none_right_eq_some] at he
        exact .inl (congrArg Console.pty (Option.some.inj he.2).symm)
  · exact displaced_step ho hconn (hmover ▸ console_step ho hs)
  · refine (ho.notice conn hconn).imp_right fun hn => ?_
    cases hab : (s.outbox conn).abandoned with
    | true => exact .inr rfl
    | false =>
      refine .inl ?_
      rw [(ho.fifo conn).whole hab]
      exact hn.resolve_right (Bool.not_eq_true _ ▸ hab)
  · have hclient : s.shared.client = none := by
      rcases Bool.or_eq_true_iff.mp hclosed with hmain | hlock
      · exact (ho.stopped hmain).2
      · have hagree := ho.lock
        cases hattach : s.shared.attach with
        | stopping pc =>
          rw [hattach] at hlock hagree
          cases pc with
          | unlock client => exact hagree.2
          | _ => exact nomatch hlock
        | _ =>
          rw [hattach] at hlock
          exact nomatch hlock
    exact closed_runFrom ho hclosed hclient ms hrun

/-- One client types, a second one steals the console, the first one leaves
and the session ends. -/
def stolenMoves : List Move :=
  Move.receive 0 (.message (.attach .default)) :: List.replicate 10 (Move.relay 0 false) ++
  [Move.receive 0 (.message (.input [97])), .relay 0 false] ++
  Move.receive 1 (.message (.attach .default)) :: List.replicate 12 (Move.relay 1 false) ++
  [Move.receive 0 .failed, .relay 0 false] ++
  [Move.pump, .read .eof, .appExits (some 0)] ++ List.replicate 7 Move.main

theorem console_owned_stolen : ∃ s, (sessions .min).run stolenMoves = some s ∧
    s.history.owners = [0, 1] ∧ s.history.displaced = [0] ∧ s.console.closed = true ∧
    ConsoleOwned .min s := by
  obtain ⟨s, hrun, howners, hdisplaced, hclosed⟩ : ∃ s,
      (sessions .min).run stolenMoves = some s ∧ s.history.owners = [0, 1] ∧
        s.history.displaced = [0] ∧ s.console.closed = true :=
    ⟨_, rfl, rfl, rfl, rfl⟩
  exact ⟨s, hrun, howners, hdisplaced, hclosed, console_owned (Machine.reachable_of_run hrun)⟩

end Folo.Dure
