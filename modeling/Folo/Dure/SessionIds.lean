import Folo.Dure.StoreOwners

/-!
# No session id is shared or stolen

Every step of a process keeps to the rule of `Keeps`, in its own name, and
carries its own knowledge on (`processStep_spec`); the rule of the library
then gives that knowledge to every process in every state (`fits`). What was
to be shown are its consequences: two live processes never hold one id, a
live owner's file changes by its owner's hand only, and a process whose
record writer has finished brings no file back.
-/

namespace Folo.Dure

open Folo.Lib Folo.Lib.Machine

section

variable {h : Host} {me : ProcessIdentity} {pc : Process}

/-- A step of the main thread. -/
structure SuperviseOk (me : ProcessIdentity) (h : Host) (pc : Process)
    (r : StoreFiles × Process) : Prop where
  keeps : Keeps (· = me) h { h with files := r.1 }
  main : MainOk me r.1 r.2.main
  recorder : RecorderOk me r.1 r.2.main r.2.recorder
  stop : .stop ∈ r.2.updates → r.2.main.Closing
  command : r.2.command = pc.command

/-- While `main` does not serve, the record writer has not started or is
over, and knows nothing of the files. -/
theorem RecorderOk.of_not_serving {files files' : StoreFiles} {main main' : Supervising}
    {recorder : Recording} (hok : RecorderOk me files main recorder)
    (hserve : ∀ id, ¬ main.Serves id) (hclose : main.Closing → main'.Closing) :
    RecorderOk me files' main' recorder := by
  cases recorder with
  | unstarted => trivial
  | waiting id => exact absurd hok (hserve id)
  | reading id attached => exact absurd hok (hserve id)
  | publishing id at_ => exact absurd hok.1 (hserve id)
  | finished => exact hclose hok

theorem superviseStep_spec {spec : SessionSpec} {ok : Bool} {r : StoreFiles × Process}
    (hfit : StoreFits me pc h) (hs : superviseStep spec me h.files pc ok = some r) :
    SuperviseOk me h pc r := by
  obtain ⟨main, attempts, recorder, updates, generation, command⟩ := pc
  obtain ⟨hmain, hrec, hstop, -⟩ := hfit
  have hstaging : ∀ k, Private (· = me) h (.staging me k) := fun _ => rfl
  cases main with
  | idle =>
    simp only [superviseStep] at hs
    split at hs
    next opened hopened =>
      obtain rfl := Option.some.inj hs
      unfold Files.createNew at hopened
      split at hopened
      · cases hopened
      · obtain rfl := Option.some.inj hopened
        exact ⟨keeps_create (hstaging attempts) _, Files.create_names_self,
          hrec.of_not_serving (by rintro _ ⟨⟩) (by rintro ⟨⟩),
          fun hin => (hstop hin).elim, rfl⟩
    next =>
      obtain rfl := Option.some.inj hs
      exact ⟨Keeps.refl _ _, trivial, hrec.of_not_serving (by rintro _ ⟨⟩) (by rintro ⟨⟩),
          fun hin => (hstop hin).elim, rfl⟩
  | staging attempt file =>
    simp only [superviseStep] at hs
    have hname : h.files.names (.staging me attempt) = some file := hmain
    cases ok with
    | true =>
      obtain rfl := Option.some.inj hs
      refine ⟨keeps_write (hstaging attempt) hname _, ?_, hrec.of_not_serving (by rintro _ ⟨⟩) (by rintro ⟨⟩),
          fun hin => (hstop hin).elim, rfl⟩
      have hname' : (h.files.write file (.stored (.reserved me))).names (.staging me attempt) =
          some file := hname
      exact (Files.readAt_of_names hname').trans (congrArg some Files.write_bytes_self)
    | false =>
      obtain rfl := Option.some.inj hs
      exact ⟨keeps_write (hstaging attempt) hname _, trivial, hrec.of_not_serving (by rintro _ ⟨⟩) (by rintro ⟨⟩),
          fun hin => (hstop hin).elim, rfl⟩
  | installing attempt id =>
    simp only [superviseStep] at hs
    have hread : h.files.readAt (.staging me attempt) = some (.stored (.reserved me)) := hmain
    split at hs
    next files' hmove =>
      obtain rfl := Option.some.inj hs
      obtain ⟨hfree, hmove⟩ := Files.moveNoReplace_cases hmove
      refine ⟨keeps_move (hstaging attempt) hmove hread rfl rfl ?_, ⟨?_, rfl, rfl⟩,
        hrec.of_not_serving (by rintro _ ⟨⟩) (by rintro ⟨⟩),
          fun hin => (hstop hin).elim, rfl⟩
      · intro p _ _ ho
        obtain ⟨f, hf, -⟩ := ownerOf_eq_some ho
        rw [hfree] at hf
        cases hf
      · rw [ownerOf, Files.readAt_eq, Files.moveReplace_entry_dst hmove, ← Files.readAt_eq, hread]
        rfl
    next =>
      split at hs
      next next hnext =>
        obtain rfl := Option.some.inj hs
        exact ⟨Keeps.refl _ _, hmain, hrec.of_not_serving (by rintro _ ⟨⟩) (by rintro ⟨⟩),
          fun hin => (hstop hin).elim, rfl⟩
      next =>
        obtain rfl := Option.some.inj hs
        exact ⟨Keeps.refl _ _, trivial, hrec.of_not_serving (by rintro _ ⟨⟩) (by rintro ⟨⟩),
          fun hin => (hstop hin).elim, rfl⟩
    next =>
      obtain rfl := Option.some.inj hs
      exact ⟨Keeps.refl _ _, trivial, hrec.of_not_serving (by rintro _ ⟨⟩) (by rintro ⟨⟩),
          fun hin => (hstop hin).elim, rfl⟩
  | removing attempt =>
    simp only [superviseStep] at hs
    obtain rfl := Option.some.inj hs
    refine ⟨?_, trivial, hrec.of_not_serving (by rintro _ ⟨⟩) (by rintro ⟨⟩),
          fun hin => (hstop hin).elim, rfl⟩
    cases ok with
    | true => exact keeps_unlink (hstaging attempt)
    | false => exact Keeps.refl _ _
  | publishing id at_ =>
    obtain ⟨hkeep, hown, hgo⟩ := publish_spec ok hmain.1 hmain.2
    simp only [superviseStep] at hs
    split at hs
    next at_' hrun =>
      obtain rfl := Option.some.inj hs
      exact ⟨hkeep, ⟨hown, hgo _ hrun⟩, hrec.of_not_serving (by rintro _ ⟨⟩) (by rintro ⟨⟩),
          fun hin => (hstop hin).elim, rfl⟩
    next =>
      obtain rfl := Option.some.inj hs
      exact ⟨hkeep, hown, hrec.of_not_serving (by rintro _ ⟨⟩) (by rintro ⟨⟩),
          fun hin => (hstop hin).elim, rfl⟩
    next =>
      obtain rfl := Option.some.inj hs
      exact ⟨hkeep, ⟨hown, rfl⟩, hrec.of_not_serving (by rintro _ ⟨⟩) (by rintro ⟨⟩),
          fun hin => (hstop hin).elim, rfl⟩
  | published id =>
    simp only [superviseStep] at hs
    cases ok with
    | true =>
      obtain rfl := Option.some.inj hs
      exact ⟨Keeps.refl _ _, hmain, rfl, fun hin => (hstop hin).elim, rfl⟩
    | false =>
      obtain rfl := Option.some.inj hs
      exact ⟨Keeps.refl _ _, ⟨hmain, rfl⟩, hrec.of_not_serving (by rintro _ ⟨⟩) (by rintro ⟨⟩),
          fun hin => (hstop hin).elim, rfl⟩
  | serving id =>
    obtain rfl := Option.some.inj hs
    refine ⟨Keeps.refl _ _, hmain, ?_, fun _ => trivial, rfl⟩
    cases recorder with
    | finished => exact hrec.elim
    | _ => exact hrec
  | joining id =>
    cases recorder with
    | finished =>
      obtain rfl := Option.some.inj hs
      exact ⟨Keeps.refl _ _, ⟨hmain, rfl⟩, trivial, fun _ => trivial, rfl⟩
    | _ => cases hs
  | deleting id at_ =>
    obtain ⟨hkeep, hgo⟩ := deleteOwnedBy_spec (fun o ho => .inl ho) ok hmain.2
    have hrec' : ∀ {files' main'}, Supervising.Closing main' →
        RecorderOk me files' main' recorder := fun hc => hrec.of_not_serving (by rintro _ ⟨⟩) fun _ => hc
    simp only [superviseStep] at hs
    split at hs
    next at_' hrun =>
      obtain ⟨hfiles, hdel⟩ := hgo _ hrun
      obtain rfl := Option.some.inj hs
      refine ⟨hkeep, ?_, hrec' trivial, fun _ => trivial, rfl⟩
      rw [hfiles]
      exact ⟨hmain.1, hdel⟩
    next =>
      obtain rfl := Option.some.inj hs
      exact ⟨hkeep, trivial, hrec' trivial, fun _ => trivial, rfl⟩
  | ended => cases hs

/-- While `main` serves, its own knowledge is that the id is its own. -/
theorem MainOk.of_serves {files : StoreFiles} {main : Supervising} {id : SessionId}
    (hserve : main.Serves id) (ho : ownerOf files id = some me) : MainOk me files main := by
  cases main with
  | serving id' => exact (show id' = id from hserve) ▸ ho
  | joining id' => exact (show id' = id from hserve) ▸ ho
  | _ => exact hserve.elim

/-- A step of the record writer. What it reads under the session's id is the
process's own record. -/
theorem recordStep_spec {ok : Bool} {r : StoreFiles × Process} (hfit : StoreFits me pc h)
    (hs : recordStep h.files pc ok = some r) :
    SuperviseOk me h pc r ∧ r.2.main = pc.main := by
  obtain ⟨main, attempts, recorder, updates, generation, command⟩ := pc
  obtain ⟨hmain, hrec, hstop, -⟩ := hfit
  cases recorder with
  | unstarted => cases hs
  | finished => cases hs
  | waiting id =>
    simp only [recordStep] at hs
    split at hs
    · cases hs
    next rest =>
      obtain rfl := Option.some.inj hs
      exact ⟨⟨Keeps.refl _ _, hmain, hstop (.head _), fun hin => hstop (.tail _ hin), rfl⟩, rfl⟩
    next generation' attached rest =>
      split at hs
      · obtain rfl := Option.some.inj hs
        exact ⟨⟨Keeps.refl _ _, hmain, hrec, fun hin => hstop (.tail _ hin), rfl⟩, rfl⟩
      · obtain rfl := Option.some.inj hs
        exact ⟨⟨Keeps.refl _ _, hmain, hrec, fun hin => hstop (.tail _ hin), rfl⟩, rfl⟩
  | reading id attached =>
    have hserve : main.Serves id := hrec
    simp only [recordStep] at hs
    split at hs
    next record hread =>
      obtain ⟨hown, hid⟩ := owner_of_read hread
      have hme : record.supervisor = me :=
        Option.some.inj (hown.symm.trans (hserve.owner hmain))
      obtain rfl := Option.some.inj hs
      exact ⟨⟨Keeps.refl _ _, hmain, ⟨hserve, hid, hme⟩, hstop, rfl⟩, rfl⟩
    next =>
      obtain rfl := Option.some.inj hs
      exact ⟨⟨Keeps.refl _ _, hmain, hserve, hstop, rfl⟩, rfl⟩
  | publishing id at_ =>
    obtain ⟨hserve, hpub⟩ := hrec
    obtain ⟨hkeep, hown, hgo⟩ := publish_spec ok (hserve.owner hmain) hpub
    have hmain' : MainOk me (publish h.files at_ ok).1 main := MainOk.of_serves hserve hown
    simp only [recordStep] at hs
    split at hs
    next at_' hrun =>
      obtain rfl := Option.some.inj hs
      exact ⟨⟨hkeep, hmain', ⟨hserve, hgo _ hrun⟩, hstop, rfl⟩, rfl⟩
    next =>
      obtain rfl := Option.some.inj hs
      exact ⟨⟨hkeep, hmain', hserve, hstop, rfl⟩, rfl⟩

/-- A deletion for somebody who has ended. -/
theorem reap_spec {at_ : Deleting} (ok : Bool)
    (hok : DeleteOk (fun o => h.gone o = true) h.files at_) :
    Keeps (fun _ => False) h { h with files := (deleteOwnedBy h.files at_ ok).1 } ∧
    ∀ at_', (deleteOwnedBy h.files at_ ok).2 = .running at_' →
      DeleteOk (fun o => h.gone o = true) (deleteOwnedBy h.files at_ ok).1 at_' := by
  obtain ⟨hkeep, hgo⟩ := deleteOwnedBy_spec (fun _ ho => .inr ho) ok hok
  refine ⟨hkeep, fun at_' hrun => ?_⟩
  obtain ⟨hfiles, hdel⟩ := hgo at_' hrun
  rw [hfiles]
  exact hdel

/-- A step of a client command is nobody's own. -/
theorem commandStep_spec {command : Commanding} {move : CommandMove} {r : Host × Commanding}
    (hok : CommandOk h command) (hs : commandStep h command move = some r) :
    Keeps (fun _ => False) h r.1 ∧ CommandOk r.1 r.2 := by
  unfold commandStep at hs
  split at hs
  -- most steps touch no file and start no deletion
  all_goals first
    | cases hs; done
    | (obtain rfl := Option.some.inj hs; exact ⟨Keeps.refl _ _, trivial⟩)
    | skip
  case h_7 | h_14 | h_20 | h_23 =>
    -- the answer that the owner is gone
    split at hs
    next hgone =>
      obtain rfl := Option.some.inj hs
      exact ⟨Keeps.refl _ _, hgone⟩
    next => cases hs
  case h_10 at_ rest live ok | h_17 at_ rest live ok =>
    obtain ⟨hkeep, hgo⟩ := reap_spec ok hok
    simp only at hs
    split at hs
    next at_' hrun =>
      obtain rfl := Option.some.inj hs
      exact ⟨hkeep, hgo _ hrun⟩
    all_goals
      obtain rfl := Option.some.inj hs
      exact ⟨hkeep, trivial⟩
  case h_25 at_ ok =>
    obtain ⟨hkeep, hgo⟩ := reap_spec ok hok
    simp only at hs
    split at hs
    next at_' hrun =>
      obtain rfl := Option.some.inj hs
      exact ⟨hkeep, hgo _ hrun⟩
    next =>
      obtain rfl := Option.some.inj hs
      exact ⟨hkeep, trivial⟩
  case h_18 =>
    split at hs
    all_goals
      obtain rfl := Option.some.inj hs
      exact ⟨Keeps.refl _ _, trivial⟩
  case h_19 id record kill =>
    obtain rfl := Option.some.inj hs
    cases kill <;> exact ⟨Keeps.refl _ _, trivial⟩
  case h_22 =>
    obtain rfl := Option.some.inj hs
    exact ⟨keeps_gone _ _ _, Function.update_self ..⟩

/-- **One step of a process**: it keeps to the rule in its own name and
carries its own knowledge on. -/
theorem processStep_spec {spec : ProcessIdentity → SessionSpec} {move : StoreMove}
    {r : Host × Process} (hfit : h.gone me = false → StoreFits me pc h)
    (hs : processStep spec me pc move h = some r) :
    Keeps (· = me) h r.1 ∧ (r.1.gone me = false → StoreFits me r.2 r.1) := by
  unfold processStep at hs
  split at hs
  · cases hs
  next hgone =>
  have hlive : h.gone me = false := Bool.eq_false_iff.mpr hgone
  have hfit := hfit hlive
  cases move with
  | exit =>
    obtain rfl := Option.some.inj hs
    refine ⟨keeps_gone _ _ _, fun hg => ?_⟩
    have hself : Function.update h.gone me true me = true := Function.update_self ..
    exact nomatch hself.symm.trans hg
  | main ok =>
    obtain ⟨r', hr', rfl⟩ := Option.map_eq_some_iff.mp hs
    have hok := superviseStep_spec hfit hr'
    refine ⟨hok.keeps, fun _ => ⟨hok.main, hok.recorder, hok.stop, ?_⟩⟩
    exact hok.command ▸ hfit.command.keeps hok.keeps
  | recorder ok =>
    obtain ⟨r', hr', rfl⟩ := Option.map_eq_some_iff.mp hs
    have hok := (recordStep_spec hfit hr').1
    refine ⟨hok.keeps, fun _ => ⟨hok.main, hok.recorder, hok.stop, ?_⟩⟩
    exact hok.command ▸ hfit.command.keeps hok.keeps
  | setAttached generation attached =>
    obtain rfl := Option.some.inj hs
    refine ⟨Keeps.refl _ _, fun _ => ⟨hfit.main, hfit.recorder, fun hin => ?_, hfit.command⟩⟩
    rcases List.mem_append.mp hin with hold | hnew
    · exact hfit.stop hold
    · cases List.mem_singleton.mp hnew
  | nextGeneration =>
    simp only at hs
    split at hs
    · cases hs
    · obtain rfl := Option.some.inj hs
      exact ⟨Keeps.refl _ _, fun _ => ⟨hfit.main, hfit.recorder, hfit.stop, hfit.command⟩⟩
  | command move =>
    obtain ⟨r', hr', rfl⟩ := Option.map_eq_some_iff.mp hs
    obtain ⟨hkeep, hcommand⟩ := commandStep_spec hfit.command hr'
    have hfit' := hfit.keeps hkeep not_false hlive
    exact ⟨hkeep.mono fun _ hw => hw.elim,
      fun _ => ⟨hfit'.main, hfit'.recorder, hfit'.stop, hcommand⟩⟩

end

/-! ## Every state -/

section

variable {spec : ProcessIdentity → SessionSpec} {files : StoreFiles}
  {s s' : Threads Host Process ProcessIdentity}

/-- What a live process knows of the store, it knows in every state. -/
theorem fits (hr : Reachable (sessionStore spec files) s) (p : ProcessIdentity)
    (hp : s.shared.gone p = false) : StoreFits p (s.pc p) s.shared := by
  refine (threads_invariant (I := fun _ => True)
    (L := fun me pc h => h.gone me = false → StoreFits me pc h) trivial ?_ ?_ hr).2 p hp
  · exact fun _ _ => ⟨trivial, trivial, nofun, trivial⟩
  · intro σ me act h' pc' _ hfits _ hact
    cases act with
    | step => cases hact
    | call move =>
      obtain ⟨hkeep, hfit⟩ := processStep_spec (hfits me) hact
      refine ⟨trivial, hfit, fun q hq hlive' => ?_⟩
      have hlive : σ.shared.gone q = false := by
        cases hg : σ.shared.gone q with
        | false => rfl
        | true => exact (hkeep.gone q hg).symm.trans hlive'
      exact (hfits q hlive).keeps hkeep hq hlive

theorem step_keeps (hr : Reachable (sessionStore spec files) s) {q : ProcessIdentity}
    {act : Act StoreMove} (hs : (sessionStore spec files).next s (q, act) = some s') :
    Keeps (· = q) s.shared s'.shared := by
  obtain ⟨hact, -⟩ := threads_next.mp hs
  cases act with
  | step => cases hact
  | call move => exact (processStep_spec (fits hr q) hact).1

/-! ## A process that is done with the store -/

/-- The record writer has finished, or the path through the store is over. -/
def Process.Retired (pc : Process) : Prop :=
  pc.recorder = .finished ∨ pc.main = .ended

/-- No file is under a record name that was not there before. -/
def NothingNew (files files' : StoreFiles) : Prop :=
  ∀ id e, files'.entry (.record id) = some e → files.entry (.record id) = some e

theorem nothingNew_deleteOwnedBy (files : StoreFiles) (at_ : Deleting) (ok : Bool) :
    NothingNew files (deleteOwnedBy files at_ ok).1 := by
  intro id e he
  cases ok with
  | false => cases at_ <;> exact he
  | true =>
    cases at_ with
    | «open» id' owner =>
      simp only [deleteOwnedBy] at he
      split at he <;> exact he
    | opened file owner =>
      simp only [deleteOwnedBy] at he
      split at he <;> exact he
    | owned file owner => exact Files.entry_of_delete he

theorem StoreFits.closing {h : Host} {me : ProcessIdentity} {pc : Process}
    (hfit : StoreFits me pc h) (hret : pc.Retired) : pc.main.Closing := by
  rcases hret with hrec | hmain
  · have := hfit.recorder
    rw [hrec] at this
    exact this
  · rw [hmain]
    trivial

/-- The main thread of a retired process is deleting, or has nothing left to
do. -/
theorem superviseStep_retired {me : ProcessIdentity} {pc : Process} {spec : SessionSpec}
    {ok : Bool} {files : StoreFiles} {r : StoreFiles × Process} (hclose : pc.main.Closing)
    (hret : pc.Retired) (hs : superviseStep spec me files pc ok = some r) :
    NothingNew files r.1 ∧ r.2.Retired := by
  obtain ⟨main, attempts, recorder, updates, generation, command⟩ := pc
  cases main with
  | ended => cases hs
  | joining id =>
    cases recorder with
    | finished =>
      obtain rfl := Option.some.inj hs
      exact ⟨fun _ _ he => he, .inl rfl⟩
    | _ => cases hs
  | deleting id at_ =>
    simp only [superviseStep] at hs
    split at hs
    · obtain rfl := Option.some.inj hs
      exact ⟨nothingNew_deleteOwnedBy _ _ _, hret.imp_right nofun⟩
    · obtain rfl := Option.some.inj hs
      exact ⟨nothingNew_deleteOwnedBy _ _ _, .inr rfl⟩
  | _ => exact hclose.elim

theorem recordStep_retired {h : Host} {me : ProcessIdentity} {pc : Process} {ok : Bool}
    (hfit : StoreFits me pc h) (hret : pc.Retired) : recordStep h.files pc ok = none := by
  have hrec := hfit.recorder
  obtain ⟨main, attempts, recorder, updates, generation, command⟩ := pc
  rcases hret with hfin | hmain
  · obtain rfl : recorder = .finished := hfin
    rfl
  · obtain rfl : main = .ended := hmain
    cases recorder with
    | unstarted => rfl
    | finished => rfl
    | publishing id at_ => exact hrec.1.elim
    | _ => exact hrec.elim

/-- A retired process stays retired and puts nothing under a record name. -/
theorem processStep_retired {h : Host} {me : ProcessIdentity} {pc : Process}
    {spec : ProcessIdentity → SessionSpec} {move : StoreMove} {r : Host × Process}
    (hfit : h.gone me = false → StoreFits me pc h) (hret : pc.Retired)
    (hs : processStep spec me pc move h = some r) :
    NothingNew h.files r.1.files ∧ r.2.Retired := by
  unfold processStep at hs
  split at hs
  · cases hs
  next hgone =>
  have hfit := hfit (Bool.eq_false_iff.mpr hgone)
  cases move with
  | exit =>
    obtain rfl := Option.some.inj hs
    exact ⟨fun _ _ he => he, hret⟩
  | main ok =>
    obtain ⟨r', hr', rfl⟩ := Option.map_eq_some_iff.mp hs
    exact superviseStep_retired (hfit.closing hret) hret hr'
  | recorder ok =>
    obtain ⟨r', hr', rfl⟩ := Option.map_eq_some_iff.mp hs
    rw [recordStep_retired hfit hret] at hr'
    cases hr'
  | setAttached generation attached =>
    obtain rfl := Option.some.inj hs
    exact ⟨fun _ _ he => he, hret⟩
  | nextGeneration =>
    simp only at hs
    split at hs
    · cases hs
    · obtain rfl := Option.some.inj hs
      exact ⟨fun _ _ he => he, hret⟩
  | command move =>
    obtain ⟨r', hr', rfl⟩ := Option.map_eq_some_iff.mp hs
    obtain ⟨hkeep, -⟩ := commandStep_spec hfit.command hr'
    refine ⟨fun id e he => ?_, hret⟩
    rcases hkeep.fresh id e he with hold | ⟨p, hp, -⟩
    · exact hold
    · exact hp.elim

theorem step_retired (hr : Reachable (sessionStore spec files) s) {p : ProcessIdentity}
    (hret : (s.pc p).Retired) {act : Act StoreMove}
    (hs : (sessionStore spec files).next s (p, act) = some s') :
    NothingNew s.shared.files s'.shared.files ∧ (s'.pc p).Retired := by
  obtain ⟨hact, -⟩ := threads_next.mp hs
  cases act with
  | step => cases hact
  | call move => exact processStep_retired (fits hr p) hret hact

theorem NothingNew.ownerOf {files files' : StoreFiles} (h : NothingNew files files')
    {id : SessionId} {p : ProcessIdentity} (ho : ownerOf files' id = some p) :
    ownerOf files id = some p := by
  rw [ownerOf_eq] at ho ⊢
  obtain ⟨e, he, heo⟩ := Option.bind_eq_some_iff.mp ho
  exact Option.bind_eq_some_iff.mpr ⟨e, h id e he, heo⟩

/-- Once a retired process has no file under an id, it never has one again,
whoever uses the id in the meantime. -/
theorem run_retired {p : ProcessIdentity} {ls : List (ProcessIdentity × Act StoreMove)}
    (hr : Reachable (sessionStore spec files) s) (hret : (s.pc p).Retired)
    (hrun : (sessionStore spec files).runFrom s ls = some s') :
    (s'.pc p).Retired ∧
      ∀ id, ownerOf s'.shared.files id = some p → ownerOf s.shared.files id = some p := by
  induction ls generalizing s with
  | nil =>
    obtain rfl := Option.some.inj hrun
    exact ⟨hret, fun _ ho => ho⟩
  | cons l ls ih =>
    obtain ⟨s₁, hs, hrest⟩ := Option.bind_eq_some_iff.mp hrun
    obtain ⟨q, act⟩ := l
    have hone : (s₁.pc p).Retired ∧
        ∀ id, ownerOf s₁.shared.files id = some p → ownerOf s.shared.files id = some p := by
      by_cases hq : q = p
      · subst hq
        obtain ⟨hnew, hret'⟩ := step_retired hr hret hs
        exact ⟨hret', fun id ho => hnew.ownerOf ho⟩
      · refine ⟨(threads_next.mp hs).2 p (Ne.symm hq) ▸ hret, fun id ho => ?_⟩
        have hkeep := step_keeps hr hs
        rw [ownerOf_eq] at ho ⊢
        obtain ⟨e, he, heo⟩ := Option.bind_eq_some_iff.mp ho
        rcases hkeep.fresh id e he with hold | ⟨o, rfl, ho'⟩
        · exact Option.bind_eq_some_iff.mpr ⟨e, hold, heo⟩
        · exact absurd (Option.some.inj (ho'.symm.trans heo)) hq
    obtain ⟨hret', howner⟩ := ih (hr.step hs) hone.1 hrest
    exact ⟨hret', fun id ho => hone.2 id (howner id ho)⟩

/-! ## Ids are neither shared nor stolen -/

/-- A process that has not ended. -/
def Live (s : Threads Host Process ProcessIdentity) (p : ProcessIdentity) : Prop :=
  s.shared.gone p = false

/-- The process has taken the id and not given it back. -/
def Holds (s : Threads Host Process ProcessIdentity) (p : ProcessIdentity) (id : SessionId) :
    Prop :=
  (s.pc p).main.session = some id

/-- **Session ids are never shared or stolen**, in every state of every run.
What a live process holds is its own in the store, so no two live processes
hold one id; a file that names a live process is removed, replaced or
rewritten by a step of that process only; and from the moment its record
writer has finished, nothing a process does puts a file under a record name,
so that a record once deleted stays deleted, whoever has the id by then. -/
theorem session_ids_exclusive (hr : Reachable (sessionStore spec files) s) :
    (∀ p id, Live s p → Holds s p id → ownerOf s.shared.files id = some p) ∧
    (∀ p q id, Live s p → Live s q → Holds s p id → Holds s q id → p = q) ∧
    (∀ q act s', (sessionStore spec files).next s (q, act) = some s' →
      ∀ p id, Live s p → ownerOf s.shared.files id = some p →
        s'.shared.files.entry (.record id) ≠ s.shared.files.entry (.record id) → q = p) ∧
    (∀ p, (s.pc p).Retired → ∀ ls s₁, (sessionStore spec files).runFrom s ls = some s₁ →
      (∀ act s₂, (sessionStore spec files).next s₁ (p, act) = some s₂ →
        NothingNew s₁.shared.files s₂.shared.files) ∧
      ∀ id, ownerOf s.shared.files id ≠ some p → ownerOf s₁.shared.files id ≠ some p) := by
  have hown : ∀ p id, Live s p → Holds s p id → ownerOf s.shared.files id = some p :=
    fun p id hlive hholds => (fits hr p hlive).main.owner hholds
  refine ⟨hown, ?_, ?_, ?_⟩
  · intro p q id hp hq hpid hqid
    exact Option.some.inj ((hown p id hp hpid).symm.trans (hown q id hq hqid))
  · intro q act s' hs p id hp ho hne
    by_contra hqp
    exact hne ((step_keeps hr hs).record p id (Ne.symm hqp) hp ho)
  · intro p hret ls s₁ hrun
    obtain ⟨hret₁, howner⟩ := run_retired hr hret hrun
    refine ⟨fun act s₂ hs => (step_retired (hr.runFrom ls hrun) hret₁ hs).1, fun id hno ho => ?_⟩
    exact hno (howner id ho)

end

/-! ## An id that is used twice -/

/-- Two supervisors after one another. -/
def supervisorOne : ProcessIdentity := ⟨10, 100, by decide⟩
def supervisorTwo : ProcessIdentity := ⟨11, 200, by decide⟩

def anySpec : SessionSpec where
  pipe_name := "pipe"
  launch_directory := "/work"
  command := { exe := "app.exe", args := [] }
  started_at_unix_ms := 1

/-- The first supervisor runs a session with one attached-flag update and
gives its id back; the second takes the same id. -/
def reuseRun : List (ProcessIdentity × Act StoreMove) :=
  let main : ProcessIdentity × Act StoreMove := (supervisorOne, .call (.main true))
  let recorder : ProcessIdentity × Act StoreMove := (supervisorOne, .call (.recorder true))
  List.replicate 7 main ++ [(supervisorOne, .call (.setAttached 0 true))] ++
    List.replicate 5 recorder ++ [main, recorder] ++ List.replicate 4 main ++
    List.replicate 6 (supervisorTwo, .call (.main true))

theorem session_ids_exclusive_reused :
    ∃ s, (sessionStore (fun _ => anySpec) (Files.empty .empty)).run reuseRun = some s ∧
      ownerOf s.shared.files .min = some supervisorTwo ∧ Holds s supervisorTwo .min ∧
      ∀ ls s₁, (sessionStore (fun _ => anySpec) (Files.empty .empty)).runFrom s ls = some s₁ →
        ownerOf s₁.shared.files .min ≠ some supervisorOne := by
  have hrun : ∃ s, (sessionStore (fun _ => anySpec) (Files.empty .empty)).run reuseRun = some s ∧
      ownerOf s.shared.files .min = some supervisorTwo ∧ Holds s supervisorTwo .min ∧
      (s.pc supervisorOne).recorder = .finished := ⟨_, rfl, rfl, rfl, rfl⟩
  obtain ⟨s, hs, howner, hholds, hfin⟩ := hrun
  refine ⟨s, hs, howner, hholds, fun ls s₁ hls => ?_⟩
  obtain ⟨-, -, -, hdone⟩ := session_ids_exclusive (reachable_of_run hs)
  refine (hdone supervisorOne (.inl hfin) ls s₁ hls).2 .min ?_
  rw [howner]
  decide

end Folo.Dure
