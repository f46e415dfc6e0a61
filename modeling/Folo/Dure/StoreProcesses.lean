import Folo.Lib.Threads
import Folo.Dure.SessionStore

/-!
# The processes that share the store

Every process has three threads here, each used or not: `main` runs the
supervisor's path through the store (`initialize`, `run_supervisor` and the
end of `serve`), `recorder` is its `RecordWriter`, and `command` is a client
command (`live_sessions`, `require_live_session`, `kill`). What the store
never sees (the job, the console, the connections) is left out; where it
decides how the path goes on, a move says so.

A process that has ended does nothing. `probe` answers `Dead`, and
`terminate` answers that the process is gone, only when it has ended.
-/

namespace Folo.Dure

open Folo.Lib

/-! ## The supervisor's path -/

/-- `Command` of the record writer. -/
inductive RecordUpdate
  | setAttached (generation : UInt64) (attached : Bool)
  | stop
  deriving DecidableEq

/-- Where the record writer's thread is. -/
inductive Recording
  | unstarted
  | waiting (id : SessionId)
  | reading (id : SessionId) (attached : Bool)
  | publishing (id : SessionId) (at_ : Publishing)
  | finished
  deriving DecidableEq

/-- Where the supervisor's main thread is. -/
inductive Supervising
  | idle
  /-- `allocate_id`: the staging file is open -/
  | staging (attempt : Nat) (file : FileId)
  /-- `install_claim` is about to try `id` -/
  | installing (attempt : Nat) (id : SessionId)
  /-- `remove_failed_staging` -/
  | removing (attempt : Nat)
  /-- the first publication -/
  | publishing (id : SessionId) (at_ : Publishing)
  /-- the startup exchange -/
  | published (id : SessionId)
  | serving (id : SessionId)
  /-- `record_writer.finish()` has sent `Stop` -/
  | joining (id : SessionId)
  | deleting (id : SessionId) (at_ : Deleting)
  | ended
  deriving DecidableEq

/-- The session id that `main` has taken and not yet given back. -/
def Supervising.session : Supervising → Option SessionId
  | .publishing id _ | .published id | .serving id | .joining id | .deleting id _ => some id
  | .idle | .staging .. | .installing .. | .removing _ | .ended => none

/-- What a supervisor was asked to run, and the pipe it listens on. -/
structure SessionSpec where
  pipe_name : String
  launch_directory : String
  command : AppCommand
  started_at_unix_ms : UInt64
  deriving DecidableEq

/-- `PROTOCOL_VERSION`. -/
def protocolVersion : UInt32 := 1

/-- The record that `initialize` publishes. -/
def sessionRecord (spec : SessionSpec) (identity : ProcessIdentity) (session_id : SessionId) :
    SessionRecord where
  id := session_id
  supervisor := identity
  pipe_name := spec.pipe_name
  launch_directory := spec.launch_directory
  command := spec.command
  started_at_unix_ms := spec.started_at_unix_ms
  attached := false
  protocol_version := protocolVersion

/-! ## A client command -/

/-- `ProcessLiveness`. -/
inductive ProcessLiveness
  | live
  | dead
  | inspectFailed
  deriving DecidableEq

/-- How `terminate` ends: the process has been terminated, it was gone
already, or it could not be terminated. -/
inductive Termination
  | ok
  | notFound
  | failed
  deriving DecidableEq

/-- Where a client command is. -/
inductive Commanding
  | idle
  /-- `store.list()`, one entry at a time -/
  | listing (stored : List (SessionId × StoredSession))
  /-- the loop over the records -/
  | records (rest live : List SessionRecord)
  | dropping (at_ : Deleting) (rest live : List SessionRecord)
  /-- `store.list_reservations()` -/
  | listingReservations (stored : List (SessionId × StoredSession)) (live : List SessionRecord)
  /-- the loop over the reservations -/
  | reservations (rest : List (SessionId × ProcessIdentity)) (live : List SessionRecord)
  | releasing (at_ : Deleting) (rest : List (SessionId × ProcessIdentity))
      (live : List SessionRecord)
  | listed (live : List SessionRecord)
  /-- `require_live_session`; `kill` says whether `kill::execute` called it -/
  | requiring (id : SessionId) (kill : Bool)
  | probing (id : SessionId) (record : SessionRecord) (kill : Bool)
  | terminating (id : SessionId) (record : SessionRecord)
  | removing (at_ : Deleting)
  | required (record : SessionRecord)
  | returned
  deriving DecidableEq

/-- What a client command does next, with what it is answered. -/
inductive CommandMove
  | liveSessions
  | requireLive (id : SessionId) (kill : Bool)
  | entry (id : SessionId)
  | lastEntry
  | probed (answer : ProcessLiveness)
  | nextRecord
  | terminated (answer : Termination)
  | access (ok : Bool)
  deriving DecidableEq

/-! ## Processes -/

/-- The threads of a process and what they share. -/
structure Process where
  main : Supervising
  /-- the counter in the name of a staging file -/
  attempts : Nat
  recorder : Recording
  /-- the queue to the record writer -/
  updates : List RecordUpdate
  attached_generation : UInt64
  command : Commanding

/-- What the processes share. -/
structure Host where
  files : StoreFiles
  /-- the processes that have ended -/
  gone : ProcessIdentity → Bool

def Process.idle : Process where
  main := .idle
  attempts := 0
  recorder := .unstarted
  updates := []
  attached_generation := 0
  command := .idle

/-- What a process does next. -/
inductive StoreMove
  | exit
  | main (ok : Bool)
  | recorder (ok : Bool)
  /-- a relay hands over an attached-flag change -/
  | setAttached (generation : UInt64) (attached : Bool)
  /-- `next_attached_generation` -/
  | nextGeneration
  | command (move : CommandMove)
  deriving DecidableEq

/-- One step of the supervisor's main thread. -/
def superviseStep (spec : SessionSpec) (me : ProcessIdentity) (files : StoreFiles) (pc : Process)
    (ok : Bool) : Option (StoreFiles × Process) :=
  match pc.main with
  | .idle =>
    match ok, files.createNew (.staging me pc.attempts) .empty with
    | true, some opened =>
      some (opened.1, { pc with main := .staging pc.attempts opened.2, attempts := pc.attempts + 1 })
    | _, _ => some (files, { pc with main := .ended, attempts := pc.attempts + 1 })
  | .staging attempt file =>
    if ok then
      some (files.write file (.stored (.reserved me)), { pc with main := .installing attempt .min })
    else some (files.write file .torn, { pc with main := .ended })
  | .installing attempt id =>
    match ok, files.moveNoReplace (.staging me attempt) (.record id) with
    | true, .ok files' =>
      some (files', { pc with main := .publishing id (.create (sessionRecord spec me id)) })
    | true, .error .alreadyExists =>
      match nextSessionId id with
      | .ok next => some (files, { pc with main := .installing attempt next })
      | .error _ => some (files, { pc with main := .removing attempt })
    | _, _ => some (files, { pc with main := .removing attempt })
  | .removing attempt =>
    some (if ok then files.unlink (.staging me attempt) else files, { pc with main := .ended })
  | .publishing id at_ =>
    let access := publish files at_ ok
    match access.2 with
    | .running at_' => some (access.1, { pc with main := .publishing id at_' })
    | .returned true => some (access.1, { pc with main := .published id })
    -- the startup guard is dropped
    | .returned false => some (access.1, { pc with main := .deleting id (.open id me) })
  | .published id =>
    if ok then some (files, { pc with main := .serving id, recorder := .waiting id })
    else some (files, { pc with main := .deleting id (.open id me) })
  | .serving id => some (files, { pc with main := .joining id, updates := pc.updates ++ [.stop] })
  | .joining id =>
    match pc.recorder with
    | .finished => some (files, { pc with main := .deleting id (.open id me) })
    | _ => none
  | .deleting id at_ =>
    let access := deleteOwnedBy files at_ ok
    match access.2 with
    | .running at_' => some (access.1, { pc with main := .deleting id at_' })
    | .returned _ => some (access.1, { pc with main := .ended })
  | .ended => none

/-- One step of `publish_updates`. -/
def recordStep (files : StoreFiles) (pc : Process) (ok : Bool) : Option (StoreFiles × Process) :=
  match pc.recorder with
  | .unstarted | .finished => none
  | .waiting id =>
    match pc.updates with
    | [] => none
    | .stop :: rest => some (files, { pc with updates := rest, recorder := .finished })
    | .setAttached generation attached :: rest =>
      if pc.attached_generation = generation then
        some (files, { pc with updates := rest, recorder := .reading id attached })
      else some (files, { pc with updates := rest })
  | .reading id attached =>
    match ok, read files id with
    | true, .ok (some record) =>
      some (files, { pc with recorder := .publishing id (.create { record with attached }) })
    | _, _ => some (files, { pc with recorder := .waiting id })
  | .publishing id at_ =>
    let access := publish files at_ ok
    match access.2 with
    | .running at_' => some (access.1, { pc with recorder := .publishing id at_' })
    | .returned _ => some (access.1, { pc with recorder := .waiting id })

/-- One step of a client command. -/
def commandStep (host : Host) : Commanding → CommandMove → Option (Host × Commanding)
  | .idle, .liveSessions => some (host, .listing [])
  | .idle, .requireLive id kill => some (host, .requiring id kill)
  -- live_sessions
  | .listing stored, .entry id =>
    some (host, .listing (stored ++ (storedEntry host.files id).toList))
  | .listing stored, .lastEntry => some (host, .records (publishedRecords (sortById stored)) [])
  | .listing _, .access false => some (host, .returned)
  | .records (record :: rest) live, .probed .live => some (host, .records rest (live ++ [record]))
  | .records (record :: rest) live, .probed .dead =>
    if host.gone record.supervisor then
      some (host, .dropping (.open record.id record.supervisor) rest live)
    else none
  | .records (_ :: _) _, .probed .inspectFailed => some (host, .returned)
  | .records [] live, .nextRecord => some (host, .listingReservations [] live)
  | .dropping at_ rest live, .access ok =>
    let access := deleteOwnedBy host.files at_ ok
    match access.2 with
    | .running at_' => some ({ host with files := access.1 }, .dropping at_' rest live)
    | .returned true => some ({ host with files := access.1 }, .records rest live)
    | .returned false => some ({ host with files := access.1 }, .returned)
  -- reap_orphan_reservations
  | .listingReservations stored live, .entry id =>
    some (host, .listingReservations (stored ++ (storedEntry host.files id).toList) live)
  | .listingReservations stored live, .lastEntry =>
    some (host, .reservations (reservations (sortById stored)) live)
  | .listingReservations _ _, .access false => some (host, .returned)
  | .reservations ((id, owner) :: rest) live, .probed .dead =>
    if host.gone owner then some (host, .releasing (.open id owner) rest live) else none
  | .reservations (_ :: rest) live, .probed _ => some (host, .reservations rest live)
  | .reservations [] live, .nextRecord => some (host, .listed live)
  | .releasing at_ rest live, .access ok =>
    let access := deleteOwnedBy host.files at_ ok
    match access.2 with
    | .running at_' => some ({ host with files := access.1 }, .releasing at_' rest live)
    | .returned true => some ({ host with files := access.1 }, .reservations rest live)
    | .returned false => some ({ host with files := access.1 }, .returned)
  -- require_live_session
  | .requiring id kill, .access ok =>
    match ok, read host.files id with
    | true, .ok (some record) => some (host, .probing id record kill)
    | _, _ => some (host, .returned)
  | .probing id record kill, .probed .live =>
    some (host, if kill then .terminating id record else .required record)
  | .probing id record _, .probed .dead =>
    if host.gone record.supervisor then some (host, .removing (.open id record.supervisor))
    else none
  | .probing _ _ _, .probed .inspectFailed => some (host, .returned)
  -- kill
  | .terminating id record, .terminated .ok =>
    some ({ host with gone := Function.update host.gone record.supervisor true },
      .removing (.open id record.supervisor))
  | .terminating id record, .terminated .notFound =>
    if host.gone record.supervisor then some (host, .removing (.open id record.supervisor))
    else none
  | .terminating _ _, .terminated .failed => some (host, .returned)
  | .removing at_, .access ok =>
    let access := deleteOwnedBy host.files at_ ok
    match access.2 with
    | .running at_' => some ({ host with files := access.1 }, .removing at_')
    | .returned _ => some ({ host with files := access.1 }, .returned)
  -- the next command
  | .listed _, .liveSessions | .required _, .liveSessions | .returned, .liveSessions =>
    some (host, .listing [])
  | .listed _, .requireLive id kill | .required _, .requireLive id kill
  | .returned, .requireLive id kill => some (host, .requiring id kill)
  | _, _ => none

/-- One step of a process. -/
def processStep (spec : ProcessIdentity → SessionSpec) (me : ProcessIdentity) (pc : Process)
    (move : StoreMove) (host : Host) : Option (Host × Process) :=
  if host.gone me then none
  else match move with
    | .exit => some ({ host with gone := Function.update host.gone me true }, pc)
    | .main ok =>
      (superviseStep (spec me) me host.files pc ok).map fun r => ({ host with files := r.1 }, r.2)
    | .recorder ok =>
      (recordStep host.files pc ok).map fun r => ({ host with files := r.1 }, r.2)
    | .setAttached generation attached =>
      some (host, { pc with updates := pc.updates ++ [.setAttached generation attached] })
    | .nextGeneration =>
      -- `checked_add` panics at the end of `u64`
      if pc.attached_generation = UInt64.ofNat (UInt64.size - 1) then none
      else some (host, { pc with attached_generation := pc.attached_generation + 1 })
    | .command move =>
      (commandStep host pc.command move).map fun r => (r.1, { pc with command := r.2 })

/-- The store under any number of processes, from any files that were there
before. A process that ended before is one that exits first. -/
def sessionStore (spec : ProcessIdentity → SessionSpec) (files : StoreFiles) :
    Machine (Threads Host Process ProcessIdentity) (ProcessIdentity × Act StoreMove) :=
  threads { files := files, gone := fun _ => false } Process.idle fun me pc act host =>
    match act with
    | .call move => processStep spec me pc move host
    | .step => none

end Folo.Dure
