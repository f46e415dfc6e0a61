import Mathlib.Data.List.Defs
import Folo.Lib.Machine
import Folo.Dure.Outbox

/-!
# The supervisor's threads

`Shared` and the threads that meet in it: `client_loop` of every connection
with `attach_client`, `apply_client_message` and `detach_client`
(`ownership.rs`, `relay.rs`), the output pump with `route_output`, the
teardown of `serve` with `stop_clients`, and the writer of every outbox. A
step is one section under a lock, one access to the stop flag or one call
that leaves the supervisor; what a thread does between two of these is its
own.

The attach lock spans many steps. Its state is where its holder is inside
the section (`AttachLock`), so that two threads cannot be inside. An attach
holds the client slot's lock over three of these steps as well, and whoever
wants the slot then waits (`clientLocked`).

Connection ids are never reused, so a connection is its id and its thread is
spawned at most once. What the supervisor calls may panic where the source
expects it to: the start of an outbox, the pseudoconsole's input and resize,
and a receive.
-/

namespace Folo.Dure

open Folo.Lib

/-- `ConnId`. -/
abbrev ConnId := Nat

/-- What is asked of the pseudoconsole on behalf of a client. -/
inductive PtyCall
  | writeInput (data : List UInt8)
  | resize (size : WindowSize)
  deriving DecidableEq

/-! ## The attach lock -/

/-- How an attach ends; `created` says whether its outbox was started. -/
inductive AttachResult
  | attached
  | refused
  | panicked (created : Bool)
  deriving DecidableEq

/-- What `attach_client` does next under the attach lock. -/
inductive AttachPc
  | loadStopping
  | startOutbox
  /-- Under the client slot: `Attached`, the opening output, the transfer. -/
  | acknowledge
  | takePreamble
  | sendHeld (rest : List Message)
  | install
  | noteClaimed (previous : Option ConnId)
  | sendDisplaced (old : ConnId)
  | abandonOld (old : ConnId)
  | finishOld (old : ConnId)
  | applySize
  | unlock (result : AttachResult)
  deriving DecidableEq

/-- What `stop_clients` does next under the attach lock. -/
inductive StopPc
  | storeStopping
  | takeClient
  | unlock (client : Option ConnId)
  deriving DecidableEq

/-- The attach lock. -/
inductive AttachLock
  | free
  | attaching (conn : ConnId) (size : WindowSize) (pc : AttachPc)
  | stopping (pc : StopPc)
  deriving DecidableEq

/-! ## The threads -/

/-- Where the thread of a connection is. -/
inductive RelayPc
  /-- `client_loop`: the receive of `Attach`. -/
  | first
  | lockAttach (size : WindowSize)
  /-- Where it is in `attach_client` is in the lock. -/
  | attaching
  | abandonCreated
  /-- The receive loop and `apply_client_message`. -/
  | receiving
  | apply (m : Message)
  /-- A connection that has no outbox, or none any more. -/
  | disconnect (panicked : Bool)
  | detach (panicked : Bool)
  | abandonDeparting
  | disconnectLast
  | done
  deriving DecidableEq

/-- Where the output pump is. -/
inductive PumpPc
  | loadStopping
  | reading
  | route (bytes : List UInt8)
  | send (owner : ConnId) (bytes : List UInt8)
  | abandon (owner : ConnId)
  | failing
  | done (ok : Bool)
  deriving DecidableEq

/-- Where the main thread of `serve` is; `waited` is what `wait_app`
returned, `outcome` the status if the pump ended well too. -/
inductive MainPc
  | waitApp
  | checkFailed (waited : Option Int32)
  | awaitFirstAttach (waited : Option Int32)
  | joinPump (waited : Option Int32)
  /-- `stop_clients`, before and under the attach lock. -/
  | stopClients (outcome : Option Int32)
  | stopping (outcome : Option Int32)
  | sendExited (status : Int32) (client : ConnId)
  | abandonLast (client : ConnId)
  | finishLast (client : ConnId)
  | done
  deriving DecidableEq

/-- Where the writer of an outbox is. -/
inductive WriterPc
  | unstarted
  | takeNext
  | sending (message : Message)
  | done
  deriving DecidableEq

def WriterPc.inFlight : WriterPc → List Message
  | sending message => [message]
  | _ => []

/-! ## The state -/

/-- `Shared`. -/
structure Shared where
  attach : AttachLock
  client : Option ConnId
  attachedGeneration : Nat
  preamble : Option (List UInt8)
  claimed : Bool
  initiatorGone : Bool
  stopping : Bool

/-- What has happened, which no thread reads. -/
structure History where
  /-- What the pseudoconsole was asked, on behalf of whom. -/
  pty : List (ConnId × PtyCall)
  /-- Every burst read from the app, and whom it was routed to. -/
  routed : List (Option ConnId × List UInt8)
  /-- Who took the opening output, after how many bursts. -/
  opened : Option (ConnId × Nat)
  /-- Who was acknowledged, who took the slot and who was displaced from it,
  each in order. -/
  acknowledged : List ConnId
  owners : List ConnId
  displaced : List ConnId

/-- A session: `Shared`, the outboxes, the threads, what the transport was
asked to send on each connection and which ones it was asked to drop. -/
structure Session where
  sessionId : SessionId
  shared : Shared
  history : History
  outbox : ConnId → Outbox
  relay : ConnId → RelayPc
  pump : PumpPc
  outputFailed : Bool
  main : MainPc
  writer : ConnId → WriterPc
  sent : ConnId → List Message
  disconnected : ConnId → Bool

namespace Session

/-- What `serve` starts with. -/
def start (sessionId : SessionId) : Session where
  sessionId
  shared := ⟨.free, none, 0, some [], false, false, false⟩
  history := ⟨[], [], none, [], [], []⟩
  outbox _ := .new
  relay _ := .first
  pump := .loadStopping
  outputFailed := false
  main := .waitApp
  writer _ := .unstarted
  sent _ := []
  disconnected _ := false

/-! ## Updates of one component -/

def goRelay (s : Session) (conn : ConnId) (pc : RelayPc) : Session :=
  { s with relay := Function.update s.relay conn pc }

def goWriter (s : Session) (conn : ConnId) (pc : WriterPc) : Session :=
  { s with writer := Function.update s.writer conn pc }

def setOutbox (s : Session) (conn : ConnId) (o : Outbox) : Session :=
  { s with outbox := Function.update s.outbox conn o }

/-- `transport.disconnect`. -/
def drop (s : Session) (conn : ConnId) : Session :=
  { s with disconnected := Function.update s.disconnected conn true }

/-- `Outbox::abandon`: its section and the disconnect, which an outbox that
is abandoned already has had. -/
def abandon (s : Session) (conn : ConnId) : Session :=
  (s.setOutbox conn (s.outbox conn).abandon).drop conn

/-- `Outbox::finish`. -/
def finish (s : Session) (conn : ConnId) : Session :=
  s.setOutbox conn (s.outbox conn).finish

section Updates

variable (s : Session) {c conn : ConnId}

@[simp] theorem goRelay_self (pc : RelayPc) : (s.goRelay conn pc).relay conn = pc :=
  Function.update_self ..

theorem goRelay_of_ne (h : c ≠ conn) (pc : RelayPc) :
    (s.goRelay conn pc).relay c = s.relay c :=
  Function.update_of_ne h ..

@[simp] theorem goWriter_self (pc : WriterPc) : (s.goWriter conn pc).writer conn = pc :=
  Function.update_self ..

theorem goWriter_of_ne (h : c ≠ conn) (pc : WriterPc) :
    (s.goWriter conn pc).writer c = s.writer c :=
  Function.update_of_ne h ..

@[simp] theorem setOutbox_self (o : Outbox) : (s.setOutbox conn o).outbox conn = o :=
  Function.update_self ..

theorem setOutbox_of_ne (h : c ≠ conn) (o : Outbox) :
    (s.setOutbox conn o).outbox c = s.outbox c :=
  Function.update_of_ne h ..

end Updates

end Session

/-- `hold_for_first_client`. -/
def holdForFirstClient (preamble : Option (List UInt8)) (bytes : List UInt8) :
    Option (List UInt8) :=
  preamble.map fun held => held ++ bytes.take (maxClientBacklogBytes - held.length)

/-- `preamble_messages`: chunks of at most one frame. -/
def preambleMessages (held : List UInt8) : List Message :=
  (held.toChunks maxOutputChunkBytes).map .output

/-- An attach holds the client slot's lock. -/
def AttachLock.clientLocked : AttachLock → Bool
  | attaching _ _ (.takePreamble) | attaching _ _ (.sendHeld _) | attaching _ _ .install => true
  | _ => false

namespace Session

/-! ## A connection's thread -/

/-- Where an attach is next. -/
def goAttach (s : Session) (conn : ConnId) (size : WindowSize) (pc : AttachPc) : Session :=
  { s with shared.attach := .attaching conn size pc }

/-- What comes after `drop(attach)`. -/
def afterAttach : AttachResult → RelayPc
  | .attached => .receiving
  | .refused => .disconnect false
  | .panicked true => .abandonCreated
  | .panicked false => .disconnect true

/-- The next step of `attach_client` under the attach lock; `panics` is what
a call that may panic does. -/
def stepAttach (s : Session) (conn : ConnId) (size : WindowSize) (panics : Bool) :
    AttachPc → Option Session
  | .loadStopping =>
    some (s.goAttach conn size (if s.shared.stopping then .unlock .refused else .startOutbox))
  | .startOutbox =>
    if panics then some (s.goAttach conn size (.unlock (.panicked false)))
    else some ((s.goWriter conn .takeNext).goAttach conn size .acknowledge)
  | .acknowledge =>
    let s := { s with history.acknowledged := s.history.acknowledged ++ [conn] }
    some ((s.setOutbox conn ((s.outbox conn).send (.attached s.sessionId))).goAttach conn size
      .takePreamble)
  | .takePreamble =>
    let held := s.shared.preamble
    let s := { s with
      shared.preamble := none
      history.opened :=
        if held = none then s.history.opened else some (conn, s.history.routed.length) }
    some (s.goAttach conn size (.sendHeld (preambleMessages (held.getD []))))
  | .sendHeld (message :: rest) =>
    some ((s.setOutbox conn ((s.outbox conn).send message)).goAttach conn size (.sendHeld rest))
  | .sendHeld [] => some (s.goAttach conn size .install)
  | .install =>
    let previous := s.shared.client
    let s := { s with
      shared.client := some conn
      shared.attachedGeneration := s.shared.attachedGeneration + 1
      history.owners := s.history.owners ++ [conn]
      history.displaced := s.history.displaced ++ previous.toList }
    some (s.goAttach conn size (.noteClaimed previous))
  | .noteClaimed previous =>
    some ({ s with shared.claimed := true }.goAttach conn size
      (match previous with
        | some old => .sendDisplaced old
        | none => .applySize))
  | .sendDisplaced old =>
    let r := (s.outbox old).queue .displaced
    some ((s.setOutbox old r.1).goAttach conn size
      (if r.2 then .abandonOld old else .finishOld old))
  | .abandonOld old => some ((s.abandon old).goAttach conn size (.finishOld old))
  | .finishOld old => some ((s.finish old).goAttach conn size .applySize)
  | .applySize =>
    let s := { s with history.pty := s.history.pty ++ [(conn, PtyCall.resize size)] }
    some (s.goAttach conn size (.unlock (if panics then .panicked true else .attached)))
  | .unlock result =>
    some ({ s with shared.attach := .free }.goRelay conn (afterAttach result))

/-- What a receive returned. -/
inductive Received
  | message (m : Message)
  | failed
  | panicked
  deriving DecidableEq

/-- What a receive does to the thread that waits for it. -/
def receive (s : Session) (conn : ConnId) (r : Received) : Option Session :=
  match s.relay conn, r with
  | .first, .message (.attach size) => some (s.goRelay conn (.lockAttach size))
  | .first, .panicked => some (s.goRelay conn (.detach true))
  | .first, _ => some (s.goRelay conn (.disconnect false))
  | .receiving, .message m => some (s.goRelay conn (.apply m))
  | .receiving, .failed => some (s.goRelay conn (.detach false))
  | .receiving, .panicked => some (s.goRelay conn (.detach true))
  | _, _ => none

/-- What `apply_client_message` asks of the pseudoconsole for the owner. -/
def ptyCall : Message → Option PtyCall
  | .input data => some (.writeInput data)
  | .resize size => some (.resize size)
  | _ => none

/-- `apply_client_message`. -/
def applyClientMessage (s : Session) (conn : ConnId) (m : Message) (panics : Bool) : Session :=
  if s.shared.client = some conn then
    match ptyCall m with
    | some call =>
      { s with history.pty := s.history.pty ++ [(conn, call)] }.goRelay conn
        (if panics then .detach true else .receiving)
    | none => s.goRelay conn (.detach false)
  else s.goRelay conn (.detach false)

/-- The section of `detach_client`. -/
def detachClient (s : Session) (conn : ConnId) (panicked : Bool) : Session :=
  if s.shared.client = some conn then
    { s with
      shared.client := none
      shared.attachedGeneration := s.shared.attachedGeneration + 1 }.goRelay conn .abandonDeparting
  else s.goRelay conn (if panicked then .disconnectLast else .done)

/-- The next step of the thread of a connection that waits for no message. -/
def stepRelay (s : Session) (conn : ConnId) (panics : Bool) : Option Session :=
  match s.relay conn with
  | .lockAttach size =>
    if s.shared.attach = .free then
      some ((s.goAttach conn size .loadStopping).goRelay conn .attaching)
    else none
  | .attaching =>
    match s.shared.attach with
    | .attaching holder size pc =>
      if holder = conn then s.stepAttach conn size panics pc else none
    | _ => none
  | .abandonCreated => some ((s.abandon conn).goRelay conn (.detach true))
  | .apply m =>
    if s.shared.attach.clientLocked then none else some (s.applyClientMessage conn m panics)
  | .disconnect panicked => some ((s.drop conn).goRelay conn (.detach panicked))
  | .detach panicked =>
    if s.shared.attach.clientLocked then none else some (s.detachClient conn panicked)
  | .abandonDeparting => some ((s.abandon conn).goRelay conn .done)
  | .disconnectLast => some ((s.drop conn).goRelay conn .done)
  | .first | .receiving | .done => none

/-! ## The output pump -/

/-- What `read_output` returned: a burst, a clean end or an error. -/
inductive Read
  | burst (bytes : List UInt8)
  | eof
  | failed
  deriving DecidableEq

def read (s : Session) (r : Read) : Option Session :=
  match s.pump, r with
  | .reading, .burst bytes => some { s with pump := .route bytes }
  | .reading, .eof => some { s with pump := .done true }
  | .reading, .failed => some { s with pump := .failing }
  | _, _ => none

/-- The section of `route_output`: the choice of the client. -/
def routeOutput (s : Session) (bytes : List UInt8) : Session :=
  let s := { s with history.routed := s.history.routed ++ [(s.shared.client, bytes)] }
  match s.shared.client with
  | some owner => { s with pump := .send owner bytes }
  | none =>
    { s with
      shared.preamble := holdForFirstClient s.shared.preamble bytes
      pump := .loadStopping }

/-- The next step of the pump when it is not reading. -/
def stepPump (s : Session) : Option Session :=
  match s.pump with
  | .loadStopping =>
    some { s with pump := if s.shared.stopping then .done true else .reading }
  | .route bytes =>
    if s.shared.attach.clientLocked then none else some (s.routeOutput bytes)
  | .send owner bytes =>
    -- No longer under the slot's lock.
    let r := (s.outbox owner).queue (.output bytes)
    some { s.setOutbox owner r.1 with
      pump := if r.2 then .abandon owner else .loadStopping }
  | .abandon owner => some { s.abandon owner with pump := .loadStopping }
  | .failing => some { s with outputFailed := true, pump := .done false }
  | .reading | .done _ => none

/-! ## The main thread -/

/-- `wait_app` returns, with a status or an error. -/
def appExits (s : Session) (waited : Option Int32) : Option Session :=
  match s.main with
  | .waitApp => some { s with main := .checkFailed waited }
  | _ => none

/-- What `serve` does with the client that `stop_clients` returned. -/
def afterStop : Option ConnId → Option Int32 → MainPc
  | some client, some status => .sendExited status client
  | some client, none => .finishLast client
  | none, _ => .done

/-- The next step of `stop_clients` under the attach lock. -/
def stepStop (s : Session) (outcome : Option Int32) : StopPc → Option Session
  | .storeStopping =>
    some { s with shared.stopping := true, shared.attach := .stopping .takeClient }
  | .takeClient =>
    some { s with
      shared.client := none
      shared.attach := .stopping (.unlock s.shared.client) }
  | .unlock client =>
    some { s with shared.attach := .free, main := afterStop client outcome }

/-- The next step of the teardown. -/
def stepMain (s : Session) : Option Session :=
  match s.main with
  | .checkFailed waited =>
    some { s with
      main := if waited ≠ none ∧ s.outputFailed = false then .awaitFirstAttach waited
        else .joinPump waited }
  | .awaitFirstAttach waited =>
    if s.shared.claimed || s.shared.initiatorGone then some { s with main := .joinPump waited }
    else none
  | .joinPump waited =>
    match s.pump with
    | .done ok => some { s with main := .stopClients (if ok then waited else none) }
    | _ => none
  | .stopClients outcome =>
    if s.shared.attach = .free then
      some { s with shared.attach := .stopping .storeStopping, main := .stopping outcome }
    else none
  | .stopping outcome =>
    match s.shared.attach with
    | .stopping pc => s.stepStop outcome pc
    | _ => none
  | .sendExited status client =>
    let r := (s.outbox client).queue (.appExited status)
    some { s.setOutbox client r.1 with
      main := if r.2 then .abandonLast client else .finishLast client }
  | .abandonLast client => some { s.abandon client with main := .finishLast client }
  | .finishLast client => some { s.finish client with main := .done }
  | .waitApp | .done => none

/-! ## The writers -/

/-- `write_loop`; `fails` is what `transport.send` does. -/
def stepWriter (s : Session) (conn : ConnId) (fails : Bool) : Option Session :=
  match s.writer conn with
  | .takeNext =>
    match (s.outbox conn).takeNext with
    | some (some message, o) => some ((s.setOutbox conn o).goWriter conn (.sending message))
    | some (none, _) => some ((s.drop conn).goWriter conn .done)
    | none => none
  | .sending message =>
    let s := { s with sent := Function.update s.sent conn (s.sent conn ++ [message]) }
    some (if fails then (s.drop conn).goWriter conn .done else s.goWriter conn .takeNext)
  | .unstarted | .done => none

/-- What the writer has taken from the outbox of a connection: what was
sent, and the message that is being sent. -/
def taken (s : Session) (conn : ConnId) : List Message :=
  s.sent conn ++ (s.writer conn).inFlight

end Session

/-- Who moves, and what the calls that leave the supervisor return. -/
inductive Move
  | receive (conn : ConnId) (r : Session.Received)
  | relay (conn : ConnId) (panics : Bool)
  | initiatorGone
  | read (r : Session.Read)
  | pump
  | appExits (waited : Option Int32)
  | main
  | writer (conn : ConnId) (fails : Bool)
  deriving DecidableEq

/-- Every interleaving of the threads of one session. -/
def sessions (sessionId : SessionId) : Machine Session Move where
  init := .start sessionId
  next s
    | .receive conn r => s.receive conn r
    | .relay conn panics => s.stepRelay conn panics
    | .initiatorGone => some { s with shared.initiatorGone := true }
    | .read r => s.read r
    | .pump => s.stepPump
    | .appExits waited => s.appExits waited
    | .main => s.stepMain
    | .writer conn fails => s.stepWriter conn fails

end Folo.Dure
