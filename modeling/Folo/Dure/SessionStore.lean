import Mathlib.Data.List.Sort
import Folo.Lib.Files
import Folo.Dure.Message

/-!
# The session store of `dure`

`session_record.rs`, `stored.rs` and the filesystem store (`store.rs`,
`policy.rs`): the files a session id has and the operations over them. An
operation of several file accesses is a place in it (`Publishing`,
`Deleting`) and a step from one place to the next, since other processes act
between two accesses.

A file's bytes are kept as what a reader makes of them. Moving onto a free
name, replacing, and deleting through a handle are single steps, as the store
relies on. Each step also has a failing variant (`ok = false`), which leaves
behind what the failed access may have left.
-/

namespace Folo.Dure

open Folo.Lib

/-- `ProcessIdentity`; the pid is a `NonZero<u32>`. -/
@[ext]
structure ProcessIdentity where
  pid : UInt32
  creation_time : UInt64
  positive : pid ≠ 0

instance ProcessIdentity.decidableEq : DecidableEq ProcessIdentity := fun _ _ =>
  decidable_of_iff _ ProcessIdentity.ext_iff.symm

/-- `AppCommand`. -/
structure AppCommand where
  exe : String
  args : List String
  deriving DecidableEq

/-- `SessionRecord`. -/
structure SessionRecord where
  id : SessionId
  supervisor : ProcessIdentity
  pipe_name : String
  launch_directory : String
  command : AppCommand
  started_at_unix_ms : UInt64
  attached : Bool
  protocol_version : UInt32
  deriving DecidableEq

/-- `StoredSession`: a claim or a publication. -/
inductive StoredSession
  | reserved (owner : ProcessIdentity)
  | published (record : SessionRecord)
  deriving DecidableEq

/-- The process a claim or a publication names. -/
def StoredSession.owner : StoredSession → ProcessIdentity
  | .reserved owner => owner
  | .published record => record.supervisor

/-- The bytes of a file: nothing yet, something that does not parse, or a
stored session. -/
inductive Bytes
  | empty
  | torn
  | stored (session : StoredSession)
  deriving DecidableEq

/-- The names the store uses under its root. -/
inductive StoreName
  /-- `record_path` -/
  | record (id : SessionId)
  /-- where `publish` assembles a record -/
  | tmp (id : SessionId)
  /-- `staging_path` -/
  | staging (owner : ProcessIdentity) (attempt : Nat)
  deriving DecidableEq

abbrev StoreFiles := Files StoreName Bytes

/-! ## Policy -/

/-- `PalErrorKind::Other` is all these functions report. -/
inductive PalError
  | other
  deriving DecidableEq

def parseStored : Bytes → Except PalError StoredSession
  | .stored session => .ok session
  | .empty | .torn => .error .other

/-- A record is surfaced only under its own id. -/
def publishedRecord (id : SessionId) : StoredSession → Option SessionRecord
  | .published record => if record.id = id then some record else none
  | .reserved _ => none

def parseRecord (bytes : Bytes) (expected : SessionId) :
    Except PalError (Option SessionRecord) :=
  if bytes = .empty then .ok none
  else (parseStored bytes).map (publishedRecord expected)

def sortById (stored : List (SessionId × StoredSession)) : List (SessionId × StoredSession) :=
  stored.mergeSort fun a b => a.1.get ≤ b.1.get

def publishedRecords (stored : List (SessionId × StoredSession)) : List SessionRecord :=
  stored.filterMap fun entry => publishedRecord entry.1 entry.2

def reservations (stored : List (SessionId × StoredSession)) :
    List (SessionId × ProcessIdentity) :=
  stored.filterMap fun entry =>
    match entry.2 with
    | .reserved owner => some (entry.1, owner)
    | .published _ => none

/-- The decision of `delete_if_owned`. -/
def deleteIfOwned (bytes : Bytes) (owner : ProcessIdentity) : Bool :=
  match parseStored bytes with
  | .ok (.reserved current) => current = owner
  | .ok (.published record) => record.supervisor = owner
  | .error _ => false

def nextSessionId (id : SessionId) : Except PalError SessionId :=
  -- `checked_add` refuses `u32::MAX`
  if id.get = UInt32.ofNat (UInt32.size - 1) then .error .other
  else match SessionId.fromU32 (id.get + 1) with
    | some next => .ok next
    | none => .error .other

/-- The owner the bytes of a file name. -/
def Bytes.owner : Bytes → Option ProcessIdentity
  | .stored session => some session.owner
  | .empty | .torn => none

theorem deleteIfOwned_iff {bytes : Bytes} {owner : ProcessIdentity} :
    deleteIfOwned bytes owner = true ↔ bytes.owner = some owner := by
  unfold deleteIfOwned
  cases bytes with
  | empty => simp [parseStored, Bytes.owner]
  | torn => simp [parseStored, Bytes.owner]
  | stored session => cases session <;> simp [parseStored, Bytes.owner, StoredSession.owner]

/-- What `read` surfaces is the record the file holds, under its own id. -/
theorem parseRecord_some {bytes : Bytes} {id : SessionId} {record : SessionRecord}
    (h : parseRecord bytes id = .ok (some record)) :
    bytes = .stored (.published record) ∧ record.id = id := by
  unfold parseRecord at h
  cases bytes with
  | empty => cases h
  | torn => cases h
  | stored session =>
    cases session with
    | reserved owner => cases h
    | published found =>
      have hfound : (if found.id = id then some found else none) = some record :=
        Except.ok.inj h
      split at hfound
      next hid =>
        obtain rfl := Option.some.inj hfound
        exact ⟨rfl, hid⟩
      · cases hfound

/-! ## Operations -/

/-- Where an operation over several file accesses is: still in it, or
returned. -/
inductive Progress (α : Type)
  | running (at_ : α)
  | returned (ok : Bool)
  deriving DecidableEq

/-- Inside `publish`. -/
inductive Publishing
  | create (record : SessionRecord)
  | created (record : SessionRecord) (tmp : FileId)
  | written (record : SessionRecord)
  deriving DecidableEq

/-- One file access of `publish`. -/
def publish (files : StoreFiles) : Publishing → Bool → StoreFiles × Progress Publishing
  | .create record, true =>
    let opened := files.createTruncated (.tmp record.id) .empty
    (opened.1, .running (.created record opened.2))
  | .create _, false => (files, .returned false)
  | .created record tmp, true =>
    (files.write tmp (.stored (.published record)), .running (.written record))
  | .created _ tmp, false => (files.write tmp .torn, .returned false)
  | .written record, true =>
    match files.moveReplace (.tmp record.id) (.record record.id) with
    | .ok files' => (files', .returned true)
    | .error _ => (files, .returned false)
  | .written _, false => (files, .returned false)

/-- Inside `delete_owned_by`. -/
inductive Deleting
  | open (id : SessionId) (owner : ProcessIdentity)
  | opened (file : FileId) (owner : ProcessIdentity)
  | owned (file : FileId) (owner : ProcessIdentity)
  deriving DecidableEq

/-- One file access of `delete_owned_by`. -/
def deleteOwnedBy (files : StoreFiles) : Deleting → Bool → StoreFiles × Progress Deleting
  | .open id owner, true =>
    match files.names (.record id) with
    | some file => (files, .running (.opened file owner))
    | none => (files, .returned true)
  | .opened file owner, true =>
    if deleteIfOwned (files.bytes file) owner then (files, .running (.owned file owner))
    else (files, .returned true)
  | .owned file _, true => (files.delete file, .returned true)
  | _, false => (files, .returned false)

/-- `read`: the file is opened and read in one access. Record files are never
rewritten in place, so a reader that is slower sees the same. -/
def read (files : StoreFiles) (id : SessionId) : Except PalError (Option SessionRecord) :=
  match files.readAt (.record id) with
  | some bytes => parseRecord bytes id
  | none => .ok none

/-- What `stored` makes of one directory entry: unreadable content is
skipped, and so is a file that is gone by now. -/
def storedEntry (files : StoreFiles) (id : SessionId) : Option (SessionId × StoredSession) :=
  match files.readAt (.record id) with
  | some bytes => (parseStored bytes).toOption.map fun session => (id, session)
  | none => none

/-- The process that the file of an id names. -/
def ownerOf (files : StoreFiles) (id : SessionId) : Option ProcessIdentity :=
  (files.readAt (.record id)).bind Bytes.owner

theorem owner_of_read {files : StoreFiles} {id : SessionId} {record : SessionRecord}
    (h : read files id = .ok (some record)) :
    ownerOf files id = some record.supervisor ∧ record.id = id := by
  unfold read at h
  unfold ownerOf
  split at h
  next bytes hbytes =>
    obtain ⟨rfl, hid⟩ := parseRecord_some h
    rw [hbytes]
    exact ⟨rfl, hid⟩
  · cases h

end Folo.Dure
