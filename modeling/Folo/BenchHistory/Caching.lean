import Folo.BenchHistory.Keys
import Folo.Lib.Machine
import Mathlib.Data.Char
import Mathlib.Data.List.AList
import Mathlib.Data.List.Lex
import Mathlib.Data.List.Sort

/-!
# The read-through cache of `cbh_storage`

`caching.rs` over a shared cloud store and local mirrors: any number of
readers, each with a mirror directory that others may use too, and any number
of writers. Every operation on one object of one store is a step, and so is a
listing; a process stops by taking no further step. `ok = false` is an
operation that fails.

A reader runs `synchronize` and then any number of `get`s, which may overlap.
A writer stores, overwrites and deletes objects of its project and flushes
once at the end; the cloud backend's `PendingInvalidation` is its `armed`.
-/

namespace Folo.BenchHistory

open Folo.Lib

abbrev Bytes := List UInt8

/-- The objects of a store, by key. -/
abbrev Objects := AList fun _ : Key => Bytes

/-- `Storage::list`. -/
def Objects.list (objects : Objects) (pre : Key) : List Key :=
  (objects.keys.filter fun key => pre.isPrefixOf key).insertionSort (· ≤ ·)

/-- `GENESIS_EPOCH`: the bytes of `genesis`. -/
def genesisEpoch : Bytes := [103, 101, 110, 101, 115, 105, 115]

/-- Where `synchronize` is. -/
inductive Synchronizing
  | idle
  /-- about to read the cloud's marker -/
  | started
  /-- about to read the epoch the mirror recorded -/
  | epochRead (cloud_epoch : Bytes)
  /-- `wipe_objects` is about to list the mirror -/
  | listing (cloud_epoch : Bytes)
  | wiping (cloud_epoch : Bytes) (todo : List Key)
  | synchronized
  | failed
  deriving DecidableEq

/-- Where one `get` is. -/
inductive Getting
  | idle
  | lookup (key : Key)
  | fetch (key : Key)
  /-- the mirror is about to get the fetched bytes -/
  | populate (key : Key) (bytes : Bytes)
  | returned (key : Key) (bytes : Bytes)
  | failed (key : Key)
  deriving DecidableEq

/-- A process that reads through a `CachingStorage`. -/
structure Reader where
  sync : Synchronizing
  gets : Nat → Getting
  hits : Nat
  misses : Nat

/-- A process that changes the cloud store. -/
structure Writer where
  /-- `PendingInvalidation` -/
  armed : Bool
  ended : Bool

def Reader.idle : Reader where
  sync := .idle
  gets _ := .idle
  hits := 0
  misses := 0

def Writer.idle : Writer where
  armed := false
  ended := false

/-- What a reader does next. -/
inductive ReaderMove
  | sync (ok : Bool)
  | get (task : Nat) (key : Key)
  | task (task : Nat) (ok : Bool)
  deriving DecidableEq

/-- What a writer does next. -/
inductive WriterMove
  | put (key : Key) (bytes : Bytes)
  | putOverwrite (key : Key) (bytes : Bytes)
  | delete (key : Key)
  | flush (token : Bytes) (ok : Bool)
  deriving DecidableEq

variable {R D W : Type}

/-- The processes and who uses which mirror and project. -/
structure Deployment (R D W : Type) where
  mirror : R → D
  readerProject : R → Key
  writerProject : W → Key

/-- The stores and the processes. -/
structure World (R D W : Type) where
  cloud : Objects
  mirrors : D → Objects
  readers : R → Reader
  writers : W → Writer
  /-- the instants that flushes have used so far -/
  tokens : List Bytes

def World.initial : World R D W where
  cloud := ∅
  mirrors _ := ∅
  readers _ := Reader.idle
  writers _ := Writer.idle
  tokens := []

/-- One step of `synchronize`: the mirror and where it is afterwards. -/
def syncStep (project : Key) (cloud mirror : Objects) : Synchronizing → Bool →
    Option (Objects × Synchronizing)
  | .idle, _ => some (mirror, .started)
  | .started, true =>
    some (mirror, .epochRead ((cloud.lookup (cacheEpochKey project)).getD genesisEpoch))
  | .epochRead cloud_epoch, true =>
    if mirror.lookup (cacheEpochKey project) = some cloud_epoch then some (mirror, .synchronized)
    else some (mirror, .listing cloud_epoch)
  | .listing cloud_epoch, true =>
    some (mirror, .wiping cloud_epoch (mirror.list (projectObjectsPrefix project)))
  | .wiping cloud_epoch (key :: todo), true =>
    match mirror.lookup key with
    | some _ => some (mirror.erase key, .wiping cloud_epoch todo)
    -- somebody else has deleted it: `delete` reports not-found
    | none => some (mirror, .failed)
  | .wiping cloud_epoch [], true =>
    some (mirror.insert (cacheEpochKey project) cloud_epoch, .synchronized)
  | .started, false | .epochRead _, false | .listing _, false | .wiping _ _, false =>
    some (mirror, .failed)
  | .synchronized, _ | .failed, _ => none

/-- One step of a `get`: the mirror, where it is afterwards, and what it adds
to the tallies of hits and misses. -/
def getStep (cloud mirror : Objects) : Getting → Bool → Option (Objects × Getting × Nat × Nat)
  | .lookup key, true =>
    match mirror.lookup key with
    | some bytes => some (mirror, .returned key bytes, 1, 0)
    | none => some (mirror, .fetch key, 0, 0)
  | .fetch key, true =>
    match cloud.lookup key with
    | some bytes => some (mirror, .populate key bytes, 0, 0)
    | none => some (mirror, .failed key, 0, 0)
  | .populate key bytes, true => some (mirror.insert key bytes, .returned key bytes, 0, 1)
  | .lookup key, false | .fetch key, false | .populate key _, false =>
    some (mirror, .failed key, 0, 0)
  | .idle, _ | .returned _ _, _ | .failed _, _ => none

/-- The objects of a project are the keys under its prefix; loads and
deletions work on those only. -/
def IsObject (project key : Key) : Prop := projectObjectsPrefix project <+: key

instance (project key : Key) : Decidable (IsObject project key) :=
  inferInstanceAs (Decidable (_ <+: _))

/-- One step of a writer: the cloud store and the writer afterwards. -/
def writeStep (project : Key) (cloud : Objects) (tokens : List Bytes) (w : Writer) :
    WriterMove → Option (Objects × Writer)
  | .put key bytes =>
    if IsObject project key then
      match cloud.lookup key with
      | some _ => some (cloud, w)
      | none => some (cloud.insert key bytes, w)
    else none
  | .putOverwrite key bytes =>
    if IsObject project key then
      match cloud.lookup key with
      | some _ => some (cloud.insert key bytes, { w with armed := true })
      | none => some (cloud.insert key bytes, w)
    else none
  | .delete key =>
    if IsObject project key then
      match cloud.lookup key with
      | some _ => some (cloud.erase key, { w with armed := true })
      | none => some (cloud, w)
    else none
  | .flush token ok =>
    if w.armed then
      if ok then
        if token ∈ tokens ∨ token = genesisEpoch then none
        else some (cloud.insert (cacheEpochKey project) token, { armed := false, ended := true })
      else some (cloud, { armed := false, ended := true })
    else some (cloud, { w with ended := true })

variable [DecidableEq R] [DecidableEq D] [DecidableEq W]

/-- One step of a reader. A `get` starts after the reader's `synchronize`. -/
def readerStep (sys : Deployment R D W) (s : World R D W) (r : R) :
    ReaderMove → Option (World R D W)
  | .sync ok =>
    (syncStep (sys.readerProject r) s.cloud (s.mirrors (sys.mirror r)) (s.readers r).sync ok).map
      fun step =>
        { s with
          mirrors := Function.update s.mirrors (sys.mirror r) step.1
          readers := Function.update s.readers r { s.readers r with sync := step.2 } }
  | .get task key =>
    if (s.readers r).sync = .synchronized ∧ (s.readers r).gets task = .idle ∧
        IsObject (sys.readerProject r) key then
      some { s with
        readers := Function.update s.readers r
          { s.readers r with gets := Function.update (s.readers r).gets task (.lookup key) } }
    else none
  | .task task ok =>
    (getStep s.cloud (s.mirrors (sys.mirror r)) ((s.readers r).gets task) ok).map fun step =>
      { s with
        mirrors := Function.update s.mirrors (sys.mirror r) step.1
        readers := Function.update s.readers r
          { s.readers r with
            gets := Function.update (s.readers r).gets task step.2.1
            hits := (s.readers r).hits + step.2.2.1
            misses := (s.readers r).misses + step.2.2.2 } }

/-- One step of a writer that has not ended. -/
def writerStep (sys : Deployment R D W) (s : World R D W) (w : W) (move : WriterMove) :
    Option (World R D W) :=
  if (s.writers w).ended then none
  else (writeStep (sys.writerProject w) s.cloud s.tokens (s.writers w) move).map fun step =>
    { s with
      cloud := step.1
      writers := Function.update s.writers w step.2
      tokens := match move with
        | .flush token _ => token :: s.tokens
        | _ => s.tokens }

/-- The stores under any number of readers and writers, all empty at first. -/
def cacheMachine (sys : Deployment R D W) :
    Machine (World R D W) (R × ReaderMove ⊕ W × WriterMove) where
  init := World.initial
  next s
    | .inl (r, move) => readerStep sys s r move
    | .inr (w, move) => writerStep sys s w move

end Folo.BenchHistory
