import Folo.Lib.Maps
import Folo.ReleasePlan.Versions

/-!
# Reconciliation with the forge

`Reconciliation::package` and `create_tag` of
`crp_publication/publication/github/reconciliation.rs`, and the loop over the
packages of a publication that calls them. The forge, the checkout that loads
candidates and the tag snapshots are a world of their own: every call may
answer anything, and leave the world in any state. What was asked and answered
is kept as a list of events.
-/

namespace Folo.Publishing

open Folo.Lib Folo.ReleasePlan Std

/-! ## Requests -/

inductive NativeTarget
  | linuxX64
  | linuxArm64
  | windowsX64
  | windowsArm64
  | macArm64
  deriving DecidableEq

def NativeTarget.triple : NativeTarget → Text
  | .linuxX64 => "x86_64-unknown-linux-gnu".toList
  | .linuxArm64 => "aarch64-unknown-linux-gnu".toList
  | .windowsX64 => "x86_64-pc-windows-msvc".toList
  | .windowsArm64 => "aarch64-pc-windows-msvc".toList
  | .macArm64 => "aarch64-apple-darwin".toList

/-- `manifest::Binary`. -/
structure BinaryRequest where
  name : Text
  targets : List NativeTarget

structure Package where
  name : Text
  version : Text
  binary : Option BinaryRequest

structure Publication where
  source : Text
  repository : Text
  packages : List Package

structure PublicationManifest where
  id : Text
  publication : Publication

/-! ## Binaries -/

structure Asset where
  name : Text
  state : Text

/-- `binaries::Binary`. -/
structure Binary where
  name : Text
  bin : Text
  version : Text
  tag : Text
  sourceSha : Text
  deriving DecidableEq

namespace Binary

def archiveBase (binary : Binary) (triple : Text) : Text := binary.tag ++ '-' :: triple

/-- Both the archive and its checksum are uploaded. -/
def complete (binary : Binary) (triple : Text) (assets : List Asset) : Bool :=
  ["zip".toList, "sha256".toList].all fun extension => assets.any fun asset =>
    asset.name == binary.archiveBase triple ++ '.' :: extension &&
      asset.state == "uploaded".toList

end Binary

structure PlatformBatch where
  schemaVersion : Nat
  publicationId : Text
  repository : Text
  target : Text
  binaries : List Binary
  batchId : Text

/-- `PLATFORM_BATCH_SCHEMA_VERSION`. -/
def platformBatchSchemaVersion : Nat := 1

/-! ## Candidates and records -/

structure CandidatePackage where
  version : Text
  unchanged : Bool

structure Candidate where
  source : Text
  packages : ExtTreeMap Text CandidatePackage

def Candidate.supports (candidate : Candidate) (package : Package) : Bool :=
  match candidate.packages[package.name]? with
  | none => false
  | some found => found.unchanged && found.version == package.version

inductive GithubState
  | pending
  | complete
  | wouldCreateTag
  | wouldCreateRelease
  | failed
  deriving DecidableEq

structure GithubPackage where
  name : Text
  version : Text
  tag : Text
  state : GithubState
  source : Option Text
  recoverySource : Option Text
  observedVersion : Option Text

/-- The record that the loop over the packages begins with. -/
def GithubPackage.pending (package : Package) : GithubPackage where
  name := package.name
  version := package.version
  tag := package.name ++ "-v".toList ++ package.version
  state := .pending
  source := none
  recoverySource := none
  observedVersion := none

/-! ## The world -/

/-- The forge, over worlds `σ`, errors `ε` and releases `ρ`. -/
structure Forge (σ ε ρ : Type) where
  tag : Text → σ → Except ε (Option Text) × σ
  createTag : Text → Text → σ → Except ε Unit × σ
  ensureRelease : Text → Text → Text → Bool → σ → Except ε (Option ρ) × σ
  assets : ρ → σ → Except ε (List Asset) × σ

structure Reconciliation (σ ε ρ : Type) where
  forge : Forge σ ε ρ
  loadCandidate : σ → Except ε Candidate × σ
  manifest : PublicationManifest
  dryRun : Bool

inductive Event (ε ρ : Type)
  | loaded (answer : Except ε Candidate)
  /-- a tag was to be created at the source of the candidate -/
  | attempted (tag : Text) (candidate : Candidate) (answer : Except ε Unit)
  | observed (tag : Text) (answer : Except ε (Option Text))
  | ensured (tag source : Text) (answer : Except ε (Option ρ))
  | listed (release : ρ) (answer : Except ε (List Asset))

inductive Failure (ε : Type)
  | forge (error : ε)
  | candidateMismatch (package requested observed : Text)
  | tagConfirmationFailed (tag : Text) (confirmation operation : ε)
  | competingTag (tag observed expected : Text)
  | resourceMissing (tag : Text)

/-- What the calls of a reconciliation change, with the record of the package
at hand. -/
structure Work (σ ε ρ : Type) where
  world : σ
  events : List (Event ε ρ)
  candidate : Option Candidate
  batches : ExtTreeMap Text PlatformBatch
  record : GithubPackage

namespace Work

variable {σ ε ρ α : Type}

/-- One call to the world. -/
def ask (w : Work σ ε ρ) (call : σ → α × σ) (event : α → Event ε ρ) : α × Work σ ε ρ :=
  ((call w.world).1,
    { w with
      world := (call w.world).2
      events := w.events ++ [event (call w.world).1] })

/-- The record of the next package. -/
def begin (w : Work σ ε ρ) (package : Package) : Work σ ε ρ :=
  { w with record := .pending package }

def mapRecord (w : Work σ ε ρ) (f : GithubPackage → GithubPackage) : Work σ ε ρ :=
  { w with record := f w.record }

end Work

namespace Reconciliation

variable {σ ε ρ : Type} (r : Reconciliation σ ε ρ)

/-! ## Tags -/

/-- How a round of `create_tag` ends that does not fail. -/
inductive Attempt (ε : Type)
  | settled (source : Option Text)
  | absent (created : Except ε Unit)

/-- The candidate at hand, or a fresh one. -/
def prepareCandidate (w : Work σ ε ρ) : Except ε Candidate × Work σ ε ρ :=
  match w.candidate with
  | some candidate => (.ok candidate, w)
  | none =>
    match w.ask r.loadCandidate .loaded with
    | (.error error, w) => (.error error, w)
    | (.ok candidate, w) => (.ok candidate, { w with candidate := some candidate })

/-- What the tag is found to be, after it was to be created. -/
def confirmTag (candidate : Candidate) (created : Except ε Unit) (w : Work σ ε ρ) :
    Except (Failure ε) (Attempt ε) × Work σ ε ρ :=
  let tag := w.record.tag
  match w.ask (r.forge.tag tag) (.observed tag) with
  | (.error confirmation, w) =>
    match created with
    | .ok () => (.error (.forge confirmation), w)
    | .error operation => (.error (.tagConfirmationFailed tag confirmation operation), w)
  | (.ok (some source), w) =>
    if source ≠ candidate.source then
      (.error (.competingTag tag source candidate.source),
        w.mapRecord fun record => { record with source := some source, recoverySource := none })
    else (.ok (.settled (some source)), w)
  | (.ok none, w) => (.ok (.absent created), w)

def tryCandidate (package : Package) (candidate : Candidate) (w : Work σ ε ρ) :
    Except (Failure ε) (Attempt ε) × Work σ ε ρ :=
  let found := candidate.packages[package.name]?
  let w := w.mapRecord fun record => { record with observedVersion := found.map (·.version) }
  if candidate.supports package then
    if r.dryRun then (.ok (.settled none), w)
    else
      let tag := w.record.tag
      let created := w.ask (r.forge.createTag tag candidate.source) (.attempted tag candidate)
      r.confirmTag candidate created.1 created.2
  else
    (.error (.candidateMismatch package.name package.version
      ((found.map (·.version)).getD "absent".toList)), w)

def createTagRound (package : Package) (w : Work σ ε ρ) :
    Except (Failure ε) (Attempt ε) × Work σ ε ρ :=
  match r.prepareCandidate w with
  | (.error error, w) => (.error (.forge error), w)
  | (.ok candidate, w) => r.tryCandidate package candidate w

/-- The loop of `create_tag`, with the rounds that are left after this one. -/
def createTagRounds (package : Package) :
    Nat → Work σ ε ρ → Except (Failure ε) (Option Text) × Work σ ε ρ
  | left, w =>
    match r.createTagRound package w with
    | (.error error, w) => (.error error, w)
    | (.ok (.settled source), w) => (.ok source, w)
    | (.ok (.absent created), w) =>
      match left with
      | 0 =>
        match created with
        | .error error => (.error (.forge error), w)
        | .ok () => (.error (.resourceMissing w.record.tag), w)
      | left + 1 => createTagRounds package left { w with candidate := none }

/-- `ATTEMPTS`. -/
def attempts : Nat := 3

def createTag (package : Package) (w : Work σ ε ρ) :
    Except (Failure ε) (Option Text) × Work σ ε ρ :=
  r.createTagRounds package (attempts - 1) w

/-! ## Packages -/

/-- The binary is added to the batch of its target, which is made for the first one. -/
def pushBinary (binary : Binary) (batches : ExtTreeMap Text PlatformBatch) (target : NativeTarget) :
    ExtTreeMap Text PlatformBatch :=
  upsert batches target.triple
    { schemaVersion := platformBatchSchemaVersion
      publicationId := r.manifest.id
      repository := r.manifest.publication.repository
      target := target.triple
      binaries := []
      batchId := [] }
    fun batch => { batch with binaries := batch.binaries ++ [binary] }

/-- What is left of `package` once the release is there. -/
def addBinaries (package : Package) (request : BinaryRequest) (source : Text) (assets : List Asset)
    (state : GithubState) (w : Work σ ε ρ) : Work σ ε ρ :=
  let binary : Binary :=
    { name := package.name
      bin := request.name
      version := package.version
      tag := w.record.tag
      sourceSha := source }
  let incomplete := request.targets.filter fun target => !binary.complete target.triple assets
  { w with
    batches := incomplete.foldl (r.pushBinary binary) w.batches
    record := { w.record with state := state } }

/-- What is left of `package` once the source of the tag is known. -/
def finish (package : Package) (source : Text) (w : Work σ ε ρ) :
    Except (Failure ε) Unit × Work σ ε ρ :=
  let w := w.mapRecord fun record => { record with source := some source }
  match package.binary with
  | none => (.ok (), w.mapRecord fun record => { record with state := .complete })
  | some request =>
    let tag := w.record.tag
    match w.ask (r.forge.ensureRelease tag package.version source r.dryRun)
        (.ensured tag source) with
    | (.error error, w) => (.error (.forge error), w)
    | (.ok none, w) => (.ok (), r.addBinaries package request source [] .wouldCreateRelease w)
    | (.ok (some release), w) =>
      match w.ask (r.forge.assets release) (.listed release) with
      | (.error error, w) => (.error (.forge error), w)
      | (.ok assets, w) => (.ok (), r.addBinaries package request source assets .complete w)

/-- `Reconciliation::package`. -/
def package (package : Package) (verifiedSource : Option Text) (w : Work σ ε ρ) :
    Except (Failure ε) Unit × Work σ ε ρ :=
  match verifiedSource with
  | some source => r.finish package source w
  | none =>
    let w := w.mapRecord fun record =>
      { record with recoverySource := some r.manifest.publication.source }
    match r.createTag package w with
    | (.error error, w) => (.error error, w)
    | (.ok none, w) =>
      (.ok (), w.mapRecord fun record =>
        { record with recoverySource := none, state := .wouldCreateTag })
    | (.ok (some source), w) =>
      r.finish package source (w.mapRecord fun record => { record with recoverySource := none })

end Reconciliation

/-! ## What each call does -/

namespace Reconciliation

variable {σ ε ρ α : Type} {r : Reconciliation σ ε ρ} {w w' : Work σ ε ρ}

end Reconciliation

end Folo.Publishing
