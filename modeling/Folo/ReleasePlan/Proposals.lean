import Folo.ReleasePlan.Plans
import Folo.ReleasePlan.Reports
import Mathlib.Data.Char
import Mathlib.Data.List.Lex

/-!
# Proposals

`crp_versioning/propose`: the evidence of a release (`Proposal`), and the
increments that its decisions ask for (`Proposal.decisionIncrements`).
-/

namespace Folo.ReleasePlan

open Folo.Lib Std

inductive ProposeError
  | plan (error : PlanError)
  | unsupportedDecisionSchema (version : Nat)
  | invalidDecisionName (name : Text)
  | unknownDecisionTarget (name : Text)
  | firstPublicationRequired (name : Text)
  | prereleaseDecision (name : Text)
  | proposalCycle
  | missingIncrement (packages : List Text)
  | rewrittenPublishedPackage (packages : List Text)
  | unsettledGroup (name : Text)
  | insufficientIncrement (name : Text) (minimum : Version)
  | unpropagatedPublicDependency (name : Text)
  /-- an `expect` that fails -/
  | panicked
  | unfinished

def ofPlan {α : Type} : Except PlanError α → Except ProposeError α
  | .ok a => .ok a
  | .error e => .error (.plan e)

/-- `cmp_precedence`: the order without build metadata. -/
def SemverCrate.cmpPrecedence (semver : SemverCrate) (v w : Version) : Ordering :=
  semver.compare { v with build := [], buildValid := rfl } { w with build := [], buildValid := rfl }

/-- `to_string`. -/
def VersionBump.display : VersionBump → Text
  | .patch => "patch".toList
  | .minor => "minor".toList
  | .major => "major".toList

abbrev Impacts := ExtTreeMap Text SemanticImpact

/-! ## The evidence -/

structure Proposal where
  report : ReportFile
  packages : ExtTreeMap Text ReportPackage
  anchors : ExtTreeMap Text Version
  versions : ExtTreeMap Text Version
  groups : Groups
  highest : ExtTreeMap Text Version

/-- A plan that is not expanded. -/
def proposedPlan (increments : List PlanIncrement) : PlanFile where
  schemaVersion := schemaVersion
  releaseHistory := none
  mergeTarget := none
  expanded := false
  increments := increments

namespace Proposal

/-- The anchors of the packages that have one. -/
def anchorsOf (semver : SemverCrate) (packages : List ReportPackage) :
    Option (ExtTreeMap Text Version) :=
  packages.foldlM (fun anchors package =>
    match package.anchor with
    | none => some anchors
    | some anchor => (semver.parse anchor.version).map fun version =>
      anchors.insert package.name version) ∅

/-- The highest version of every reported group. -/
def highestOf (semver : SemverCrate) (versions : ExtTreeMap Text Version)
    (groups : List (Text × ReportGroup)) : Option (ExtTreeMap Text Version) :=
  groups.foldlM (fun highest group => do
    let declared ← group.2.members.mapM (versions[·]?)
    let version ← maxVersion semver declared
    some (highest.insert group.1 version)) ∅

/-- `Proposal::new`; none when an `expect` fails. -/
def new (semver : SemverCrate) (report : ReportFile) : Option Proposal := do
  let versions ← report.versionTargets semver
  let anchors ← anchorsOf semver report.packages
  let highest ← highestOf semver versions report.groups.toList
  some
    { report, anchors, versions, highest
      packages := report.packages.foldl (fun m package => m.insert package.name package) ∅
      groups := report.versionGroups }

variable (semver : SemverCrate) (p : Proposal)

def decisionKey (name : Text) : Text := (p.groups.groupOf name).getD name

def resolve (plan : PlanFile) : Except ProposeError (ExtTreeMap Text Version) :=
  ofPlan (resolvePlan semver plan p.groups p.versions)

/-! ## `decision.rs` -/

/-- The component of a version below the minimum that is to be raised. -/
def bumpTo (minimum declared : Version) : VersionBump :=
  if declared.major < minimum.major then .major
  else if declared.minor < minimum.minor then .minor
  else .patch

/-- The increment of one decision, if it takes one. -/
def decisionIncrement (decision : Text × SemanticImpact) :
    Except ProposeError (Option PlanIncrement) :=
  if !p.packages.contains decision.1 then .error (.unknownDecisionTarget decision.1)
  else
    match p.anchors[decision.1]?, p.versions[decision.1]? with
    | none, _ => .error (.firstPublicationRequired decision.1)
    | some _, none => .error .panicked
    | some anchor, some declared =>
      if !anchor.pre.isEmpty || !declared.pre.isEmpty then .error (.prereleaseDecision decision.1)
      else (ofPlan (decision.2.minimum anchor)).map fun minimum =>
        if semver.cmpPrecedence declared minimum ≠ .lt then none
        else some
          { name := decision.1, bump := some (bumpTo minimum declared).display, version := none }

def decisionIncrements (impacts : Impacts) : Except ProposeError (List PlanIncrement) :=
  (impacts.toList.mapM (p.decisionIncrement semver)).map (·.reduceOption)

end Proposal

end Folo.ReleasePlan
