import Folo.Lib.Sorting
import Folo.ReleasePlan.Plans
import Mathlib.Data.Char
import Mathlib.Data.List.Lex

/-!
# Reports

What a release report records of the workspace, `crp_versioning/report`: the
packages, what they may be released as together, and which versions are
targets of a plan.
-/

namespace Folo.ReleasePlan

open Folo.Lib Std

structure ReportedDep where
  name : Text
  req : Text

structure AnchorJson where
  version : Text

inductive ChangedItem
  | package (path change : Text)
  | inherited (field : Text)
  | lockfile (dependency change : Text)

inductive PackageStatus
  | needsIncrement
  | pendingRelease
  | unchanged
  deriving DecidableEq

structure ReportPackage where
  name : Text
  declaredVersion : Text
  group : Option Text
  status : PackageStatus
  anchor : Option AnchorJson
  changed : List ChangedItem
  dependencies : List ReportedDep
  publicOrigins : List Text
  dependents : List Text

structure ReportVersionTarget where
  name : Text
  declaredVersion : Text
  group : Option Text

structure ReportGroup where
  members : List Text
  version : Text

structure ReportFile where
  schemaVersion : Nat
  releaseHistory : Text
  mergeTarget : Option Text
  packages : List ReportPackage
  nonPublishablePackages : List ReportVersionTarget
  groups : ExtTreeMap Text ReportGroup

namespace ReportFile

/-- Every version target, with the version that it declares. -/
def declared (report : ReportFile) : List (Text × Text) :=
  (report.packages.map fun package => (package.name, package.declaredVersion)) ++
    report.nonPublishablePackages.map fun package => (package.name, package.declaredVersion)

def targetNames (report : ReportFile) : List Text := treeSet (report.declared.map (·.1))

/-- A version that cannot be parsed is an `expect` that fails. -/
def versionTargets (semver : SemverCrate) (report : ReportFile) :
    Option (ExtTreeMap Text Version) :=
  report.declared.foldlM (fun versions entry => do
    let version ← semver.parse entry.2
    some (versions.insert entry.1 version)) ∅

def versionGroups (report : ReportFile) : Groups :=
  Groups.fromEdges report.targetNames
    (report.groups.toList.flatMap fun entry => entry.2.members.map fun member => (entry.1, member))

theorem contains_versionTargets {semver : SemverCrate} {report : ReportFile}
    {versions : ExtTreeMap Text Version} (h : report.versionTargets semver = some versions)
    (name : Text) : versions.contains name = true ↔ name ∈ report.targetNames := by
  suffices hfold : ∀ (entries : List (Text × Text)) (before : ExtTreeMap Text Version),
      entries.foldlM (fun (versions : ExtTreeMap Text Version) entry => do
        let version ← semver.parse entry.2
        some (versions.insert entry.1 version)) before = some versions →
      (versions.contains name = true ↔ before.contains name = true ∨ name ∈ entries.map (·.1)) by
    unfold targetNames
    rw [hfold _ ∅ h, mem_treeSet]
    simp
  intro entries
  induction entries with
  | nil =>
    intro before h
    rw [← Option.some.inj h]
    simp
  | cons entry entries ih =>
    intro before h
    rw [List.foldlM_cons] at h
    obtain ⟨next, hnext, h⟩ := Option.bind_eq_some_iff.mp h
    obtain ⟨version, -, hinsert⟩ := Option.bind_eq_some_iff.mp hnext
    rw [ih next h, ← Option.some.inj hinsert, ExtTreeMap.contains_insert, List.map_cons,
      List.mem_cons, Bool.or_eq_true, beq_iff_eq, LawfulEqOrd.compare_eq_iff_eq, eq_comm]
    tauto

end ReportFile

end Folo.ReleasePlan
