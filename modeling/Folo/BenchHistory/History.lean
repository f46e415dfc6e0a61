import Folo.BenchHistory.Load
import Folo.BenchHistory.Scopes
import Folo.Lib.Texts

/-!
# Resolving the history

`resolve_history` of `cbh_analyze/history.rs` with `resolve_base`,
`base_ref_fork_point` and the `select_commits` of `cbh_detect/selection.rs`:
the target's first-parent line, where it forks from the base, and which of its
commits admit dirty runs. The git port is a parameter, and its queries fail
with an error of the port. Diagnostics are left out.
-/

namespace Folo.BenchHistory

open Folo.Lib Std

variable {ε : Type}

/-- What the commands fail with; `ε` is what a port fails with. -/
inductive AnalyzeError (ε : Type)
  | noOutputSelected
  | port (cause : ε)
  | invalidWindowValue (flag value : Text)
  | windowOutOfRange (window : Text)
  | pruneSelectionRequired
  | unknownEngine (name : Text)
  | resolveRefFailed (reference : Text) (cause : ε)
  | unresolvedRef (operation reference guidance : Text)
  | baseBranchUnavailable (targetRef : Text)
  | firstParentWalkFailed (reference : Text) (cause : ε)
  | mergeBaseFailed (target base : Text) (cause : ε)
  | mergeBaseUnavailable (targetRef targetCommit baseCommit remedy : Text)
  | workingTreeProbeFailed (cause : ε)
  | defaultBranchProbeFailed (cause : ε)
  | pruneBaseConfirmationRequired (baseName : Text)
  | invalidStoredUtf8 (objectKind key : Text)
  | invalidBlessing (objectKind key expected : Text)
  | blessingScopeConflict (key scope : Text)

/-- `map_err` with the cause. -/
def mapErr {ε' α : Type} (wrap : ε → ε') : Except ε α → Except ε' α
  | .ok a => .ok a
  | .error e => .error (wrap e)

/-- A commit of a first-parent line. -/
structure FirstParentCommit where
  commitId : Text
  committerTime : Option Int
  subject : Text

/-- The git port. -/
structure GitHistory (ε : Type) where
  resolve : Text → Except ε (Option Text)
  defaultBranch : Except ε (Option Text)
  mergeBase : Text → Text → Except ε (Option Text)
  /-- the oldest commit first -/
  firstParent : Text → Except ε (List FirstParentCommit)
  isDirty : Except ε Bool

structure Config where
  defaultBranch : Option Text

/-- What a command selects. -/
structure Selection where
  context : Option Text
  base : Option Text
  noDirty : Bool
  since : Option Text
  engine : List Text
  targetTriple : List Text
  machineKey : List Text

inductive DirtyTipPolicy
  | whenWorkingTreeDirty
  | always
  deriving DecidableEq

inductive DirtyAdmission
  | excluded
  | admitted
  | baseException
  deriving DecidableEq

def DirtyAdmission.admitsDirty : DirtyAdmission → Bool
  | .admitted | .baseException => true
  | .excluded => false

def DirtyAdmission.isBaseException : DirtyAdmission → Bool
  | .baseException => true
  | .admitted | .excluded => false

structure SelectedCommit where
  commit : Text
  dirty : DirtyAdmission

def selectCommits (ancestry : List Text) (mergeBase : Option Text)
    (allowDirty dirtyTipException : Bool) : List SelectedCommit :=
  let split := mergeBase.bind fun base => ancestry.findIdx? fun commit => decide (commit = base)
  let tipIndex := if ancestry.length = 0 then none else some (ancestry.length - 1)
  ancestry.mapIdx fun index commit =>
    let targetSide := split.all fun boundary => decide (boundary < index)
    let isTip := decide (tipIndex = some index)
    let dirty :=
      if !targetSide && isTip && allowDirty && dirtyTipException then DirtyAdmission.baseException
      else if targetSide && allowDirty then .admitted
      else .excluded
    { commit, dirty }

/-- The base ref: its display name and its commit. -/
structure ResolvedBase where
  name : Text
  commit : Text

def resolveRef (git : GitHistory ε) (reference : Text) : Except (AnalyzeError ε) (Option Text) :=
  mapErr (.resolveRefFailed reference) (git.resolve reference)

/-- The repository's own default branch, the last resort. -/
def resolveDefaultBranch (git : GitHistory ε) : Except (AnalyzeError ε) (Option ResolvedBase) := do
  match ← mapErr .defaultBranchProbeFailed git.defaultBranch with
  | none => pure none
  | some name =>
    match ← resolveRef git name with
    | none => pure none
    | some commit => pure (some { name, commit })

def resolveBase (git : GitHistory ε) (config : Config) (base : Option Text) :
    Except (AnalyzeError ε) (Option ResolvedBase) := do
  match base with
  | some base =>
    match ← resolveRef git base with
    | none =>
      .error (.unresolvedRef "resolving the comparison base".toList base
        "Check that the --base ref exists or is fetched.".toList)
    | some commit => pure (some { name := base, commit })
  | none =>
    match config.defaultBranch with
    | none => resolveDefaultBranch git
    | some default =>
      match ← resolveRef git default with
      | none => resolveDefaultBranch git
      | some commit => pure (some { name := default, commit })

/-- The merge-base of two commits. -/
def mergeBaseOf (git : GitHistory ε) (a b : Text) : Except (AnalyzeError ε) (Option Text) :=
  mapErr (.mergeBaseFailed a b) (git.mergeBase a b)

def isAncestorOf (git : GitHistory ε) (commit descendant : Text) :
    Except (AnalyzeError ε) Bool := do
  let mergeBase ← mergeBaseOf git commit descendant
  pure (decide (mergeBase = some commit))

/-- The loop of `base_ref_fork_point`, at most so many times. -/
def bisectLine (git : GitHistory ε) (ancestry : List Text) (baseCommit : Text) :
    Nat → Nat → Nat → Except (AnalyzeError ε) Nat
  | 0, low, _ => pure low
  | rounds + 1, low, high =>
    if low ≥ high then pure low
    else
      let mid := (low + high) / 2
      match ancestry[mid]? with
      | none => pure low
      | some candidate => do
        if ← isAncestorOf git candidate baseCommit then
          bisectLine git ancestry baseCommit rounds (mid + 1) high
        else bisectLine git ancestry baseCommit rounds low mid

def baseRefForkPoint (git : GitHistory ε) (ancestry : List Text) (baseCommit : Text) :
    Except (AnalyzeError ε) (Option Text) := do
  let low ← bisectLine git ancestry baseCommit (ancestry.length + 1) 0 ancestry.length
  match low with
  | 0 => pure none
  | index + 1 => pure ancestry[index]?

structure ResolvedHistory where
  targetRef : Text
  baseName : Text
  baseCommit : Text
  tipCommit : Text
  tipDirty : Bool
  order : CommitOrder
  orderedCommits : List Text
  commitTimes : ExtTreeMap Text Int
  commitSubjects : ExtTreeMap Text Text
  admitDirty : ExtTreeMap Text Bool
  dirtyBaseException : ExtTreeMap Text Bool
  mergeBaseIndex : Option Nat
  tipIsMergeBase : Bool

/-- A map collected from pairs: of two pairs with one key the later one counts. -/
def collectMap {β : Type} (pairs : List (Text × β)) : ExtTreeMap Text β :=
  pairs.foldl (fun m pair => m.insert pair.1 pair.2) ∅

/-- Whether the working tree is dirty, where the policy asks. -/
def probeWorkingTree (git : GitHistory ε) (selection : Selection) (policy : DirtyTipPolicy) :
    Except (AnalyzeError ε) Bool :=
  if policy = .whenWorkingTreeDirty ∧ selection.noDirty = false then
    mapErr .workingTreeProbeFailed git.isDirty
  else .ok false

/-- The commit that the line is split at. -/
def findSplitCommit (git : GitHistory ε) (ancestry : List Text) (mergeBase baseCommit : Text) :
    Except (AnalyzeError ε) (Option Text) :=
  if mergeBase ∈ ancestry then .ok (some mergeBase)
  else baseRefForkPoint git ancestry baseCommit

def resolveHistory (git : GitHistory ε) (config : Config) (selection : Selection)
    (policy : DirtyTipPolicy) : Except (AnalyzeError ε) ResolvedHistory := do
  let targetRef := selection.context.getD "HEAD".toList
  let some targetCommit ← resolveRef git targetRef
    | .error (.unresolvedRef "resolving history".toList targetRef
        ("Check that the ref exists in the selected repository, and fetch it if it is absent. " ++
          "Select a different repository with --repo, or select a different target ref with " ++
          "--context.").toList)
  let some base ← resolveBase git config selection.base
    | .error (.baseBranchUnavailable targetRef)
  let firstParent ← mapErr (.firstParentWalkFailed targetCommit) (git.firstParent targetCommit)
  let ancestry := firstParent.map (·.commitId)
  let commitTimes := collectMap (firstParent.filterMap fun commit =>
    commit.committerTime.map fun time => (commit.commitId, time))
  let commitSubjects := collectMap (firstParent.filterMap fun commit =>
    if commit.subject.isEmpty then none else some (commit.commitId, commit.subject))
  let some mergeBase ← mergeBaseOf git targetCommit base.commit
    | .error (.mergeBaseUnavailable targetRef targetCommit base.commit
        (match selection.base with
        | some explicit =>
          (" If the history is already complete, ".toList ++ explicit ++
            " is genuinely unrelated to the target and cannot serve as its base.".toList)
        | none =>
          (" If the history is already complete, the base branch is unrelated to " ++
            "the target; name the intended base with --base or project.default_branch.").toList))
  let workingTreeDirty ← probeWorkingTree git selection policy
  let dirtyTipException :=
    match policy with
    | .always => !selection.noDirty
    | .whenWorkingTreeDirty => workingTreeDirty
  let splitCommit ← findSplitCommit git ancestry mergeBase base.commit
  let selected := selectCommits ancestry splitCommit (!selection.noDirty) dirtyTipException
  let order := CommitOrder.ofCommits (selected.map (·.commit))
  pure
    { targetRef
      baseName := base.name
      baseCommit := base.commit
      tipCommit := targetCommit
      tipDirty := workingTreeDirty
      order
      orderedCommits := ancestry
      commitTimes
      commitSubjects
      admitDirty := collectMap (selected.map fun one => (one.commit, one.dirty.admitsDirty))
      dirtyBaseException :=
        collectMap (selected.map fun one => (one.commit, one.dirty.isBaseException))
      mergeBaseIndex := splitCommit.bind fun commit => order.index[commit]?
      tipIsMergeBase := decide (mergeBase = targetCommit) }

end Folo.BenchHistory
