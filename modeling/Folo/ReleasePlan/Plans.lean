import Folo.Lib.Maps
import Folo.Lib.Outcomes
import Folo.ReleasePlan.Versions
import Mathlib.Data.Char
import Mathlib.Data.List.Destutter
import Mathlib.Data.List.Lex
import Mathlib.Data.List.Sort

/-!
# Plans

`resolve_plan` of `crp_versioning/plan.rs` and the version groups of
`groups.rs`. Every package of a resolved plan is one of the targets
(`mem_targets_of_resolvePlan`).
-/

namespace Folo.ReleasePlan

open Folo.Lib Std

/-! ## Version groups -/

structure Groups where
  byName : ExtTreeMap Text (List Text)
  byPackage : ExtTreeMap Text Text

namespace Groups

def groupOf (groups : Groups) (package : Text) : Option Text := groups.byPackage[package]?

def members (groups : Groups) (group : Text) : List Text := (groups.byName[group]?).getD []

def closure (groups : Groups) (package : Text) : List Text :=
  match groups.groupOf package with
  | some group => groups.members group
  | none => [package]

/-- The neighbours of a package, by the exact dependencies between two targets. -/
def neighbors (targets : List Text) (edges : List (Text × Text)) (package : Text) : List Text :=
  targets.filter fun other => decide (other ≠ package) && edges.any fun edge =>
    decide (edge = (package, other)) || decide (edge = (other, package))

/-- The inner loop of `from_edges`: the packages reached from the pending ones,
and what is left unvisited. Every round takes one pending package, and none is
pending twice. -/
def explore (neighbors : Text → List Text) :
    Nat → List Text → List Text → List Text → List Text × List Text
  | 0, _, unvisited, members => (members, unvisited)
  | _ + 1, [], unvisited, members => (members, unvisited)
  | rounds + 1, member :: pending, unvisited, members =>
    let reached := (neighbors member).filter unvisited.contains
    explore neighbors rounds (reached.reverse ++ pending)
      (unvisited.filter fun package => !reached.contains package) (member :: members)

/-- A component is a group of the name of its first member, unless it is a
single package. -/
def addComponent (groups : Groups) (members : List Text) : Groups :=
  match members with
  | key :: _ :: _ =>
    { byName := groups.byName.insert key members
      byPackage := members.foldl (fun m member => m.insert member key) groups.byPackage }
  | _ => groups

def components (neighbors : Text → List Text) : Nat → List Text → Groups → Groups
  | 0, _, groups => groups
  | _ + 1, [], groups => groups
  | rounds + 1, first :: unvisited, groups =>
    let component := explore neighbors (unvisited.length + 1) [first] unvisited []
    components neighbors rounds component.2
      (groups.addComponent ((component.1.insertionSort (· ≤ ·)).destutter (· ≠ ·)))

/-- `targets` are the names of a map, in their order. -/
def fromEdges (targets : List Text) (edges : List (Text × Text)) : Groups :=
  components (neighbors targets edges) targets.length targets { byName := ∅, byPackage := ∅ }

end Groups

/-! ## Plans -/

/-- `SCHEMA_VERSION`. -/
def schemaVersion : Nat := 8

structure PlanIncrement where
  name : Text
  bump : Option Text
  version : Option Text

structure PlanFile where
  schemaVersion : Nat
  releaseHistory : Option Text
  mergeTarget : Option Text
  expanded : Bool
  increments : List PlanIncrement

inductive PlanError
  | unsupportedPlanSchema (schemaVersion : Nat)
  | unboundMergeTarget
  | unresolvedExpandedPlan (packages : List Text)
  | unknownPlanTarget (name : Text)
  | unknownVersionBump (name bump : Text)
  | invalidVersion (name version : Text)
  | planIncrementSpec (name : Text)
  | conflictingPlanVersion (key : Text)
  | conflictingPlanIncrementKind (key : Text)
  | planVersionRegression (key : Text) (version highest : Version)
  | nonPlainGroupVersion (key : Text) (version : Version)
  | versionOverflow (version : Version)
  | expandedPlanDrift (packages : List Text)
  /-- an `expect` that fails -/
  | panicked

inductive VersionBump
  | patch
  | minor
  | major
  deriving DecidableEq

namespace VersionBump

/-- `from_str`. -/
def fromStr (text : Text) : Option VersionBump :=
  if text = "patch".toList then some .patch
  else if text = "minor".toList then some .minor
  else if text = "major".toList then some .major
  else none

/-- The derived order: the order of the constructors. -/
def max : VersionBump → VersionBump → VersionBump
  | .major, _ | _, .major => .major
  | .minor, _ | _, .minor => .minor
  | .patch, .patch => .patch

end VersionBump

inductive IncrementSpec
  | bump (bump : VersionBump)
  | version (version : Version)

def PlanIncrement.spec (semver : SemverCrate) (increment : PlanIncrement) :
    Except PlanError IncrementSpec :=
  match increment.bump, increment.version with
  | some bump, none =>
    match VersionBump.fromStr bump with
    | some bump => .ok (.bump bump)
    | none => .error (.unknownVersionBump increment.name bump)
  | none, some version =>
    match semver.parse version with
    | some version => .ok (.version version)
    | none => .error (.invalidVersion increment.name version)
  | none, none | some _, some _ => .error (.planIncrementSpec increment.name)

def IncrementSpec.merge (key : Text) : IncrementSpec → IncrementSpec → Except PlanError IncrementSpec
  | .bump existing, .bump added => .ok (.bump (existing.max added))
  | .version existing, .version added =>
    if existing = added then .ok (.version existing) else .error (.conflictingPlanVersion key)
  | .version _, .bump _ | .bump _, .version _ => .error (.conflictingPlanIncrementKind key)

def resolveTargets (name : Text) (groups : Groups) (targetVersions : ExtTreeMap Text Version) :
    Except PlanError (List Text) :=
  if targetVersions.contains name then .ok (groups.closure name)
  else .error (.unknownPlanTarget name)

/-- The keys that decisions are kept under, sorted. -/
def decisionKeys (targets : List Text) (groups : Groups) : List Text :=
  ((targets.map fun target => (groups.groupOf target).getD target).insertionSort
    (· ≤ ·)).destutter (· ≠ ·)

def membersForKey (key : Text) (groups : Groups) (targetVersions : ExtTreeMap Text Version) :
    List Text :=
  match groups.members key with
  | [] => if targetVersions.contains key then [key] else []
  | members => members

def incrementVersion (version : Version) (bump : VersionBump) : Except PlanError Version :=
  match bump with
  | .major =>
    if h : version.major + 1 ≤ u64Max then
      .ok { major := version.major + 1, minor := 0, patch := 0, fits := ⟨h, by decide, by decide⟩ }
    else .error (.versionOverflow version)
  | .minor =>
    if h : version.minor + 1 ≤ u64Max then
      .ok
        { major := version.major, minor := version.minor + 1, patch := 0
          fits := ⟨version.fits.1, h, by decide⟩ }
    else .error (.versionOverflow version)
  | .patch =>
    if h : version.patch + 1 ≤ u64Max then
      .ok
        { major := version.major, minor := version.minor, patch := version.patch + 1
          fits := ⟨version.fits.1, version.fits.2.1, h⟩ }
    else .error (.versionOverflow version)

/-- `Iterator::max`: of equal ones the last. -/
def maxVersion (semver : SemverCrate) : List Version → Option Version
  | [] => none
  | first :: rest => some (rest.foldl (fun best v =>
      if semver.compare best v = .gt then best else v) first)

/-- An increment goes into the decision of each of its keys. -/
def addDecision (spec : IncrementSpec) (decisions : ExtTreeMap Text IncrementSpec) (key : Text) :
    Except PlanError (ExtTreeMap Text IncrementSpec) :=
  match decisions[key]? with
  | none => .ok (decisions.insert key spec)
  | some existing => (existing.merge key spec).map fun merged => decisions.insert key merged

def addIncrement (semver : SemverCrate) (groups : Groups)
    (targetVersions : ExtTreeMap Text Version) (decisions : ExtTreeMap Text IncrementSpec)
    (increment : PlanIncrement) : Except PlanError (ExtTreeMap Text IncrementSpec) := do
  let targets ← resolveTargets increment.name groups targetVersions
  let spec ← increment.spec semver
  (decisionKeys targets groups).foldlM (addDecision spec) decisions

/-- The version that a decision gives the members of its key. -/
def decidedVersion (semver : SemverCrate) (groups : Groups) (key : Text) (highest : Version) :
    IncrementSpec → Except PlanError Version
  | .version version =>
    if semver.compare version highest = .lt then
      .error (.planVersionRegression key version highest)
    else if !(groups.members key).isEmpty && (!version.pre.isEmpty || !version.build.isEmpty) then
      .error (.nonPlainGroupVersion key version)
    else .ok version
  | .bump bump => incrementVersion highest bump

def resolveDecision (semver : SemverCrate) (groups : Groups)
    (targetVersions : ExtTreeMap Text Version) (packages : ExtTreeMap Text Version)
    (decision : Text × IncrementSpec) : Except PlanError (ExtTreeMap Text Version) :=
  let members := membersForKey decision.1 groups targetVersions
  match maxVersion semver (members.filterMap (targetVersions[·]?)) with
  | none => .error .panicked
  | some highest => do
    let newVersion ← decidedVersion semver groups decision.1 highest decision.2
    pure (members.foldl (fun m member => m.insert member newVersion) packages)

def PlanFile.validateSchema (plan : PlanFile) : Except PlanError Unit :=
  if plan.schemaVersion ≠ ReleasePlan.schemaVersion then
    .error (.unsupportedPlanSchema plan.schemaVersion)
  else if plan.mergeTarget.isSome && plan.releaseHistory.isNone then .error .unboundMergeTarget
  else .ok ()

/-- What an expanded plan must say by itself. -/
def PlanFile.checkResolved (plan : PlanFile) : Except PlanError Unit :=
  let unresolved := (plan.increments.filter fun increment => increment.version.isNone).map (·.name)
  if plan.expanded && !unresolved.isEmpty then .error (.unresolvedExpandedPlan unresolved)
  else .ok ()

/-- What an expanded plan must say of the packages that it reaches. -/
def PlanFile.checkNamed (plan : PlanFile) (packages : ExtTreeMap Text Version) :
    Except PlanError Unit :=
  let unnamed := packages.keys.filter fun package =>
    !plan.increments.any fun increment => decide (increment.name = package)
  if plan.expanded && !unnamed.isEmpty then .error (.expandedPlanDrift unnamed) else .ok ()

/-- `ResolvedVersions` is the map itself. -/
def resolvePlan (semver : SemverCrate) (plan : PlanFile) (groups : Groups)
    (targetVersions : ExtTreeMap Text Version) : Except PlanError (ExtTreeMap Text Version) := do
  plan.validateSchema
  plan.checkResolved
  let decisions ← plan.increments.foldlM (addIncrement semver groups targetVersions) ∅
  let packages ← decisions.toList.foldlM (resolveDecision semver groups targetVersions) ∅
  plan.checkNamed packages
  pure packages

/-! ## Only targets are planned -/

namespace Groups

theorem explore_subset (neighbors : Text → List Text) (rounds : Nat)
    (pending unvisited members : List Text) :
    (∀ x ∈ (explore neighbors rounds pending unvisited members).1,
      x ∈ pending ∨ x ∈ unvisited ∨ x ∈ members) ∧
      ∀ x ∈ (explore neighbors rounds pending unvisited members).2, x ∈ unvisited := by
  induction rounds generalizing pending unvisited members with
  | zero => exact ⟨fun x hx => .inr (.inr hx), fun x hx => hx⟩
  | succ rounds ih =>
    cases pending with
    | nil => exact ⟨fun x hx => .inr (.inr hx), fun x hx => hx⟩
    | cons member pending =>
      unfold explore
      obtain ⟨hreached, hrest⟩ := ih
        (((neighbors member).filter unvisited.contains).reverse ++ pending)
        (unvisited.filter fun package =>
          !((neighbors member).filter unvisited.contains).contains package)
        (member :: members)
      refine ⟨fun x hx => ?_, fun x hx => (List.mem_filter.mp (hrest x hx)).1⟩
      rcases hreached x hx with hx | hx | hx
      · rcases List.mem_append.mp hx with hx | hx
        · have hin := (List.mem_filter.mp (List.mem_reverse.mp hx)).2
          exact .inr (.inl (List.contains_iff_mem.mp hin))
        · exact .inl (List.mem_cons_of_mem _ hx)
      · exact .inr (.inl (List.mem_filter.mp hx).1)
      · rcases List.mem_cons.mp hx with rfl | hx
        · exact .inl (List.mem_cons_self ..)
        · exact .inr (.inr hx)

/-- The members of every group are among some names. -/
def Within (groups : Groups) (targets : List Text) : Prop :=
  ∀ (group : Text) members, groups.byName[group]? = some members → members ⊆ targets

theorem Within.addComponent {groups : Groups} {targets : List Text} (h : groups.Within targets)
    {members : List Text} (hmembers : members ⊆ targets) :
    (groups.addComponent members).Within targets := by
  unfold Groups.addComponent
  split
  next key second rest =>
    intro group names hnames
    rw [getElem?_insert] at hnames
    split at hnames
    next => exact Option.some.inj hnames ▸ hmembers
    next => exact h group names hnames
  next => exact h

theorem within_components {neighbors : Text → List Text} {targets : List Text} {rounds : Nat}
    {unvisited : List Text} {groups : Groups} (hunvisited : unvisited ⊆ targets)
    (h : groups.Within targets) : (components neighbors rounds unvisited groups).Within targets := by
  induction rounds generalizing unvisited groups with
  | zero => exact h
  | succ rounds ih =>
    cases unvisited with
    | nil => exact h
    | cons first unvisited =>
      obtain ⟨hfirst, hrest⟩ := List.cons_subset.mp hunvisited
      obtain ⟨hreached, hleft⟩ :=
        explore_subset neighbors (unvisited.length + 1) [first] unvisited []
      refine ih (fun x hx => hrest (hleft x hx)) (h.addComponent fun x hx => ?_)
      replace hx := (List.destutter_sublist _ _).subset hx
      rw [List.mem_insertionSort] at hx
      rcases hreached x hx with hx | hx | hx
      · rwa [List.mem_singleton.mp hx]
      · exact hrest hx
      · nomatch hx

theorem members_fromEdges (targets : List Text) (edges : List (Text × Text)) (group : Text) :
    (fromEdges targets edges).members group ⊆ targets := by
  have hwithin : (fromEdges targets edges).Within targets :=
    within_components (List.Subset.refl _) fun _ _ h => by simp at h
  unfold members
  cases hgroup : (fromEdges targets edges).byName[group]? with
  | none => exact List.nil_subset _
  | some members => exact hwithin group members hgroup

end Groups

theorem mem_of_mem_membersForKey {key : Text} {groups : Groups}
    {targetVersions : ExtTreeMap Text Version} {targets : List Text}
    (hgroups : ∀ group, groups.members group ⊆ targets)
    (htargets : ∀ name, targetVersions.contains name = true → name ∈ targets) {member : Text}
    (h : member ∈ membersForKey key groups targetVersions) : member ∈ targets := by
  unfold membersForKey at h
  split at h
  next =>
    split at h
    next hin => exact List.mem_singleton.mp h ▸ htargets key hin
    next => nomatch h
  next hmembers => exact hgroups key h

theorem mem_of_foldl_insert {newVersion : Version} {members : List Text}
    {packages : ExtTreeMap Text Version} {name : Text} {v : Version}
    (h : (members.foldl (fun m member => m.insert member newVersion) packages)[name]? = some v) :
    name ∈ members ∨ packages[name]? = some v := by
  induction members generalizing packages with
  | nil => exact .inr h
  | cons member members ih =>
    rcases ih h with hin | hbefore
    · exact .inl (List.mem_cons_of_mem _ hin)
    · rw [getElem?_insert] at hbefore
      split at hbefore
      next heq => exact .inl (heq ▸ List.mem_cons_self ..)
      next => exact .inr hbefore

/-- A resolved plan holds targets only. -/
theorem mem_targets_of_resolvePlan {semver : SemverCrate} {plan : PlanFile} {groups : Groups}
    {targetVersions packages : ExtTreeMap Text Version} {targets : List Text}
    (hgroups : ∀ group, groups.members group ⊆ targets)
    (htargets : ∀ name, targetVersions.contains name = true → name ∈ targets)
    (hok : resolvePlan semver plan groups targetVersions = .ok packages) {name : Text} {v : Version}
    (h : packages[name]? = some v) : name ∈ targets := by
  obtain ⟨_, -, hok⟩ := bind_eq_ok.mp hok
  obtain ⟨_, -, hok⟩ := bind_eq_ok.mp hok
  obtain ⟨decisions, -, hok⟩ := bind_eq_ok.mp hok
  obtain ⟨resolved, hresolved, hok⟩ := bind_eq_ok.mp hok
  obtain ⟨_, -, hok⟩ := bind_eq_ok.mp hok
  obtain rfl := Except.ok.inj hok
  refine foldlM_invariant (I := fun packages => ∀ (name : Text) v, packages[name]? = some v →
    name ∈ targets) ?_ (fun name v h => by simp at h) hresolved name v h
  intro packages decision packages' hin hstep name v hname
  unfold resolveDecision at hstep
  dsimp only at hstep
  split at hstep
  next => nomatch hstep
  next =>
    obtain ⟨newVersion, -, hstep⟩ := bind_eq_ok.mp hstep
    obtain rfl := Except.ok.inj hstep
    rcases mem_of_foldl_insert hname with hmem | hbefore
    · exact mem_of_mem_membersForKey hgroups htargets hmem
    · exact hin name v hbefore

/-! ## Semantic impacts

`SemanticImpact::minimum` of `crp_versioning/propose/decision.rs` and
`compatibility_key` of `check.rs`. -/

inductive SemanticImpact
  | breaking
  | nonbreaking
  | patch
  deriving DecidableEq

/-- The bump that the impact is relative to a published version. -/
def SemanticImpact.bump (impact : SemanticImpact) (anchor : Version) : VersionBump :=
  match impact with
  | .breaking => if 0 < anchor.major then .major else if 0 < anchor.minor then .minor else .patch
  | .nonbreaking => if 0 < anchor.major then .minor else .patch
  | .patch => .patch

def SemanticImpact.minimum (impact : SemanticImpact) (anchor : Version) :
    Except PlanError Version :=
  incrementVersion anchor (impact.bump anchor)

def compatibilityKey (version : Version) : Nat × Nat × Nat :=
  if 0 < version.major then (version.major, 0, 0)
  else if 0 < version.minor then (0, version.minor, 0)
  else (0, 0, version.patch)

/-- Neither a prerelease nor build metadata. -/
def Version.Plain (version : Version) : Prop := version.pre = [] ∧ version.build = []

instance (version : Version) : Decidable version.Plain :=
  inferInstanceAs (Decidable (_ ∧ _))

/-- What is incremented is plain. -/
theorem plain_incrementVersion {version next : Version} {bump : VersionBump}
    (h : incrementVersion version bump = .ok next) : next.Plain := by
  unfold incrementVersion at h
  split at h
  all_goals
    split at h
    · obtain rfl := Except.ok.inj h
      exact ⟨rfl, rfl⟩
    · nomatch h

end Folo.ReleasePlan
