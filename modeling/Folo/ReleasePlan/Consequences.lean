import Folo.Lib.Texts
import Folo.ReleasePlan.Plans
import Folo.ReleasePlan.Resolution

/-!
# Plans with their consequences

`add_consequences`, `raise` and `explicit_plan` of `crp_versioning/preview.rs`
over what classification observes of the workspace. What is raised, and to
what at least, does not depend on the versions reached so far
(`raises_addConsequences`).
-/

namespace Folo.ReleasePlan

open Folo.Lib Std

structure PackageClass where
  name : Text
  declaredVersion : Version
  status : PackageStatus
  anchor : Option Version
  dependencies : List ReportedDep
  publicOrigins : List Text

structure ExactDependency where
  source : Text
  target : Text
  requirement : Text

/-- What classification observes: the publishable packages, the versions that
plans may set, and the exact dependencies that make version groups. -/
structure Classification where
  packages : List PackageClass
  versions : ExtTreeMap Text Version
  exactDependencies : List ExactDependency
  /-- the packages that do not exist on the predecessor -/
  exempt : List Text
  tracked : ∀ package ∈ packages, versions.contains package.name = true

/-- `from_workspace`. -/
def Classification.membership (c : Classification) : Groups :=
  Groups.fromEdges c.versions.keys (c.exactDependencies.map fun edge => (edge.source, edge.target))

structure GroupVerdict where
  consistent : Bool
  version : Version

/-- `none` is an `expect` that fails. -/
def GroupVerdict.new (semver : SemverCrate) (members : List Text)
    (versions : ExtTreeMap Text Version) (exempt : List Text) : Option GroupVerdict := do
  let compared ← (members.filter (· ∉ exempt)).mapM (versions[·]?)
  let highest ← maxVersion semver (← members.mapM (versions[·]?))
  some { consistent := compared.eraseDups.length ≤ 1, version := highest }

def raise (semver : SemverCrate) (groups : Groups) (versions : ExtTreeMap Text Version)
    (resolved : ExtTreeMap Text Version) (target : Text) (minimum : Version) :
    ExtTreeMap Text Version :=
  let group := (groups.groupOf target).getD target
  let members := match groups.members group with
    | [] => [target]
    | members => members
  let version := (maxVersion semver
    (members.filterMap (fun name => resolved[name]? <|> versions[name]?) ++ [minimum])).getD minimum
  members.foldl (fun resolved member => resolved.insert member version) resolved

def releasesBreakingChange (package : PackageClass) : Bool :=
  match package.anchor with
  | none => false
  | some anchor => compatibilityKey anchor != compatibilityKey package.declaredVersion

namespace Classification

variable (c : Classification) (semver : SemverCrate)

def raiseTo (resolved : ExtTreeMap Text Version) (target : Text) (minimum : Version) :
    ExtTreeMap Text Version :=
  raise semver c.membership c.versions resolved target minimum

def raiseGroup (resolved : ExtTreeMap Text Version) (group : Text × List Text) :
    Except PlanError (ExtTreeMap Text Version) :=
  match GroupVerdict.new semver group.2 c.versions c.exempt with
  | none => .error .panicked
  | some verdict =>
    if verdict.consistent then .ok resolved
    else .ok (c.raiseTo semver resolved group.1 verdict.version)

/-- Retaining a version also schedules the rewrites of requirements on it. -/
def retain (resolved : ExtTreeMap Text Version) (target requirement : Text) :
    ExtTreeMap Text Version :=
  match c.versions[target]? with
  | none => resolved
  | some version =>
    if requirementNamesVersion requirement version then resolved
    else c.raiseTo semver resolved target version

def raiseNeeded (package : PackageClass) (resolved : ExtTreeMap Text Version) :
    Except PlanError (ExtTreeMap Text Version) :=
  if package.status = .needsIncrement then
    match package.anchor with
    | none => .error .panicked
    | some anchor => do
      let minimum ← incrementVersion anchor .patch
      pure (c.raiseTo semver resolved package.name minimum)
  else .ok resolved

def raiseExposing (package : PackageClass) (resolved : ExtTreeMap Text Version) (origin : Text) :
    Except PlanError (ExtTreeMap Text Version) :=
  if releasesBreakingChange package then .ok resolved
  else match package.anchor with
    | none => .ok resolved
    | some anchor =>
      if c.packages.any fun target => target.name = origin && releasesBreakingChange target then do
        let minimum ← SemanticImpact.breaking.minimum anchor
        pure (c.raiseTo semver resolved package.name minimum)
      else .ok resolved

def raisePackage (resolved : ExtTreeMap Text Version) (package : PackageClass) :
    Except PlanError (ExtTreeMap Text Version) := do
  let resolved ← c.raiseNeeded semver package resolved
  let resolved := package.dependencies.foldl
    (fun resolved dependency => c.retain semver resolved dependency.name dependency.req) resolved
  package.publicOrigins.foldlM (c.raiseExposing semver package) resolved

def addConsequences (resolved : ExtTreeMap Text Version) :
    Except PlanError (ExtTreeMap Text Version) := do
  let resolved ← c.membership.byName.toList.foldlM (c.raiseGroup semver) resolved
  let resolved ← c.packages.foldlM (c.raisePackage semver) resolved
  pure (c.exactDependencies.foldl
    (fun resolved edge => c.retain semver resolved edge.target edge.requirement) resolved)

end Classification

def explicitPlan (resolved : ExtTreeMap Text Version) : PlanFile where
  schemaVersion := schemaVersion
  releaseHistory := none
  mergeTarget := none
  expanded := true
  increments := resolved.toList.map fun entry =>
    { name := entry.1, bump := none, version := some entry.2.display }

/-! ## What is asked for -/

/-- The version that the workspace asks for a package, whatever the plan says. -/
inductive Classification.Asks (c : Classification) (semver : SemverCrate) : Text → Version → Prop
  /-- a group whose members declare different versions -/
  | group {name members verdict} : c.membership.byName[name]? = some members →
      GroupVerdict.new semver members c.versions c.exempt = some verdict →
      verdict.consistent = false → c.Asks semver name verdict.version
  /-- a package that must be incremented -/
  | increment {package anchor minimum} : package ∈ c.packages → package.status = .needsIncrement →
      package.anchor = some anchor → incrementVersion anchor .patch = .ok minimum →
      c.Asks semver package.name minimum
  /-- a requirement that does not name what its target declares -/
  | dependency {package dependency version} : package ∈ c.packages →
      dependency ∈ package.dependencies → c.versions[dependency.name]? = some version →
      requirementNamesVersion dependency.req version = false →
      c.Asks semver dependency.name version
  /-- a package that exposes another one, which breaks -/
  | exposing {package origin anchor minimum} : package ∈ c.packages →
      origin ∈ package.publicOrigins → releasesBreakingChange package = false →
      package.anchor = some anchor →
      (∃ target ∈ c.packages, target.name = origin ∧ releasesBreakingChange target = true) →
      SemanticImpact.breaking.minimum anchor = .ok minimum → c.Asks semver package.name minimum
  | exact {edge version} : edge ∈ c.exactDependencies → c.versions[edge.target]? = some version →
      requirementNamesVersion edge.requirement version = false → c.Asks semver edge.target version

/-- One is the other after raises, of what is asked for and of nothing else. -/
def Classification.Raises (c : Classification) (semver : SemverCrate)
    (before after : ExtTreeMap Text Version) (asked : Text → Version → Prop) : Prop :=
  ∃ requests : List (Text × Version),
    after = requests.foldl (fun resolved r => c.raiseTo semver resolved r.1 r.2) before ∧
      ∀ t v, (t, v) ∈ requests ↔ asked t v

namespace Classification

variable {c : Classification} {semver : SemverCrate} {before after : ExtTreeMap Text Version}

theorem raises_none {asked : Text → Version → Prop} (h : ∀ t v, ¬ asked t v) :
    c.Raises semver before before asked :=
  ⟨[], rfl, fun t v => iff_of_false (fun hmem => nomatch hmem) (h t v)⟩

theorem raises_one {asked : Text → Version → Prop} {target : Text} {minimum : Version}
    (h : ∀ t v, asked t v ↔ t = target ∧ v = minimum) :
    c.Raises semver before (c.raiseTo semver before target minimum) asked :=
  ⟨[(target, minimum)], rfl, fun t v => by rw [List.mem_singleton, Prod.mk.injEq, h]⟩

theorem Raises.trans {middle : ExtTreeMap Text Version} {P Q : Text → Version → Prop}
    (h : c.Raises semver before middle P) (h' : c.Raises semver middle after Q) :
    c.Raises semver before after fun t v => P t v ∨ Q t v := by
  obtain ⟨first, rfl, hfirst⟩ := h
  obtain ⟨second, rfl, hsecond⟩ := h'
  refine ⟨first ++ second, List.foldl_append.symm, fun t v => ?_⟩
  rw [List.mem_append, hfirst, hsecond]

theorem Raises.congr {P Q : Text → Version → Prop} (h : c.Raises semver before after P)
    (hiff : ∀ t v, P t v ↔ Q t v) : c.Raises semver before after Q := by
  obtain ⟨requests, hafter, hmem⟩ := h
  exact ⟨requests, hafter, fun t v => (hmem t v).trans (hiff t v)⟩

/-- A loop asks for what its rounds ask for. -/
theorem raises_foldlM {α : Type} {xs : List α}
    {f : ExtTreeMap Text Version → α → Except PlanError (ExtTreeMap Text Version)}
    {P : α → Text → Version → Prop}
    (hround : ∀ x ∈ xs, ∀ before after : ExtTreeMap Text Version, f before x = .ok after →
      c.Raises semver before after (P x))
    (h : xs.foldlM f before = Except.ok after) :
    c.Raises semver before after fun t v => ∃ x ∈ xs, P x t v := by
  induction xs generalizing before with
  | nil =>
    obtain rfl := Except.ok.inj h
    exact raises_none fun t v => by simp
  | cons x xs ih =>
    rw [List.foldlM_cons] at h
    obtain ⟨middle, hmiddle, h⟩ := bind_eq_ok.mp h
    obtain ⟨hx, hrest⟩ := List.forall_mem_cons.mp hround
    refine ((hx _ _ hmiddle).trans (ih hrest h)).congr fun t v => ?_
    rw [List.exists_mem_cons_iff]

theorem raises_foldl {α : Type} {xs : List α}
    {f : ExtTreeMap Text Version → α → ExtTreeMap Text Version} {P : α → Text → Version → Prop}
    (hround : ∀ x ∈ xs, ∀ before, c.Raises semver before (f before x) (P x)) :
    c.Raises semver before (xs.foldl f before) fun t v => ∃ x ∈ xs, P x t v := by
  have hpure : xs.foldlM (fun before x => (Except.ok (f before x) : Except PlanError _)) before =
      .ok (xs.foldl f before) := List.foldlM_pure
  refine raises_foldlM (fun x hx before after h => ?_) hpure
  obtain rfl := Except.ok.inj h
  exact hround x hx before

theorem raises_retain (target requirement : Text) :
    c.Raises semver before (c.retain semver before target requirement) fun t v =>
      t = target ∧ c.versions[target]? = some v ∧ requirementNamesVersion requirement v = false := by
  unfold retain
  split
  next hnone => exact raises_none fun t v h => by simp [hnone] at h
  next version hversion =>
    split
    next hnames =>
      refine raises_none fun t v h => ?_
      rw [hversion] at h
      obtain rfl := Option.some.inj h.2.1
      rw [hnames] at h
      exact nomatch h.2.2
    next hnames =>
      refine raises_one fun t v => and_congr_right fun _ => ?_
      rw [hversion, Option.some.injEq, eq_comm]
      refine and_iff_left_of_imp ?_
      rintro rfl
      exact Bool.not_eq_true _ ▸ hnames

theorem raises_group {group : Text × List Text} (h : c.raiseGroup semver before group = .ok after) :
    c.Raises semver before after fun t v => t = group.1 ∧ ∃ verdict,
      GroupVerdict.new semver group.2 c.versions c.exempt = some verdict ∧
        verdict.consistent = false ∧ verdict.version = v := by
  unfold raiseGroup at h
  split at h
  next => nomatch h
  next verdict hverdict =>
    split at h
    next hconsistent =>
      obtain rfl := Except.ok.inj h
      refine raises_none fun t v hasked => ?_
      obtain ⟨-, other, hother, hnot, -⟩ := hasked
      rw [hverdict] at hother
      obtain rfl := Option.some.inj hother
      rw [hconsistent] at hnot
      nomatch hnot
    next hconsistent =>
      obtain rfl := Except.ok.inj h
      refine raises_one fun t v => and_congr_right fun _ => ?_
      constructor
      · rintro ⟨other, hother, -, rfl⟩
        rw [hverdict] at hother
        rw [Option.some.inj hother]
      · rintro rfl
        exact ⟨verdict, hverdict, Bool.not_eq_true _ ▸ hconsistent, rfl⟩

theorem raises_needed {package : PackageClass}
    (h : c.raiseNeeded semver package before = .ok after) :
    c.Raises semver before after fun t v => t = package.name ∧ package.status = .needsIncrement ∧
      ∃ anchor, package.anchor = some anchor ∧ incrementVersion anchor .patch = .ok v := by
  unfold raiseNeeded at h
  split at h
  next hstatus =>
    split at h
    next => nomatch h
    next anchor hanchor =>
      obtain ⟨minimum, hminimum, h⟩ := bind_eq_ok.mp h
      obtain rfl := Except.ok.inj h
      refine raises_one fun t v => and_congr_right fun _ => ?_
      rw [and_iff_right hstatus, hanchor]
      constructor
      · rintro ⟨_, hother, hv⟩
        obtain rfl := Option.some.inj hother
        rw [hminimum] at hv
        exact (Except.ok.inj hv).symm
      · rintro rfl
        exact ⟨anchor, rfl, hminimum⟩
  next hstatus =>
    obtain rfl := Except.ok.inj h
    exact raises_none fun t v hasked => hstatus hasked.2.1

theorem raises_exposing {package : PackageClass} {origin : Text}
    (h : c.raiseExposing semver package before origin = .ok after) :
    c.Raises semver before after fun t v => t = package.name ∧
      releasesBreakingChange package = false ∧
      (∃ target ∈ c.packages, target.name = origin ∧ releasesBreakingChange target = true) ∧
      ∃ anchor, package.anchor = some anchor ∧
        SemanticImpact.breaking.minimum anchor = .ok v := by
  unfold raiseExposing at h
  split at h
  next hbreaks =>
    obtain rfl := Except.ok.inj h
    refine raises_none fun t v hasked => ?_
    rw [hbreaks] at hasked
    exact nomatch hasked.2.1
  next hbreaks =>
    split at h
    next hnone =>
      obtain rfl := Except.ok.inj h
      refine raises_none fun t v hasked => ?_
      obtain ⟨-, -, -, anchor, hanchor, -⟩ := hasked
      rw [hnone] at hanchor
      nomatch hanchor
    next anchor hanchor =>
      have hany : (c.packages.any fun target =>
          decide (target.name = origin) && releasesBreakingChange target) = true ↔
          ∃ target ∈ c.packages, target.name = origin ∧ releasesBreakingChange target = true := by
        simp only [List.any_eq_true, Bool.and_eq_true, decide_eq_true_eq]
      split at h
      next hin =>
        obtain ⟨minimum, hminimum, h⟩ := bind_eq_ok.mp h
        obtain rfl := Except.ok.inj h
        refine raises_one fun t v => and_congr_right fun _ => ?_
        rw [and_iff_right (Bool.not_eq_true _ ▸ hbreaks), and_iff_right (hany.mp hin), hanchor]
        constructor
        · rintro ⟨_, hother, hv⟩
          obtain rfl := Option.some.inj hother
          rw [hminimum] at hv
          exact (Except.ok.inj hv).symm
        · rintro rfl
          exact ⟨anchor, rfl, hminimum⟩
      next hnotin =>
        obtain rfl := Except.ok.inj h
        exact raises_none fun t v hasked => hnotin (hany.mpr hasked.2.2.1)

/-- What `add_consequences` raises is what the workspace asks for. -/
theorem raises_addConsequences (h : c.addConsequences semver before = .ok after) :
    c.Raises semver before after (c.Asks semver) := by
  obtain ⟨grouped, hgrouped, h⟩ := bind_eq_ok.mp h
  obtain ⟨packaged, hpackaged, h⟩ := bind_eq_ok.mp h
  obtain rfl := Except.ok.inj h
  have hgroups := raises_foldlM (fun group _ _ _ h => raises_group h) hgrouped
  have hpackages := raises_foldlM (fun package _ before after h => by
    unfold raisePackage at h
    obtain ⟨needed, hneeded, h⟩ := bind_eq_ok.mp h
    exact ((raises_needed hneeded).trans (raises_foldl fun dependency _ before =>
      raises_retain dependency.name dependency.req)).trans
        (raises_foldlM (fun origin _ _ _ h => raises_exposing h) h)) hpackaged
  refine ((hgroups.trans hpackages).trans (raises_foldl fun edge _ before =>
    raises_retain edge.target edge.requirement)).congr fun t v => ?_
  constructor
  · rintro ((⟨group, hgroup, rfl, verdict, hverdict, hconsistent, rfl⟩ |
      ⟨package, hpackage, (⟨rfl, hstatus, anchor, hanchor, hminimum⟩ |
        ⟨dependency, hdependency, rfl, hversion, hnames⟩) |
        ⟨origin, horigin, rfl, hbreaks, htarget, anchor, hanchor, hminimum⟩⟩) |
      ⟨edge, hedge, rfl, hversion, hnames⟩)
    · exact .group (Iteration.sorted.mem_entries.mp hgroup) hverdict hconsistent
    · exact .increment hpackage hstatus hanchor hminimum
    · exact .dependency hpackage hdependency hversion hnames
    · exact .exposing hpackage horigin hbreaks hanchor htarget hminimum
    · exact .exact hedge hversion hnames
  · intro hasked
    cases hasked with
    | group hmembers hverdict hconsistent =>
      exact .inl (.inl ⟨_, Iteration.sorted.mem_entries.mpr hmembers, rfl, _, hverdict,
        hconsistent, rfl⟩)
    | increment hpackage hstatus hanchor hminimum =>
      exact .inl (.inr ⟨_, hpackage, .inl (.inl ⟨rfl, hstatus, _, hanchor, hminimum⟩)⟩)
    | dependency hpackage hdependency hversion hnames =>
      exact .inl (.inr ⟨_, hpackage, .inl (.inr ⟨_, hdependency, rfl, hversion, hnames⟩)⟩)
    | exposing hpackage horigin hbreaks hanchor htarget hminimum =>
      exact .inl (.inr ⟨_, hpackage, .inr ⟨_, horigin, rfl, hbreaks, htarget, _, hanchor,
        hminimum⟩⟩)
    | exact hedge hversion hnames => exact .inr ⟨_, hedge, rfl, hversion, hnames⟩

end Classification

end Folo.ReleasePlan
