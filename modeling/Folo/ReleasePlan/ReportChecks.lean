import Folo.ReleasePlan.Resolution
import Mathlib.Data.Char
import Mathlib.Data.List.Lex

/-!
# Checking a report

`ReportFile::validate` of `crp_versioning/report/input.rs`, with
`PackageStatus::from_evidence` of `classify.rs`, and what a report that passes
it has (`valid_of_validate`): distinct targets with versions, anchors that no
package is declared below, and groups that are disjoint sets of targets.
-/

namespace Folo.ReleasePlan

open Folo.Lib Std

inductive ReportError
  | unsupportedPlanSchema (version : Nat)
  | invalidReportPackage (name : Text)
  | invalidVersion (name version : Text)
  | inconsistentReportStatus (name : Text)
  | invalidReportReference (package target : Text)
  | invalidPublicOrigins (name : Text)
  | invalidReportGroup (name : Text)

def PackageStatus.fromEvidence (semver : SemverCrate) (declared : Version)
    (anchor : Option Version) (hasChanges : Bool) : Option PackageStatus :=
  match anchor with
  | none => if hasChanges then none else some .pendingRelease
  | some anchor =>
    match semver.compare declared anchor with
    | .lt => none
    | .gt => some .pendingRelease
    | .eq => if hasChanges then some .needsIncrement else some .unchanged

def parseVersion (semver : SemverCrate) (name version : Text) : Except ReportError Version :=
  match semver.parse version with
  | some version => .ok version
  | none => .error (.invalidVersion name version)

/-- The targets of a report by name: the group that one refers to, and its version. -/
abbrev Targets := ExtTreeMap Text (Option Text × Version)

def addTarget (semver : SemverCrate) (targets : Targets) (target : ReportVersionTarget) :
    Except ReportError Targets :=
  if (trim target.name).isEmpty || targets.contains target.name then
    .error (.invalidReportPackage target.name)
  else (parseVersion semver target.name target.declaredVersion).map fun version =>
    targets.insert target.name (target.group, version)

namespace ReportFile

def targets (report : ReportFile) : List ReportVersionTarget :=
  (report.packages.map fun package =>
    { name := package.name, declaredVersion := package.declaredVersion, group := package.group }) ++
    report.nonPublishablePackages

/-- The references of a package, in the order in which they are checked. -/
def references (package : ReportPackage) : List Text :=
  package.dependencies.map (·.name) ++ package.publicOrigins ++ package.dependents

def checkPackage (report : ReportFile) (semver : SemverCrate) (targets : Targets)
    (package : ReportPackage) : Except ReportError Unit := do
  let anchor ← package.anchor.mapM fun anchor => parseVersion semver package.name anchor.version
  match targets[package.name]? with
  | none => .error (.invalidReportPackage package.name)
  | some target =>
    if PackageStatus.fromEvidence semver target.2 anchor (!package.changed.isEmpty) ≠
        some package.status then
      .error (.inconsistentReportStatus package.name)
    else
      match (references package).find? fun reference => !targets.contains reference with
      | some reference => .error (.invalidReportReference package.name reference)
      | none =>
        if ¬ package.publicOrigins.Pairwise (· < ·) ∨ package.publicOrigins.any fun origin =>
            decide (origin = package.name) ||
              !report.packages.any fun candidate => decide (candidate.name = origin) then
          .error (.invalidPublicOrigins package.name)
        else .ok ()

/-- A member is in no other group, and refers to this one. -/
def checkMember (targets : Targets) (name : Text) (grouped : List Text) (member : Text) :
    Except ReportError (List Text) :=
  if grouped.contains member || (targets[member]?).map (·.1) != some (some name) then
    .error (.invalidReportGroup name)
  else .ok (member :: grouped)

def checkGroup (semver : SemverCrate) (targets : Targets) (grouped : List Text)
    (group : Text × ReportGroup) : Except ReportError (List Text) := do
  let _ ← parseVersion semver group.1 group.2.version
  if group.2.members.length < 2 ∨ group.2.members.head? ≠ some group.1 ∨
      ¬ group.2.members.Pairwise (· ≤ ·) then
    .error (.invalidReportGroup group.1)
  else group.2.members.foldlM (checkMember targets group.1) grouped

def validate (report : ReportFile) (semver : SemverCrate) : Except ReportError Unit :=
  if report.schemaVersion ≠ ReleasePlan.schemaVersion then
    .error (.unsupportedPlanSchema report.schemaVersion)
  else do
    let targets ← report.targets.foldlM (addTarget semver) ∅
    report.packages.forM (report.checkPackage semver targets)
    let grouped ← report.groups.toList.foldlM (checkGroup semver targets) []
    match targets.toList.find? fun target => target.2.1.isSome && !grouped.contains target.1 with
    | some target => .error (.invalidReportPackage target.1)
    | none => .ok ()

/-! ## What a checked report has -/

/-- The groups of a report: distinct sorted targets, named by the first one. -/
structure GroupsValid (report : ReportFile) : Prop where
  sorted : ∀ (g : Text) group, report.groups[g]? = some group → group.members.Pairwise (· < ·)
  named : ∀ (g : Text) group, report.groups[g]? = some group → group.members.head? = some g
  several : ∀ (g : Text) group, report.groups[g]? = some group → 2 ≤ group.members.length
  targets : ∀ (g : Text) group, report.groups[g]? = some group →
    ∀ m ∈ group.members, m ∈ report.targetNames
  disjoint : ∀ (g g' : Text) group group', report.groups[g]? = some group →
    report.groups[g']? = some group' → ∀ m ∈ group.members, m ∈ group'.members → g = g'

structure Valid (semver : SemverCrate) (report : ReportFile) : Prop where
  distinct : (report.declared.map (·.1)).Nodup
  parsed : ∀ entry ∈ report.declared, ∃ v, semver.parse entry.2 = some v
  /-- no package is declared below its anchor -/
  anchored : ∀ package ∈ report.packages, ∀ anchor, package.anchor = some anchor →
    ∃ a, semver.parse anchor.version = some a ∧
      ∀ d, semver.parse package.declaredVersion = some d → semver.compare d a ≠ .lt
  groups : report.GroupsValid

theorem parseVersion_eq_ok {semver : SemverCrate} {name text : Text} {v : Version} :
    parseVersion semver name text = .ok v ↔ semver.parse text = some v := by
  unfold parseVersion
  split
  next h => exact ⟨fun heq => h.trans (congrArg some (Except.ok.inj heq)), fun heq =>
    congrArg Except.ok (Option.some.inj (h.symm.trans heq))⟩
  next h => exact ⟨nofun, fun heq => nomatch h.symm.trans heq⟩

theorem addTarget_eq_ok {semver : SemverCrate} {targets targets' : Targets}
    {target : ReportVersionTarget} (h : addTarget semver targets target = .ok targets') :
    targets[target.name]? = none ∧ ∃ v, semver.parse target.declaredVersion = some v ∧
      targets' = targets.insert target.name (target.group, v) := by
  unfold addTarget at h
  split at h
  next => nomatch h
  next hnew =>
    rw [Bool.or_eq_true, not_or] at hnew
    obtain ⟨v, hv, rfl⟩ := map_eq_ok.mp h
    exact ⟨ExtTreeMap.getElem?_eq_none_of_contains_eq_false (Bool.eq_false_iff.mpr hnew.2), v,
      parseVersion_eq_ok.mp hv, rfl⟩

/-- The targets that are indexed are distinct, and have the versions that they declare. -/
theorem targets_of_foldlM {semver : SemverCrate} {list : List ReportVersionTarget}
    {before after : Targets} (h : list.foldlM (addTarget semver) before = .ok after) :
    (list.map (·.name)).Nodup ∧ (∀ t ∈ list, before[t.name]? = none) ∧
      (∀ t ∈ list, ∃ v, semver.parse t.declaredVersion = some v ∧
        after[t.name]? = some (t.group, v)) ∧
      ∀ (name : Text) value, after[name]? = some value →
        before[name]? = some value ∨ name ∈ list.map (·.name) := by
  induction list generalizing before with
  | nil =>
    obtain rfl := Except.ok.inj h
    exact ⟨List.nodup_nil, nofun, nofun, fun name value hvalue => .inl hvalue⟩
  | cons t list ih =>
    rw [List.foldlM_cons] at h
    obtain ⟨next, hnext, h⟩ := bind_eq_ok.mp h
    obtain ⟨hnew, v, hv, rfl⟩ := addTarget_eq_ok hnext
    obtain ⟨hnodup, habsent, hall, honly⟩ := ih h
    have hother : ∀ t' ∈ list, t.name ≠ t'.name ∧ before[t'.name]? = none := by
      intro t' ht'
      have hnone := habsent t' ht'
      rw [getElem?_insert] at hnone
      split at hnone
      next => nomatch hnone
      next hne => exact ⟨hne, hnone⟩
    refine ⟨?_, List.forall_mem_cons.mpr ⟨hnew, fun t' ht' => (hother t' ht').2⟩,
      List.forall_mem_cons.mpr ⟨⟨v, hv, ?_⟩, hall⟩, fun name value hvalue => ?_⟩
    · rw [List.map_cons, List.nodup_cons]
      refine ⟨fun hin => ?_, hnodup⟩
      obtain ⟨t', ht', heq⟩ := List.mem_map.mp hin
      exact (hother t' ht').1 heq.symm
    · -- no later target has the name of this one
      have hkeep : ∀ {list : List ReportVersionTarget} {before after : Targets},
          list.foldlM (addTarget semver) before = .ok after →
          ∀ (name : Text) value, before[name]? = some value → after[name]? = some value := by
        intro list before after h name value hvalue
        refine foldlM_invariant (I := fun targets : Targets => targets[name]? = some value) ?_
          hvalue h
        intro targets t targets' hin hstep
        obtain ⟨hnew, w, -, rfl⟩ := addTarget_eq_ok hstep
        rw [getElem?_insert, if_neg fun heq => ?_]
        · exact hin
        · rw [← heq, hnew] at hin
          nomatch hin
      exact hkeep h _ _ (by rw [getElem?_insert, if_pos rfl])
    · rcases honly name value hvalue with hbefore | hin
      · rw [getElem?_insert] at hbefore
        split at hbefore
        next heq => exact .inr (heq ▸ List.mem_cons_self ..)
        next => exact .inl hbefore
      · exact .inr (List.mem_cons_of_mem _ hin)

theorem declared_eq_targets (report : ReportFile) :
    report.declared = report.targets.map fun t => (t.name, t.declaredVersion) := by
  unfold declared targets
  rw [List.map_append, List.map_map]
  rfl

/-- A package that passes is not declared below its anchor. -/
theorem anchored_of_checkPackage {report : ReportFile} {semver : SemverCrate} {targets : Targets}
    {package : ReportPackage} (h : report.checkPackage semver targets package = .ok ())
    {anchor : AnchorJson} (hanchor : package.anchor = some anchor) :
    ∃ a target, semver.parse anchor.version = some a ∧ targets[package.name]? = some target ∧
      semver.compare target.2 a ≠ .lt := by
  unfold checkPackage at h
  obtain ⟨parsed, hparsed, h⟩ := bind_eq_ok.mp h
  rw [hanchor, Option.mapM_some] at hparsed
  obtain ⟨a, ha, rfl⟩ := map_eq_ok.mp hparsed
  split at h
  next => nomatch h
  next target htarget =>
    split at h
    next => nomatch h
    next hstatus =>
      refine ⟨a, target, parseVersion_eq_ok.mp ha, htarget, fun hlt => hstatus fun heq => ?_⟩
      unfold PackageStatus.fromEvidence at heq
      dsimp only at heq
      rw [hlt] at heq
      nomatch heq

/-- The members of a group that passes: none was in a group before. -/
theorem members_of_foldlM {targets : Targets} {name : Text} {members grouped grouped' : List Text}
    (h : members.foldlM (checkMember targets name) grouped = .ok grouped') :
    members.Nodup ∧ ∀ m ∈ members, m ∉ grouped ∧ ∃ v, targets[m]? = some (some name, v) := by
  induction members generalizing grouped with
  | nil => exact ⟨List.nodup_nil, nofun⟩
  | cons member members ih =>
    rw [List.foldlM_cons] at h
    obtain ⟨next, hnext, h⟩ := bind_eq_ok.mp h
    unfold checkMember at hnext
    split at hnext
    next => nomatch hnext
    next hnew =>
      obtain rfl := Except.ok.inj hnext
      rw [Bool.or_eq_true, not_or, List.contains_iff_mem, bne_iff_ne, not_not] at hnew
      obtain ⟨target, htarget, hgroup⟩ := Option.map_eq_some_iff.mp hnew.2
      obtain ⟨hnodup, hall⟩ := ih h
      exact ⟨List.nodup_cons.mpr ⟨fun hin => (hall member hin).1 (List.mem_cons_self ..), hnodup⟩,
        List.forall_mem_cons.mpr ⟨⟨hnew.1, target.2, by rw [htarget, ← hgroup]⟩, fun m hm =>
          ⟨fun hin => (hall m hm).1 (List.mem_cons_of_mem _ hin), (hall m hm).2⟩⟩⟩

/-- Only the members become grouped. -/
theorem added_of_foldlM {targets : Targets} {name : Text} {members grouped grouped' : List Text}
    (h : members.foldlM (checkMember targets name) grouped = .ok grouped') :
    ∀ m ∈ grouped', m ∈ grouped ∨ m ∈ members := by
  induction members generalizing grouped with
  | nil =>
    obtain rfl := Except.ok.inj h
    exact fun m hm => .inl hm
  | cons member members ih =>
    rw [List.foldlM_cons] at h
    obtain ⟨next, hnext, h⟩ := bind_eq_ok.mp h
    unfold checkMember at hnext
    split at hnext
    next => nomatch hnext
    next =>
      obtain rfl := Except.ok.inj hnext
      intro m hm
      rcases ih h m hm with hin | hin
      · rcases List.mem_cons.mp hin with rfl | hin
        · exact .inr (List.mem_cons_self ..)
        · exact .inl hin
      · exact .inr (List.mem_cons_of_mem _ hin)

theorem checkGroup_eq_ok {semver : SemverCrate} {targets : Targets} {grouped grouped' : List Text}
    {group : Text × ReportGroup} (h : checkGroup semver targets grouped group = .ok grouped') :
    2 ≤ group.2.members.length ∧ group.2.members.head? = some group.1 ∧
      group.2.members.Pairwise (· ≤ ·) ∧
      group.2.members.foldlM (checkMember targets group.1) grouped = .ok grouped' := by
  unfold checkGroup at h
  obtain ⟨_, -, h⟩ := bind_eq_ok.mp h
  split at h
  next => nomatch h
  next hshape =>
    rw [not_or, not_or, not_not, not_not] at hshape
    exact ⟨Nat.le_of_not_lt hshape.1, hshape.2.1, hshape.2.2, h⟩

/-- What each group that passes was checked for. -/
theorem groups_of_foldlM {semver : SemverCrate} {targets : Targets}
    {groups : List (Text × ReportGroup)} {grouped grouped' : List Text}
    (h : groups.foldlM (checkGroup semver targets) grouped = .ok grouped') :
    ∀ group ∈ groups, 2 ≤ group.2.members.length ∧ group.2.members.head? = some group.1 ∧
      group.2.members.Pairwise (· ≤ ·) ∧ group.2.members.Nodup ∧
      ∀ m ∈ group.2.members, ∃ v, targets[m]? = some (some group.1, v) := by
  induction groups generalizing grouped with
  | nil => nofun
  | cons group groups ih =>
    rw [List.foldlM_cons] at h
    obtain ⟨next, hnext, h⟩ := bind_eq_ok.mp h
    obtain ⟨hlength, hhead, hsorted, hmembers⟩ := checkGroup_eq_ok hnext
    obtain ⟨hnodup, hall⟩ := members_of_foldlM hmembers
    exact List.forall_mem_cons.mpr
      ⟨⟨hlength, hhead, hsorted, hnodup, fun m hm => (hall m hm).2⟩, ih h⟩

/-- What is grouped in the end is a member of one of the groups. -/
theorem grouped_of_foldlM {semver : SemverCrate} {targets : Targets}
    {groups : List (Text × ReportGroup)} {grouped : List Text}
    (h : groups.foldlM (checkGroup semver targets) [] = .ok grouped) :
    ∀ m ∈ grouped, ∃ group ∈ groups, m ∈ group.2.members := by
  suffices hall : ∀ (groups : List (Text × ReportGroup)) (before after : List Text),
      groups.foldlM (checkGroup semver targets) before = .ok after →
      ∀ m ∈ after, m ∈ before ∨ ∃ group ∈ groups, m ∈ group.2.members by
    exact fun m hm => (hall groups [] grouped h m hm).resolve_left List.not_mem_nil
  intro groups
  induction groups with
  | nil =>
    intro before after h m hm
    obtain rfl := Except.ok.inj h
    exact .inl hm
  | cons group groups ih =>
    intro before after h m hm
    rw [List.foldlM_cons] at h
    obtain ⟨next, hnext, h⟩ := bind_eq_ok.mp h
    obtain ⟨-, -, -, hmembers⟩ := checkGroup_eq_ok hnext
    rcases ih next after h m hm with hin | ⟨other, hother, hin⟩
    · rcases added_of_foldlM hmembers m hin with hin | hin
      · exact .inl hin
      · exact .inr ⟨group, List.mem_cons_self .., hin⟩
    · exact .inr ⟨other, List.mem_cons_of_mem _ hother, hin⟩

/-- In a report that passes its checks a target refers to the group that has
it as a member, if one has. -/
theorem reference_of_validate {semver : SemverCrate} {report : ReportFile}
    (h : report.validate semver = .ok ()) {target : ReportVersionTarget}
    (htarget : target ∈ report.targets) (g : Text) :
    target.group = some g ↔ ∃ group, report.groups[g]? = some group ∧
      target.name ∈ group.members := by
  unfold validate at h
  split at h
  next => nomatch h
  next =>
    obtain ⟨targets, htargets, h⟩ := bind_eq_ok.mp h
    obtain ⟨_, -, h⟩ := bind_eq_ok.mp h
    obtain ⟨grouped, hgrouped, h⟩ := bind_eq_ok.mp h
    obtain ⟨v, -, hindexed⟩ := (targets_of_foldlM htargets).2.2.1 target htarget
    have hreference : ∀ (g : Text) group, (g, group) ∈ report.groups.toList →
        target.name ∈ group.members → target.group = some g := by
      intro g group hg hmember
      obtain ⟨w, hw⟩ := (groups_of_foldlM hgrouped _ hg).2.2.2.2 _ hmember
      rw [hindexed] at hw
      exact (Prod.mk.inj (Option.some.inj hw)).1
    constructor
    · intro hgroup
      split at h
      next => nomatch h
      next hnone =>
        -- a target with a group was a member of one
        have hin := List.find?_eq_none.mp hnone (target.name, target.group, v)
          (Iteration.sorted.mem_entries.mpr hindexed)
        rw [hgroup, Option.isSome_some, Bool.true_and, Bool.not_eq_true', Bool.not_eq_false,
          List.contains_iff_mem] at hin
        obtain ⟨entry, hentry, hmember⟩ := grouped_of_foldlM hgrouped _ hin
        have hname := hreference entry.1 entry.2 hentry hmember
        rw [hgroup] at hname
        rw [Option.some.inj hname]
        exact ⟨entry.2, Iteration.sorted.mem_entries.mp hentry, hmember⟩
    · rintro ⟨group, hg, hmember⟩
      exact hreference g group (Iteration.sorted.mem_entries.mpr hg) hmember

/-- A report that passes its checks is valid. -/
theorem valid_of_validate {semver : SemverCrate} {report : ReportFile}
    (h : report.validate semver = .ok ()) : report.Valid semver := by
  unfold validate at h
  split at h
  next => nomatch h
  next =>
    obtain ⟨targets, htargets, h⟩ := bind_eq_ok.mp h
    obtain ⟨_, hpackages, h⟩ := bind_eq_ok.mp h
    obtain ⟨grouped, hgrouped, -⟩ := bind_eq_ok.mp h
    obtain ⟨hnodup, -, hall, honly⟩ := targets_of_foldlM htargets
    have hgroups := groups_of_foldlM hgrouped
    have hdeclared := declared_eq_targets report
    have hnames : report.declared.map (·.1) = report.targets.map (·.name) := by
      rw [hdeclared, List.map_map]
      rfl
    have hmem : ∀ {g : Text} {group}, report.groups[g]? = some group →
        (g, group) ∈ report.groups.toList := fun hg => Iteration.sorted.mem_entries.mpr hg
    have hmember : ∀ (g : Text) group, report.groups[g]? = some group →
        ∀ m ∈ group.members, ∃ v, targets[m]? = some (some g, v) := fun g group hg m hm =>
      (hgroups _ (hmem hg)).2.2.2.2 m hm
    refine ⟨?_, fun entry hentry => ?_, fun package hpackage anchor hanchor => ?_, ?_⟩
    · rw [hnames]
      exact hnodup
    · rw [hdeclared] at hentry
      obtain ⟨t, ht, rfl⟩ := List.mem_map.mp hentry
      obtain ⟨v, hv, -⟩ := hall t ht
      exact ⟨v, hv⟩
    · obtain ⟨a, target, ha, htarget, hlt⟩ :=
        anchored_of_checkPackage (forM_eq_ok hpackages package hpackage) hanchor
      refine ⟨a, ha, fun d hd => ?_⟩
      obtain ⟨v, hv, hget⟩ := hall ⟨package.name, package.declaredVersion, package.group⟩
        (List.mem_append_left _ (List.mem_map.mpr ⟨package, hpackage, rfl⟩))
      have hget : targets[package.name]? = some (package.group, v) := hget
      rw [hget] at htarget
      rw [← Option.some.inj htarget] at hlt
      have hv : semver.parse package.declaredVersion = some v := hv
      rw [hd] at hv
      rwa [Option.some.inj hv]
    · constructor
      · intro g group hg
        obtain ⟨-, -, hsorted, hnodup, -⟩ := hgroups _ (hmem hg)
        exact hsorted.imp_of_mem (fun _ _ => id) |>.and hnodup |>.imp fun h =>
          Std.lt_of_le_of_ne h.1 h.2
      · exact fun g group hg => (hgroups _ (hmem hg)).2.1
      · exact fun g group hg => (hgroups _ (hmem hg)).1
      · intro g group hg m hm
        obtain ⟨v, hv⟩ := hmember g group hg m hm
        rcases honly m _ hv with hbefore | hin
        · simp at hbefore
        · unfold targetNames
          rw [mem_treeSet, hnames]
          exact hin
      · intro g g' group group' hg hg' m hm hm'
        obtain ⟨v, hv⟩ := hmember g group hg m hm
        obtain ⟨v', hv'⟩ := hmember g' group' hg' m hm'
        rw [hv] at hv'
        exact Option.some.inj (Prod.mk.inj (Option.some.inj hv')).1

end ReportFile

end Folo.ReleasePlan
