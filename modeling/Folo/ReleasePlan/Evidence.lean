import Folo.ReleasePlan.Components
import Folo.ReleasePlan.Proposals

/-!
# The evidence of a proposal

What `Proposal::new` indexes of a checked report (`indexed_of_new`): coherent
groups, their highest versions, and anchors that no package is declared below.
-/

namespace Folo.ReleasePlan

open Folo.Lib Std

namespace Proposal

/-- The evidence of a checked report. -/
structure Indexed (semver : SemverCrate) (p : Proposal) : Prop where
  coherent : p.groups.Coherent p.report.targetNames
  targets : ∀ n, p.versions.contains n = true ↔ n ∈ p.report.targetNames
  reported : ∀ g : Text, p.groups.byName[g]? = (p.report.groups[g]?).map (·.members)
  named : ∀ (g : Text) group, p.report.groups[g]? = some group → group.members.head? = some g
  highest : ∀ (g : Text) group, p.report.groups[g]? = some group →
    maxVersion semver (group.members.filterMap (p.versions[·]?)) = p.highest[g]?
  ungrouped : ∀ g : Text, p.report.groups[g]? = none → p.highest[g]? = none
  packages : ∀ (n : Text) package, p.packages[n]? = some package → p.versions.contains n = true
  anchored : ∀ (n : Text) a, p.anchors[n]? = some a → p.packages.contains n = true ∧
    ∃ d, p.versions[n]? = some d ∧ semver.compare d a ≠ .lt

end Proposal

namespace ReportFile

variable {semver : SemverCrate} {report : ReportFile}

/-- Every target has the version that it declares. -/
theorem getElem?_versionTargets (h : report.Valid semver) {versions : ExtTreeMap Text Version}
    (hversions : report.versionTargets semver = some versions) {entry : Text × Text}
    (hentry : entry ∈ report.declared) : versions[entry.1]? = semver.parse entry.2 := by
  have hfold : report.declared.foldlM (fun (m : ExtTreeMap Text Version) entry =>
      ((semver.parse entry.2).map some).map fun v => v.elim m fun v => m.insert entry.1 v) ∅ =
      some versions := by
    rw [← hversions]
    unfold versionTargets
    refine congrArg (List.foldlM · ∅ report.declared) (funext fun m => funext fun entry => ?_)
    cases semver.parse entry.2 <;> rfl
  obtain ⟨v, hv, hget⟩ := (getElem?_foldlM_insert h.distinct hfold).1 entry hentry
  obtain ⟨w, hw, rfl⟩ := Option.map_eq_some_iff.mp hv
  rw [hget, hw]
  rfl

theorem distinct_packages (h : report.Valid semver) :
    (report.packages.map (·.name)).Nodup := by
  have hdistinct := h.distinct
  unfold declared at hdistinct
  rw [List.map_append, List.map_map] at hdistinct
  exact hdistinct.of_append_left

theorem mem_declared {package : ReportPackage} (h : package ∈ report.packages) :
    (package.name, package.declaredVersion) ∈ report.declared :=
  List.mem_append_left _ (List.mem_map.mpr ⟨package, h, rfl⟩)

end ReportFile

namespace Proposal

variable {semver : SemverCrate} {report : ReportFile}

theorem exists_version {versions : ExtTreeMap Text Version}
    (hversions : report.versionTargets semver = some versions) (h : report.Valid semver) {g : Text}
    {group : ReportGroup} (hg : report.groups[g]? = some group) :
    ∀ m ∈ group.members, ∃ v, versions[m]? = some v := by
  intro m hm
  have hin := (ReportFile.contains_versionTargets hversions m).mpr (h.groups.targets g group hg m hm)
  exact Option.isSome_iff_exists.mp (ExtTreeMap.isSome_getElem?_eq_contains.trans hin)

theorem new_eq_some {p : Proposal} (h : Proposal.new semver report = some p) :
    p.report = report ∧ report.versionTargets semver = some p.versions ∧
      anchorsOf semver report.packages = some p.anchors ∧
      highestOf semver p.versions report.groups.toList = some p.highest ∧
      p.packages = report.packages.foldl (fun m package => m.insert package.name package) ∅ ∧
      p.groups = report.versionGroups := by
  unfold Proposal.new at h
  obtain ⟨versions, hversions, h⟩ := Option.bind_eq_some_iff.mp h
  obtain ⟨anchors, hanchors, h⟩ := Option.bind_eq_some_iff.mp h
  obtain ⟨highest, hhighest, h⟩ := Option.bind_eq_some_iff.mp h
  obtain rfl := Option.some.inj h
  exact ⟨rfl, hversions, hanchors, hhighest, rfl, rfl⟩

/-- The packages of a checked report by name. -/
theorem packages_spec (h : report.Valid semver) {packages : ExtTreeMap Text ReportPackage}
    (hpackages : packages =
      report.packages.foldl (fun m package => m.insert package.name package) ∅) :
    (∀ package ∈ report.packages, packages[package.name]? = some package) ∧
      ∀ (n : Text) package, packages[n]? = some package →
        package ∈ report.packages ∧ package.name = n := by
  have hfold : report.packages.foldlM (fun (m : ExtTreeMap Text ReportPackage) package =>
      (some (some package)).map fun v => v.elim m fun v => m.insert package.name v) ∅ =
      some packages := by
    rw [hpackages]
    exact List.foldlM_pure ..
  obtain ⟨hin, hout⟩ := getElem?_foldlM_insert (ReportFile.distinct_packages h) hfold
  have hall : ∀ package ∈ report.packages, packages[package.name]? = some package := by
    intro package hpackage
    obtain ⟨v, hv, hget⟩ := hin package hpackage
    obtain rfl := Option.some.inj hv
    exact hget
  refine ⟨hall, fun n package hn => ?_⟩
  by_cases hname : ∃ package ∈ report.packages, package.name = n
  · obtain ⟨other, hother, rfl⟩ := hname
    obtain rfl := Option.some.inj ((hall other hother).symm.trans hn)
    exact ⟨hother, rfl⟩
  · rw [hout n fun x hx heq => hname ⟨x, hx, heq⟩] at hn
    simp at hn

/-- Every anchor is that of a package. -/
theorem anchors_spec (h : report.Valid semver) {anchors : ExtTreeMap Text Version}
    (hanchors : anchorsOf semver report.packages = some anchors) {n : Text} {a : Version}
    (ha : anchors[n]? = some a) : ∃ package ∈ report.packages, package.name = n ∧
      ∃ anchor, package.anchor = some anchor ∧ semver.parse anchor.version = some a := by
  have hfold : report.packages.foldlM (fun (m : ExtTreeMap Text Version) package =>
      (package.anchor.elim (some none) fun anchor => (semver.parse anchor.version).map some).map
        fun v => v.elim m fun v => m.insert package.name v) ∅ = some anchors := by
    rw [← hanchors]
    refine congrArg (List.foldlM · ∅ report.packages) (funext fun m => funext fun package => ?_)
    cases package.anchor with
    | none => rfl
    | some anchor =>
      show ((semver.parse anchor.version).map some).map _ = (semver.parse anchor.version).map _
      rw [Option.map_map]
      rfl
  obtain ⟨hin, hout⟩ := getElem?_foldlM_insert (ReportFile.distinct_packages h) hfold
  by_cases hname : ∃ package ∈ report.packages, package.name = n
  · obtain ⟨package, hpackage, rfl⟩ := hname
    obtain ⟨v, hv, hget⟩ := hin package hpackage
    rw [ha] at hget
    refine ⟨package, hpackage, rfl, ?_⟩
    cases hanchor : package.anchor with
    | none =>
      rw [hanchor] at hv
      obtain rfl := Option.some.inj hv
      simp at hget
    | some anchor =>
      rw [hanchor] at hv
      obtain ⟨w, hw, rfl⟩ := Option.map_eq_some_iff.mp hv
      exact ⟨anchor, rfl, hw.trans hget.symm⟩
  · rw [hout n fun x hx heq => hname ⟨x, hx, heq⟩] at ha
    simp at ha

theorem highest_spec (h : report.Valid semver) {versions highest : ExtTreeMap Text Version}
    (hversions : report.versionTargets semver = some versions)
    (hhighest : highestOf semver versions report.groups.toList = some highest) (g : Text) :
    (∀ group, report.groups[g]? = some group →
      maxVersion semver (group.members.filterMap (versions[·]?)) = highest[g]?) ∧
      (report.groups[g]? = none → highest[g]? = none) := by
  have hfold : report.groups.toList.foldlM (fun (m : ExtTreeMap Text Version) group =>
      ((group.2.members.mapM (versions[·]?)).bind fun declared =>
        (maxVersion semver declared).map some).map
        fun v => v.elim m fun v => m.insert group.1 v) ∅ = some highest := by
    rw [← hhighest]
    refine congrArg (List.foldlM · ∅ report.groups.toList) (funext fun m => funext fun group => ?_)
    show _ = (group.2.members.mapM (versions[·]?)).bind fun declared =>
      (maxVersion semver declared).bind fun version => some (m.insert group.1 version)
    cases group.2.members.mapM (versions[·]?) with
    | none => rfl
    | some declared =>
      rw [Option.bind_some, Option.bind_some]
      cases maxVersion semver declared <;> rfl
  obtain ⟨hin, hout⟩ := getElem?_foldlM_insert (Iteration.sorted.nodup_keys report.groups) hfold
  constructor
  · intro group hg
    obtain ⟨v, hv, hget⟩ := hin (g, group) (Iteration.sorted.mem_entries.mpr hg)
    obtain ⟨declared, hdeclared, hv⟩ := Option.bind_eq_some_iff.mp hv
    rw [mapM_eq_some_filterMap (exists_version hversions h hg)] at hdeclared
    obtain rfl := Option.some.inj hdeclared
    obtain ⟨w, hw, rfl⟩ := Option.map_eq_some_iff.mp hv
    rw [hw, hget]
    rfl
  · intro hg
    rw [hout g fun group hgroup heq => ?_]
    · simp
    · have hgroup := (Iteration.sorted.mem_entries (k := group.1) (v := group.2)).mp hgroup
      rw [heq, hg] at hgroup
      nomatch hgroup

theorem indexed_of_new (h : report.Valid semver) {p : Proposal}
    (hp : Proposal.new semver report = some p) : p.Indexed semver := by
  obtain ⟨rfl, hversions, hanchors, hhighest, hpackages, hgroups⟩ := new_eq_some hp
  have hcontains := ReportFile.contains_versionTargets hversions
  obtain ⟨hall, honly⟩ := packages_spec h hpackages
  have hname : ∀ package ∈ p.report.packages, package.name ∈ p.report.targetNames := by
    intro package hpackage
    unfold ReportFile.targetNames
    rw [mem_treeSet]
    exact List.mem_map.mpr ⟨_, ReportFile.mem_declared hpackage, rfl⟩
  refine
    { coherent := hgroups ▸ coherent_versionGroups p.report
      targets := hcontains
      reported := fun g => hgroups ▸ ReportFile.byName_versionGroups h.groups g
      named := h.groups.named
      highest := fun g => (highest_spec h hversions hhighest g).1
      ungrouped := fun g => (highest_spec h hversions hhighest g).2
      packages := fun n package hn => ?_
      anchored := fun n a ha => ?_ }
  · obtain ⟨hpackage, rfl⟩ := honly n package hn
    exact (hcontains _).mpr (hname package hpackage)
  · obtain ⟨package, hpackage, rfl, anchor, hanchor, hparse⟩ := anchors_spec h hanchors ha
    obtain ⟨a', ha', hlt⟩ := h.anchored package hpackage anchor hanchor
    obtain rfl := Option.some.inj (hparse.symm.trans ha')
    obtain ⟨d, hd⟩ := h.parsed _ (ReportFile.mem_declared hpackage)
    refine ⟨?_, d, ?_, hlt d hd⟩
    · rw [← ExtTreeMap.isSome_getElem?_eq_contains, hall package hpackage]
      rfl
    · rw [ReportFile.getElem?_versionTargets h hversions (ReportFile.mem_declared hpackage)]
      exact hd

/-! ## The highest version under a key -/

/-- The highest version that is declared under a key. -/
def top (p : Proposal) (key : Text) : Option Version := (p.highest[key]?).or p.versions[key]?

variable {p : Proposal}

theorem exists_maxVersion_of_mem (semver : SemverCrate) {versions : List Version} {v : Version}
    (h : v ∈ versions) :
    ∃ best, maxVersion semver versions = some best := by
  cases versions with
  | nil => nomatch h
  | cons first rest => exact ⟨_, rfl⟩

/-- The groups of a proposal are those of its report. -/
theorem Indexed.exists_group (h : p.Indexed semver) {m g : Text}
    (hg : p.groups.groupOf m = some g) : ∃ group, p.report.groups[g]? = some group ∧
      p.groups.members g = group.members ∧ m ∈ group.members := by
  obtain ⟨hms, hin⟩ := Groups.members_eq_of_groupOf h.coherent hg
  rw [h.reported g] at hms
  obtain ⟨group, hgroup, hmembers⟩ := Option.map_eq_some_iff.mp hms
  exact ⟨group, hgroup, hmembers.symm, hmembers ▸ hin⟩

theorem Indexed.groupOf_member (h : p.Indexed semver) {g : Text} {group : ReportGroup}
    (hg : p.report.groups[g]? = some group) :
    p.groups.members g = group.members ∧ ∀ m ∈ group.members, p.groups.groupOf m = some g := by
  have hms : p.groups.byName[g]? = some group.members := by
    rw [h.reported g, hg]
    rfl
  refine ⟨?_, fun m hm => (Groups.closure_of_mem h.coherent hms hm).1⟩
  unfold Groups.members
  rw [hms]
  rfl

theorem Indexed.groups_none (h : p.Indexed semver) {m : Text} (hm : p.groups.groupOf m = none) :
    p.report.groups[m]? = none := by
  cases hg : p.report.groups[m]? with
  | none => rfl
  | some group =>
    have hin := (h.groupOf_member hg).2 m (List.mem_of_head? (h.named m group hg))
    rw [hm] at hin
    nomatch hin

theorem Indexed.top_spec (h : p.Indexed semver) {m : Text} {d : Version}
    (hm : p.versions[m]? = some d) : ∃ highest, p.top (p.decisionKey m) = some highest ∧
      (p.highest[p.decisionKey m]?).getD d = highest ∧
      maxVersion semver ((p.groups.closure m).filterMap (p.versions[·]?)) = some highest := by
  unfold top decisionKey Groups.closure
  cases hg : p.groups.groupOf m with
  | some g =>
    obtain ⟨group, hgroup, hmembers, hin⟩ := h.exists_group hg
    obtain ⟨best, hbest⟩ :=
      exists_maxVersion_of_mem semver (List.mem_filterMap.mpr ⟨m, hin, hm⟩)
    have hhighest : p.highest[g]? = some best := (h.highest g group hgroup).symm.trans hbest
    refine ⟨best, ?_, ?_, ?_⟩
    · rw [Option.getD_some, hhighest]
      rfl
    · rw [Option.getD_some, hhighest]
      rfl
    · dsimp only
      rw [hmembers]
      exact hbest
  | none =>
    have hnone := h.ungrouped m (h.groups_none hg)
    refine ⟨d, ?_, ?_, ?_⟩
    · rw [Option.getD_none, hnone, Option.none_or]
      exact hm
    · rw [Option.getD_none, hnone]
      rfl
    · show maxVersion semver (([m] : List Text).filterMap (p.versions[·]?)) = some d
      rw [List.filterMap_cons, hm]
      rfl

/-- No package is declared above the highest version of its key. -/
theorem Indexed.isLE_top (h : p.Indexed semver) (hsemver : semver.Ordered) {m : Text}
    {d highest : Version} (hm : p.versions[m]? = some d)
    (htop : p.top (p.decisionKey m) = some highest) : (semver.compare d highest).isLE := by
  obtain ⟨best, hbest, -, hmax⟩ := h.top_spec hm
  obtain rfl := Option.some.inj (htop.symm.trans hbest)
  have hin := (h.targets m).mp
    (ExtTreeMap.isSome_getElem?_eq_contains.symm.trans (congrArg Option.isSome hm))
  exact (maxVersion_spec hsemver hmax).2 d
    (List.mem_filterMap.mpr ⟨m, Groups.self_mem_closure h.coherent hin, hm⟩)

end Proposal

end Folo.ReleasePlan
