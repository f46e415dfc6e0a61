import Folo.ReleasePlan.Components
import Mathlib.Data.Char
import Mathlib.Data.List.Lex

/-!
# Version groups are connected components

`from_edges` derives, from any targets and any edges, the connected components
of two targets or more, by their least members (`byName_iff`); so the order,
the direction and the number of the edges do not matter, nor do edges to what
is no target (`fromEdges_congr`). A report states its groups twice, as lists of
members and as references from the members. If the report passes its checks,
`version_groups` finds the groups and the references that it states.
-/

namespace Folo.ReleasePlan

open Folo.Lib Std Relation

/-! ## Components of the targets -/

/-- Two targets that an edge joins. -/
def Coupled (targets : List Text) (edges : List (Text × Text)) (a b : Text) : Prop :=
  a ∈ targets ∧ b ∈ targets ∧ ((a, b) ∈ edges ∨ (b, a) ∈ edges)

/-- Two packages in one component. -/
def Connected (targets : List Text) (edges : List (Text × Text)) : Text → Text → Prop :=
  ReflTransGen (Coupled targets edges)

/-- `ms` is a component of more than one target, and `g` its least member. -/
structure IsGroup (targets : List Text) (edges : List (Text × Text)) (g : Text)
    (ms : List Text) : Prop where
  component : ∀ p, p ∈ ms ↔ Connected targets edges g p
  sorted : ms.Pairwise (· < ·)
  least : ∀ p ∈ ms, g ≤ p
  several : 2 ≤ ms.length

variable {targets : List Text} {edges : List (Text × Text)}

namespace Connected

theorem symm {p q : Text} (h : Connected targets edges p q) : Connected targets edges q p := by
  have hsymmetric : ∀ a b, Coupled targets edges a b → Coupled targets edges b a :=
    fun a b hab => ⟨hab.2.1, hab.1, hab.2.2.symm⟩
  induction h with
  | refl => exact .refl
  | tail _ hstep ih => exact .head (hsymmetric _ _ hstep) ih

/-- What is connected to a target is one. -/
theorem target {p q : Text} (h : Connected targets edges p q) (hp : p ∈ targets) :
    q ∈ targets := by
  cases h with
  | refl => exact hp
  | tail _ hstep => exact hstep.2.1

/-- A package by itself is no target, or has no edge to another one. -/
theorem target_of_ne {p q : Text} (h : Connected targets edges p q) (hne : q ≠ p) :
    p ∈ targets := by
  rcases h.cases_head with heq | ⟨c, hstep, -⟩
  · exact absurd heq.symm hne
  · exact hstep.1

/-- The way goes along the neighbours that `from_edges` visits. -/
theorem neighbors {p q : Text} (h : Connected targets edges p q) :
    ReflTransGen (fun a b => b ∈ Groups.neighbors targets edges a) p q := by
  induction h with
  | refl => exact .refl
  | @tail a b _ hstep ih =>
    by_cases heq : b = a
    · exact heq ▸ ih
    · exact ih.tail (Groups.mem_neighbors.mpr ⟨hstep.2.1, heq, hstep.2.2⟩)

end Connected

/-- Some package that a package is connected to, the same for all of them. -/
noncomputable def representative (targets : List Text) (edges : List (Text × Text))
    (p : Text) : Text :=
  Classical.epsilon (Connected targets edges p)

theorem representative_eq_iff {p q : Text} :
    representative targets edges q = representative targets edges p ↔
      Connected targets edges p q := by
  have hspec : ∀ p, Connected targets edges p (representative targets edges p) :=
    fun p => Classical.epsilon_spec ⟨p, .refl⟩
  constructor
  · intro heq
    have hsecond := hspec q
    rw [heq] at hsecond
    exact (hspec p).trans hsecond.symm
  · intro h
    have hsame : Connected targets edges q = Connected targets edges p :=
      funext fun r => propext ⟨fun hr => h.trans hr, fun hr => h.symm.trans hr⟩
    rw [representative, hsame, representative]

namespace IsGroup

/-- The least member of an ordered list is its first one. -/
theorem head {g : Text} {ms : List Text} (h : IsGroup targets edges g ms) :
    ms.head? = some g := by
  have hin : g ∈ ms := (h.component g).mpr .refl
  cases ms with
  | nil => nomatch hin
  | cons first rest =>
    rcases List.mem_cons.mp hin with rfl | hin
    · rfl
    · have hlt := (List.pairwise_cons.mp h.sorted).1 g hin
      exact absurd (h.least first (List.mem_cons_self ..)) (Std.not_le_of_gt hlt)

theorem target {g : Text} {ms : List Text} (h : IsGroup targets edges g ms) : g ∈ targets := by
  obtain ⟨first, second, rest, rfl⟩ : ∃ first second rest, ms = first :: second :: rest := by
    match ms, h.several with
    | first :: second :: rest, _ => exact ⟨first, second, rest, rfl⟩
  obtain rfl := Option.some.inj h.head
  have hlt := (List.pairwise_cons.mp h.sorted).1 second (List.mem_cons_self ..)
  exact ((h.component second).mp (List.mem_cons_of_mem _ (List.mem_cons_self ..))).target_of_ne
    fun heq => Std.lt_irrefl (heq ▸ hlt)

/-- Only the targets and which of them are coupled matter. -/
theorem congr {targets' : List Text} {edges' : List (Text × Text)}
    (hcoupled : ∀ a b, a ≠ b → (Coupled targets' edges' a b ↔ Coupled targets edges a b))
    {g : Text} {ms : List Text} (h : IsGroup targets edges g ms) :
    IsGroup targets' edges' g ms := by
  refine ⟨fun p => (h.component p).trans ?_, h.sorted, h.least, h.several⟩
  -- an edge from a package to itself connects nothing
  have hsteps : ∀ {ts ts' : List Text} {es es' : List (Text × Text)},
      (∀ a b, a ≠ b → Coupled ts es a b → Coupled ts' es' a b) →
      Connected ts es g p → Connected ts' es' g p := by
    intro ts ts' es es' hmono hconnected
    induction hconnected with
    | refl => exact .refl
    | @tail a b _ hstep ih =>
      by_cases heq : a = b
      · exact heq ▸ ih
      · exact ih.tail (hmono a b heq hstep)
  exact ⟨hsteps fun a b hne => (hcoupled a b hne).mpr, hsteps fun a b hne => (hcoupled a b hne).mp⟩

end IsGroup

namespace Groups

theorem mem_component {p : Text} (hp : p ∈ targets) (q : Text) :
    q ∈ classOf targets (representative targets edges) p ↔ Connected targets edges p q := by
  rw [mem_classOf, representative_eq_iff]
  exact ⟨And.right, fun hq => ⟨hq.target hp, hq⟩⟩

theorem byName_iff (hnodup : targets.Nodup) (g : Text) (ms : List Text) :
    (fromEdges targets edges).byName[g]? = some ms ↔ IsGroup targets edges g ms := by
  have hwithin : ∀ {p q}, p ∈ targets → q ∈ neighbors targets edges p →
      q ∈ targets ∧ Connected targets edges p q := by
    intro p q hp hq
    obtain ⟨hq, -, hedge⟩ := mem_neighbors.mp hq
    exact ⟨hq, .single ⟨hp, hq, hedge⟩⟩
  rw [byName_fromEdges hnodup (representative targets edges)
    (fun p hp q hq => representative_eq_iff.mpr (hwithin hp hq).2)
    fun p hp q hq heq => (representative_eq_iff.mp heq).neighbors]
  constructor
  · rintro ⟨hg, rfl, hhead, hlength⟩
    refine ⟨mem_component hg, strict_treeSet _, fun p hp => ?_, hlength⟩
    have hsorted : (classOf targets (representative targets edges) g).Pairwise (· < ·) :=
      strict_treeSet _
    obtain ⟨rest, hrest⟩ := List.head?_eq_some_iff.mp hhead
    rw [hrest] at hp hsorted
    rcases List.mem_cons.mp hp with rfl | hp
    · exact Std.le_refl p
    · exact Std.le_of_lt ((List.pairwise_cons.mp hsorted).1 p hp)
  · intro h
    refine ⟨h.target, ?_, h.head, h.several⟩
    refine eq_of_strict_of_mem h.sorted (strict_treeSet _) fun p => ?_
    exact (h.component p).trans (mem_component h.target p).symm

theorem byPackage_iff (hnodup : targets.Nodup) (p g : Text) :
    (fromEdges targets edges).byPackage[p]? = some g ↔
      ∃ ms, IsGroup targets edges g ms ∧ p ∈ ms := by
  refine ((coherent_fromEdges hnodup edges).member p g).trans ?_
  simp only [byName_iff hnodup]

/-- The groups are those of the coupled targets, however they are listed. -/
theorem fromEdges_congr {targets' : List Text} {edges' : List (Text × Text)}
    (hnodup : targets.Nodup) (hnodup' : targets'.Nodup)
    (hcoupled : ∀ a b, a ≠ b → (Coupled targets' edges' a b ↔ Coupled targets edges a b)) :
    fromEdges targets' edges' = fromEdges targets edges := by
  have hgroup : ∀ g ms, IsGroup targets' edges' g ms ↔ IsGroup targets edges g ms :=
    fun g ms => ⟨.congr fun a b hne => (hcoupled a b hne).symm, .congr hcoupled⟩
  have hname : (fromEdges targets' edges').byName = (fromEdges targets edges).byName := by
    refine ExtTreeMap.ext_getElem? fun g => Option.ext fun ms => ?_
    rw [byName_iff hnodup', byName_iff hnodup, hgroup]
  have hpackage : (fromEdges targets' edges').byPackage = (fromEdges targets edges).byPackage := by
    refine ExtTreeMap.ext_getElem? fun p => Option.ext fun g => ?_
    rw [byPackage_iff hnodup', byPackage_iff hnodup]
    simp only [hgroup]
  calc fromEdges targets' edges'
      = ⟨(fromEdges targets' edges').byName, (fromEdges targets' edges').byPackage⟩ := rfl
    _ = fromEdges targets edges := by rw [hname, hpackage]

end Groups

/-! ## Groups of a report -/

namespace ReportFile

variable {semver : SemverCrate} {report : ReportFile}

/-- A target of a checked report is in the group that it refers to. -/
theorem groupOf_versionGroups (h : report.validate semver = .ok ())
    {target : ReportVersionTarget} (htarget : target ∈ report.targets) :
    report.versionGroups.groupOf target.name = target.group := by
  have hgroups := (valid_of_validate h).groups
  refine Option.ext fun g => ?_
  rw [(coherent_versionGroups report).member, reference_of_validate h htarget]
  simp only [byName_versionGroups hgroups, Option.map_eq_some_iff]
  constructor
  · rintro ⟨ms, ⟨group, hgroup, rfl⟩, hin⟩
    exact ⟨group, hgroup, hin⟩
  · rintro ⟨group, hgroup, hin⟩
    exact ⟨group.members, ⟨group, hgroup, rfl⟩, hin⟩

theorem groupOf_eq_none {p : Text} (hp : p ∉ report.targetNames) :
    report.versionGroups.groupOf p = none := by
  have hcoherent := coherent_versionGroups report
  cases hgroup : report.versionGroups.groupOf p with
  | none => rfl
  | some g =>
    obtain ⟨ms, hms, hin⟩ := (hcoherent.member p g).mp hgroup
    exact absurd ((hcoherent.named g ms hms).2 hin) hp

end ReportFile

/-- **Version groups are connected components**, and a checked report states
the ones that are derived from it. -/
theorem version_groups_components (targets : List Text) (edges : List (Text × Text)) :
    (∀ (g : Text) ms, (Groups.fromEdges (treeSet targets) edges).byName[g]? = some ms ↔
      IsGroup targets edges g ms) ∧
    (∀ p g : Text, (Groups.fromEdges (treeSet targets) edges).byPackage[p]? = some g ↔
      ∃ ms, IsGroup targets edges g ms ∧ p ∈ ms) ∧
    (∀ targets' edges', (∀ t, t ∈ targets' ↔ t ∈ targets) →
      (∀ a ∈ targets, ∀ b ∈ targets, a ≠ b →
        ((a, b) ∈ edges' ∨ (b, a) ∈ edges' ↔ (a, b) ∈ edges ∨ (b, a) ∈ edges)) →
      Groups.fromEdges (treeSet targets') edges' = Groups.fromEdges (treeSet targets) edges) ∧
    ∀ (semver : SemverCrate) (report : ReportFile), report.validate semver = .ok () →
      (∀ g : Text, report.versionGroups.byName[g]? = (report.groups[g]?).map (·.members)) ∧
      (∀ target ∈ report.targets, report.versionGroups.groupOf target.name = target.group) ∧
      ∀ p, p ∉ report.targetNames → report.versionGroups.groupOf p = none := by
  have hset : ∀ a b, Coupled (treeSet targets) edges a b ↔ Coupled targets edges a b := by
    intro a b
    unfold Coupled
    rw [mem_treeSet, mem_treeSet]
  have hgroup : ∀ g ms, IsGroup (treeSet targets) edges g ms ↔ IsGroup targets edges g ms :=
    fun g ms => ⟨.congr fun a b _ => (hset a b).symm, .congr fun a b _ => hset a b⟩
  refine ⟨fun g ms => ?_, fun p g => ?_, fun targets' edges' htargets hedges => ?_,
    fun semver report h => ⟨fun g => ?_, fun target htarget => ?_, fun p hp => ?_⟩⟩
  · rw [Groups.byName_iff (nodup_treeSet _), hgroup]
  · rw [Groups.byPackage_iff (nodup_treeSet _)]
    simp only [hgroup]
  · refine Groups.fromEdges_congr (nodup_treeSet _) (nodup_treeSet _) fun a b hne => ?_
    rw [hset a b]
    unfold Coupled
    rw [mem_treeSet, mem_treeSet, htargets, htargets]
    exact and_congr_right fun ha => and_congr_right fun hb => hedges a ha b hb hne
  · exact report.byName_versionGroups (ReportFile.valid_of_validate h).groups g
  · exact ReportFile.groupOf_versionGroups h htarget
  · exact ReportFile.groupOf_eq_none hp

/-- An edge that is turned around, one that is repeated and one to a package
that is no target; and a report of two packages in a group. -/
theorem version_groups_components_pairs :
    Groups.fromEdges (treeSet ["c".toList, "b".toList, "a".toList])
        [("b".toList, "a".toList), ("a".toList, "b".toList), ("b".toList, "x".toList)] =
      Groups.fromEdges (treeSet ["a".toList, "b".toList, "c".toList])
        [("a".toList, "b".toList)] ∧
    ∀ target ∈ groupedReport.targets,
      groupedReport.versionGroups.groupOf target.name = target.group := by
  obtain ⟨-, -, hcongr, hreport⟩ := version_groups_components
    ["a".toList, "b".toList, "c".toList] [("a".toList, "b".toList)]
  refine ⟨hcongr _ _ (fun t => ?_) (by decide), (hreport semverText groupedReport rfl).2.1⟩
  simp only [List.mem_cons, List.not_mem_nil, or_false]
  tauto

end Folo.ReleasePlan
