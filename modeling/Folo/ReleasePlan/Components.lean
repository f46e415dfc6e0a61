import Folo.Lib.Texts
import Folo.Lib.Worklist
import Folo.ReleasePlan.ReportChecks
import Mathlib.Data.Char
import Mathlib.Data.List.Lex

/-!
# The groups of a report are the ones that it names

`from_edges` finds the connected components (`byName_fromEdges`). The edges of
a report go from the name of a group to its members, so that for a valid report
the derived groups are the reported ones (`byName_versionGroups`).
-/

namespace Folo.ReleasePlan

open Folo.Lib Std Relation

namespace Groups

variable {neighbors : Text → List Text} {targets : List Text}

theorem mem_neighbors {edges : List (Text × Text)} {a b : Text} :
    b ∈ Groups.neighbors targets edges a ↔
      b ∈ targets ∧ b ≠ a ∧ ((a, b) ∈ edges ∨ (b, a) ∈ edges) := by
  unfold Groups.neighbors
  rw [List.mem_filter, Bool.and_eq_true, decide_eq_true_eq, List.any_eq_true]
  refine and_congr_right fun _ => and_congr_right fun _ => ?_
  constructor
  · rintro ⟨edge, hedge, h⟩
    rw [Bool.or_eq_true, decide_eq_true_eq, decide_eq_true_eq] at h
    rcases h with rfl | rfl
    · exact .inl hedge
    · exact .inr hedge
  · rintro (h | h)
    · exact ⟨_, h, by simp⟩
    · exact ⟨_, h, by simp⟩

/-- What is reached holds what was pending and, with a package that was not a
member before, its neighbours that were not visited; what was not visited is
reached or left. With enough rounds nothing stays pending. -/
theorem explore_spec (hneighbors : ∀ p, (neighbors p).Nodup) (rounds : Nat)
    (pending unvisited members : List Text) (hnodup : unvisited.Nodup)
    (hrounds : pending.length + unvisited.length ≤ rounds) :
    (∀ x, x ∈ pending ∨ x ∈ members →
      x ∈ (explore neighbors rounds pending unvisited members).1) ∧
    (∀ x ∈ (explore neighbors rounds pending unvisited members).1, x ∈ members ∨
      ∀ y ∈ neighbors x, y ∈ unvisited →
        y ∈ (explore neighbors rounds pending unvisited members).1) ∧
    ∀ x ∈ unvisited, x ∈ (explore neighbors rounds pending unvisited members).1 ∨
      x ∈ (explore neighbors rounds pending unvisited members).2 := by
  induction rounds generalizing pending unvisited members with
  | zero =>
    obtain rfl := List.length_eq_zero_iff.mp (show pending.length = 0 by omega)
    exact ⟨fun x hx => hx.resolve_left List.not_mem_nil, fun x hx => .inl hx, fun x hx => .inr hx⟩
  | succ rounds ih =>
    cases pending with
    | nil =>
      exact ⟨fun x hx => hx.resolve_left List.not_mem_nil, fun x hx => .inl hx, fun x hx => .inr hx⟩
    | cons member pending =>
      unfold explore
      dsimp only
      have hreached : ∀ x, x ∈ (neighbors member).filter unvisited.contains ↔
          x ∈ neighbors member ∧ x ∈ unvisited := by
        intro x
        rw [List.mem_filter, List.contains_iff_mem]
      have hsplit : ((neighbors member).filter unvisited.contains).length +
          (unvisited.filter fun package =>
            !((neighbors member).filter unvisited.contains).contains package).length ≤
          unvisited.length := by
        have hall := List.length_eq_length_filter_add (l := unvisited)
          fun package => ((neighbors member).filter unvisited.contains).contains package
        have hle : ((neighbors member).filter unvisited.contains).length ≤
            (unvisited.filter fun package =>
              ((neighbors member).filter unvisited.contains).contains package).length := by
          refine (((hneighbors member).filter _).subperm fun x hx => ?_).length_le
          exact List.mem_filter.mpr ⟨((hreached x).mp hx).2, List.contains_iff_mem.mpr hx⟩
        omega
      generalize hreachedEq : (neighbors member).filter unvisited.contains = reached at *
      obtain ⟨hstart, hclosed, hrest⟩ := ih (reached.reverse ++ pending)
        (unvisited.filter fun package => !reached.contains package) (member :: members)
        (hnodup.filter _) (by
          rw [List.length_cons] at hrounds
          rw [List.length_append, List.length_reverse]
          omega)
      generalize explore neighbors rounds (reached.reverse ++ pending)
        (unvisited.filter fun package => !reached.contains package) (member :: members) =
        found at *
      have hfound : ∀ x ∈ reached, x ∈ found.1 := fun x hx =>
        hstart x (.inl (List.mem_append_left _ (List.mem_reverse.mpr hx)))
      have hleft : ∀ x ∈ unvisited, x ∈ reached ∨
          x ∈ unvisited.filter fun package => !reached.contains package := by
        intro x hx
        by_cases hin : x ∈ reached
        · exact .inl hin
        · exact .inr (List.mem_filter.mpr ⟨hx, by simpa using hin⟩)
      refine ⟨fun x hx => ?_, fun x hx => ?_, fun x hx => ?_⟩
      · rcases hx with hx | hx
        · rcases List.mem_cons.mp hx with rfl | hx
          · exact hstart x (.inr (List.mem_cons_self ..))
          · exact hstart x (.inl (List.mem_append_right _ hx))
        · exact hstart x (.inr (List.mem_cons_of_mem _ hx))
      · rcases hclosed x hx with hin | hclosed
        · rcases List.mem_cons.mp hin with rfl | hin
          · -- the neighbours of the package itself are pending now
            refine .inr fun y hy hyu => hfound y ((hreached y).mpr ⟨hy, hyu⟩)
          · exact .inl hin
        · refine .inr fun y hy hyu => ?_
          rcases hleft y hyu with hin | hin
          · exact hfound y hin
          · exact hclosed y hy hin
      · rcases hleft x hx with hin | hin
        · exact .inl (hfound x hin)
        · exact hrest x hin

/-- Only what a closed set holds is reached from it. -/
theorem explore_invariant {S : Text → Prop} (hclosed : ∀ a, S a → ∀ b ∈ neighbors a, S b)
    (rounds : Nat) {pending unvisited members : List Text} (hpending : ∀ x ∈ pending, S x)
    (hmembers : ∀ x ∈ members, S x) :
    ∀ x ∈ (explore neighbors rounds pending unvisited members).1, S x := by
  induction rounds generalizing pending unvisited members with
  | zero => exact hmembers
  | succ rounds ih =>
    cases pending with
    | nil => exact hmembers
    | cons member pending =>
      obtain ⟨hmember, hpending⟩ := List.forall_mem_cons.mp hpending
      unfold explore
      refine ih (fun x hx => ?_) (List.forall_mem_cons.mpr ⟨hmember, hmembers⟩)
      rcases List.mem_append.mp hx with hx | hx
      · exact hclosed member hmember x (List.mem_filter.mp (List.mem_reverse.mp hx)).1
      · exact hpending x hx

/-- What is reached from the first of the unvisited packages is its class. -/
theorem mem_explore_iff (hneighbors : ∀ p, (neighbors p).Nodup)
    (hwithin : ∀ p, neighbors p ⊆ targets) {cls : Text → Text}
    (hsame : ∀ p ∈ targets, ∀ q ∈ neighbors p, cls q = cls p)
    (hjoined : ∀ p ∈ targets, ∀ q ∈ targets, cls q = cls p →
      ReflTransGen (fun a b => b ∈ neighbors a) p q)
    {first : Text} {unvisited : List Text} (hsub : first :: unvisited ⊆ targets)
    (hnodup : unvisited.Nodup)
    (hwhole : ∀ q ∈ targets, cls q = cls first → q ∈ first :: unvisited)
    (x : Text) :
    x ∈ (explore neighbors (unvisited.length + 1) [first] unvisited []).1 ↔
      x ∈ targets ∧ cls x = cls first := by
  obtain ⟨hstart, hclosed, -⟩ := explore_spec hneighbors (unvisited.length + 1) [first]
    unvisited [] hnodup (by rw [List.length_singleton]; omega)
  have hfirst : first ∈ (explore neighbors (unvisited.length + 1) [first] unvisited []).1 :=
    hstart first (.inl (List.mem_cons_self ..))
  constructor
  · intro hx
    exact explore_invariant (S := fun x => x ∈ targets ∧ cls x = cls first)
      (fun a ha b hb => ⟨hwithin a hb, (hsame a ha.1 b hb).trans ha.2⟩) _
      (fun x hx => by rw [List.mem_singleton.mp hx]; exact ⟨hsub (List.mem_cons_self ..), rfl⟩)
      (fun x hx => absurd hx List.not_mem_nil) x hx
  · rintro ⟨hx, hcls⟩
    -- a way from the first one stays in the class, which is not visited
    refine (mem_of_reflTransGen (S := fun a => (a ∈ targets ∧ cls a = cls first) ∧
      a ∈ (explore neighbors (unvisited.length + 1) [first] unvisited []).1) ?_
      ⟨⟨hsub (List.mem_cons_self ..), rfl⟩, hfirst⟩
      (hjoined first (hsub (List.mem_cons_self ..)) x hx hcls)).2
    intro a b ha hb
    have hcls : cls b = cls first := (hsame a ha.1.1 b hb).trans ha.1.2
    refine ⟨⟨hwithin a hb, hcls⟩, ?_⟩
    rcases List.mem_cons.mp (hwhole b (hwithin a hb) hcls) with rfl | hunvisited
    · exact hfirst
    · rcases hclosed a ha.2 with hmember | hclosed
      · nomatch hmember
      · exact hclosed b hb hunvisited

/-- The packages of a class. -/
def classOf (targets : List Text) (cls : Text → Text) (p : Text) : List Text :=
  treeSet (targets.filter fun q => cls q = cls p)

theorem mem_classOf {cls : Text → Text} {p q : Text} :
    q ∈ classOf targets cls p ↔ q ∈ targets ∧ cls q = cls p := by
  unfold classOf
  rw [mem_treeSet, List.mem_filter, decide_eq_true_eq]

/-- The groups so far are the classes of what was visited, by their first members. -/
def Classified (groups : Groups) (targets : List Text) (cls : Text → Text)
    (unvisited : List Text) : Prop :=
  ∀ (g : Text) ms, groups.byName[g]? = some ms ↔ g ∈ targets ∧ g ∉ unvisited ∧
    ms = classOf targets cls g ∧ ms.head? = some g ∧ 2 ≤ ms.length

theorem classified_addComponent {groups : Groups} {cls : Text → Text} {first : Text}
    {unvisited rest : List Text} (h : groups.Classified targets cls unvisited)
    (hrest : ∀ x, x ∈ rest ↔ x ∈ unvisited ∧ cls x ≠ cls first) :
    (groups.addComponent (classOf targets cls first)).Classified targets cls rest := by
  -- what is new are the packages of the class
  have hclass : ∀ g ∈ targets, g ∉ rest ↔ g ∉ unvisited ∨ cls g = cls first := by
    intro g hg
    rw [hrest]
    tauto
  have hsame : ∀ g, cls g = cls first → classOf targets cls g = classOf targets cls first := by
    intro g hg
    unfold classOf
    rw [hg]
  unfold addComponent
  split
  next key second others heq =>
    have hkey : key ∈ targets ∧ cls key = cls first :=
      mem_classOf.mp (heq ▸ List.mem_cons_self ..)
    intro g ms
    rw [getElem?_insert]
    by_cases hg : key = g
    · subst hg
      rw [if_pos rfl, hsame key hkey.2]
      constructor
      · intro hms
        obtain rfl := Option.some.inj hms
        refine ⟨hkey.1, (hclass key hkey.1).mpr (.inr hkey.2), rfl, by rw [heq]; rfl, ?_⟩
        rw [heq, List.length_cons, List.length_cons]
        omega
      · rintro ⟨-, -, rfl, -⟩
        rfl
    · rw [if_neg hg, h g ms]
      constructor
      · rintro ⟨hgt, hnot, hrest⟩
        exact ⟨hgt, (hclass g hgt).mpr (.inl hnot), hrest⟩
      · rintro ⟨hgt, hnot, rfl, hhead, hlength⟩
        refine ⟨hgt, ?_, rfl, hhead, hlength⟩
        refine ((hclass g hgt).mp hnot).resolve_right fun hcls => hg ?_
        rw [hsame g hcls, heq] at hhead
        exact Option.some.inj hhead
  next hsmall =>
    intro g ms
    rw [h g ms]
    constructor
    · rintro ⟨hgt, hnot, hrest⟩
      exact ⟨hgt, (hclass g hgt).mpr (.inl hnot), hrest⟩
    · rintro ⟨hgt, hnot, rfl, hhead, hlength⟩
      refine ⟨hgt, ?_, rfl, hhead, hlength⟩
      refine ((hclass g hgt).mp hnot).resolve_right fun hcls => ?_
      -- a class of one package is no group
      rw [hsame g hcls] at hlength
      cases hms : classOf targets cls first with
      | nil =>
        rw [hms] at hlength
        nomatch hlength
      | cons key others =>
        cases others with
        | nil =>
          rw [hms, List.length_singleton] at hlength
          omega
        | cons second others => exact hsmall key second others hms

theorem classified_components (hneighbors : ∀ p, (neighbors p).Nodup)
    (hwithin : ∀ p, neighbors p ⊆ targets) {cls : Text → Text}
    (hsame : ∀ p ∈ targets, ∀ q ∈ neighbors p, cls q = cls p)
    (hjoined : ∀ p ∈ targets, ∀ q ∈ targets, cls q = cls p →
      ReflTransGen (fun a b => b ∈ neighbors a) p q)
    {rounds : Nat} {unvisited : List Text} {groups : Groups} (hsub : unvisited ⊆ targets)
    (hnodup : unvisited.Nodup) (hrounds : unvisited.length ≤ rounds)
    (hwhole : ∀ p ∈ unvisited, ∀ q ∈ targets, cls q = cls p → q ∈ unvisited)
    (h : groups.Classified targets cls unvisited) :
    (components neighbors rounds unvisited groups).Classified targets cls [] := by
  induction rounds generalizing unvisited groups with
  | zero =>
    obtain rfl := List.length_eq_zero_iff.mp (show unvisited.length = 0 by omega)
    exact h
  | succ rounds ih =>
    cases unvisited with
    | nil => exact h
    | cons first unvisited =>
      unfold components
      dsimp only
      obtain ⟨hfirst, hnodup⟩ := List.nodup_cons.mp hnodup
      have hfirstWhole := hwhole first (List.mem_cons_self ..)
      have hmem := mem_explore_iff hneighbors hwithin hsame hjoined hsub hnodup hfirstWhole
      obtain ⟨-, -, hrest⟩ := explore_spec hneighbors (unvisited.length + 1) [first]
        unvisited [] hnodup (by rw [List.length_singleton]; omega)
      have hreached := (explore_subset neighbors (unvisited.length + 1) [first] unvisited []).2
      have hdisjoint := explore_disjoint neighbors (unvisited.length + 1) [first] unvisited []
        (fun x hx => List.mem_singleton.mp hx ▸ hfirst) (by rintro _ ⟨⟩)
      have hsublist := explore_sublist neighbors (unvisited.length + 1) [first] unvisited []
      generalize explore neighbors (unvisited.length + 1) [first] unvisited [] = found at *
      have hleft : ∀ x, x ∈ found.2 ↔ x ∈ first :: unvisited ∧ cls x ≠ cls first := by
        intro x
        constructor
        · intro hx
          refine ⟨List.mem_cons_of_mem _ (hreached x hx), fun hcls => ?_⟩
          exact hdisjoint x ((hmem x).mpr ⟨hsub (List.mem_cons_of_mem _ (hreached x hx)), hcls⟩) hx
        · rintro ⟨hx, hcls⟩
          rcases List.mem_cons.mp hx with rfl | hx
          · exact absurd rfl hcls
          · exact (hrest x hx).resolve_left fun hin => hcls ((hmem x).mp hin).2
      have hcomponent : (found.1.insertionSort (· ≤ ·)).destutter (· ≠ ·) =
          classOf targets cls first := by
        refine treeSet_congr fun x => ?_
        rw [hmem, List.mem_filter, decide_eq_true_eq]
      rw [hcomponent]
      refine ih (fun x hx => hsub ((hleft x).mp hx).1) (hnodup.sublist hsublist) ?_ ?_
        (classified_addComponent h hleft)
      · have hle := hsublist.length_le
        rw [List.length_cons] at hrounds
        omega
      · intro p hp q hq hcls
        obtain ⟨hp, hne⟩ := (hleft p).mp hp
        exact (hleft q).mpr ⟨hwhole p hp q hq hcls, fun heq => hne (hcls.symm.trans heq)⟩

/-- The groups of a graph whose connected parts are the classes of a function. -/
theorem byName_fromEdges {edges : List (Text × Text)} (hnodup : targets.Nodup)
    (cls : Text → Text)
    (hsame : ∀ p ∈ targets, ∀ q ∈ Groups.neighbors targets edges p, cls q = cls p)
    (hjoined : ∀ p ∈ targets, ∀ q ∈ targets, cls q = cls p →
      ReflTransGen (fun a b => b ∈ Groups.neighbors targets edges a) p q) (g : Text)
    (ms : List Text) :
    (fromEdges targets edges).byName[g]? = some ms ↔ g ∈ targets ∧ ms = classOf targets cls g ∧
      ms.head? = some g ∧ 2 ≤ ms.length := by
  have hclassified : (fromEdges targets edges).Classified targets cls [] := by
    have hneighbors : ∀ p, (Groups.neighbors targets edges p).Nodup := fun p => hnodup.filter _
    have hwithin : ∀ p, Groups.neighbors targets edges p ⊆ targets := fun p =>
      List.filter_subset_self ..
    refine classified_components hneighbors hwithin hsame hjoined (List.Subset.refl _) hnodup
      (Nat.le_refl _) (fun p hp q hq _ => hq) fun g ms => ?_
    refine ⟨fun h => ?_, fun h => absurd h.1 h.2.1⟩
    simp at h
  rw [hclassified g ms]
  simp

end Groups

namespace ReportFile

/-- The group of a report that has a member, or the package by itself. -/
def groupName (report : ReportFile) (p : Text) : Text :=
  ((report.groups.toList.find? fun group => decide (p ∈ group.2.members)).map (·.1)).getD p

variable {report : ReportFile}

theorem groupName_of_mem (h : report.GroupsValid) {g : Text} {group : ReportGroup}
    (hg : report.groups[g]? = some group) {p : Text} (hp : p ∈ group.members) :
    report.groupName p = g := by
  unfold groupName
  cases hfind : report.groups.toList.find? fun group => decide (p ∈ group.2.members) with
  | none =>
    have hnone := List.find?_eq_none.mp hfind (g, group) (Iteration.sorted.mem_entries.mpr hg)
    exact absurd (decide_eq_true hp) hnone
  | some found =>
    have hin := List.find?_some hfind
    have hfound := Iteration.sorted.mem_entries.mp (List.mem_of_find?_eq_some hfind)
    exact h.disjoint found.1 g found.2 group hfound hg p (of_decide_eq_true hin) hp

/-- A package is by itself, or a member of the group that it is in. -/
theorem groupName_cases (report : ReportFile) (p : Text) : report.groupName p = p ∧
      (∀ (g : Text) group, report.groups[g]? = some group → p ∉ group.members) ∨
    ∃ group, report.groups[report.groupName p]? = some group ∧ p ∈ group.members := by
  unfold groupName
  cases hfind : report.groups.toList.find? fun group => decide (p ∈ group.2.members) with
  | none =>
    refine .inl ⟨rfl, fun g group hg hp => ?_⟩
    have hnone := List.find?_eq_none.mp hfind (g, group) (Iteration.sorted.mem_entries.mpr hg)
    exact hnone (decide_eq_true hp)
  | some found =>
    have hin := List.find?_some hfind
    exact .inr ⟨found.2, Iteration.sorted.mem_entries.mp (List.mem_of_find?_eq_some hfind),
      of_decide_eq_true hin⟩

/-- The edges of a report, from the name of a group to its members. -/
def groupEdges (report : ReportFile) : List (Text × Text) :=
  report.groups.toList.flatMap fun entry => entry.2.members.map fun member => (entry.1, member)

theorem mem_groupEdges {a b : Text} : (a, b) ∈ report.groupEdges ↔
    ∃ group, report.groups[a]? = some group ∧ b ∈ group.members := by
  unfold groupEdges
  rw [List.mem_flatMap]
  constructor
  · rintro ⟨entry, hentry, hin⟩
    obtain ⟨m, hm, heq⟩ := List.mem_map.mp hin
    obtain ⟨rfl, rfl⟩ := Prod.mk.inj heq
    exact ⟨entry.2, Iteration.sorted.mem_entries.mp hentry, hm⟩
  · rintro ⟨group, hgroup, hb⟩
    exact ⟨(a, group), Iteration.sorted.mem_entries.mpr hgroup, List.mem_map.mpr ⟨b, hb, rfl⟩⟩

/-- The members of a group share its name. -/
theorem groupName_of_edge (h : report.GroupsValid) {a b : Text}
    (hedge : (a, b) ∈ report.groupEdges) : report.groupName a = a ∧ report.groupName b = a := by
  obtain ⟨group, hgroup, hb⟩ := mem_groupEdges.mp hedge
  have ha : a ∈ group.members := List.mem_of_head? (h.named a group hgroup)
  exact ⟨groupName_of_mem h hgroup ha, groupName_of_mem h hgroup hb⟩

/-- The packages of a group are joined by way of its name. -/
theorem joined_of_groupName (h : report.GroupsValid) {p q : Text} (hp : p ∈ report.targetNames)
    (hq : q ∈ report.targetNames) (hcls : report.groupName q = report.groupName p) :
    ReflTransGen (fun a b => b ∈ Groups.neighbors report.targetNames report.groupEdges a) p q := by
  have hstep : ∀ {a b : Text}, a ∈ report.targetNames → b ∈ report.targetNames →
      (a, b) ∈ report.groupEdges ∨ (b, a) ∈ report.groupEdges →
      ReflTransGen (fun a b => b ∈ Groups.neighbors report.targetNames report.groupEdges a) a b := by
    intro a b ha hb hedge
    by_cases heq : b = a
    · exact heq ▸ .refl
    · exact .single (Groups.mem_neighbors.mpr ⟨hb, heq, hedge⟩)
  rcases groupName_cases report p with ⟨hself, hnone⟩ | ⟨group, hgroup, hin⟩
  · rcases groupName_cases report q with ⟨hself', -⟩ | ⟨group, hgroup, hin⟩
    · rw [hself, hself'] at hcls
      exact hcls ▸ .refl
    · -- the group of the other one has the name of this one, which is in none
      rw [hcls, hself] at hgroup
      exact absurd (List.mem_of_head? (h.named p group hgroup)) (hnone p group hgroup)
  · have hin' : q ∈ group.members := by
      rcases groupName_cases report q with ⟨hself, hnone⟩ | ⟨group', hgroup', hin'⟩
      · rw [← hcls, hself] at hgroup
        exact absurd (List.mem_of_head? (h.named q group hgroup)) (hnone q group hgroup)
      · rw [hcls, hgroup] at hgroup'
        rwa [Option.some.inj hgroup']
    have hname := h.targets _ group hgroup _ (List.mem_of_head? (h.named _ group hgroup))
    exact (hstep hp hname (.inr (mem_groupEdges.mpr ⟨group, hgroup, hin⟩))).trans
      (hstep hname hq (.inl (mem_groupEdges.mpr ⟨group, hgroup, hin'⟩)))

theorem nodup_targetNames (report : ReportFile) : report.targetNames.Nodup := nodup_treeSet _

/-- The class of a member is its group. -/
theorem classOf_eq_members (h : report.GroupsValid) {g : Text} {group : ReportGroup}
    (hg : report.groups[g]? = some group) {p : Text} (hp : p ∈ group.members) :
    Groups.classOf report.targetNames report.groupName p = group.members := by
  refine eq_of_strict_of_mem (strict_treeSet _) (h.sorted g group hg) fun q => ?_
  show q ∈ Groups.classOf report.targetNames report.groupName p ↔ _
  rw [Groups.mem_classOf, groupName_of_mem h hg hp]
  constructor
  · rintro ⟨-, hname⟩
    rcases groupName_cases report q with ⟨hself, hnone⟩ | ⟨group', hgroup', hin⟩
    · rw [hself] at hname
      subst hname
      exact absurd (List.mem_of_head? (h.named q group hg)) (hnone q group hg)
    · rw [hname, hg] at hgroup'
      rwa [Option.some.inj hgroup']
  · exact fun hq => ⟨h.targets g group hg q hq, groupName_of_mem h hg hq⟩

/-- The derived groups of a valid report are the reported ones. -/
theorem byName_versionGroups (h : report.GroupsValid) (g : Text) :
    report.versionGroups.byName[g]? = (report.groups[g]?).map (·.members) := by
  have hsame : ∀ p ∈ report.targetNames,
      ∀ q ∈ Groups.neighbors report.targetNames report.groupEdges p,
        report.groupName q = report.groupName p := by
    intro p _ q hq
    rcases (Groups.mem_neighbors.mp hq).2.2 with hedge | hedge
    · exact (groupName_of_edge h hedge).2.trans (groupName_of_edge h hedge).1.symm
    · exact (groupName_of_edge h hedge).1.trans (groupName_of_edge h hedge).2.symm
  have hgroups : ∀ g ms, report.versionGroups.byName[g]? = some ms ↔ _ :=
    Groups.byName_fromEdges (nodup_targetNames report) report.groupName hsame
      fun p hp q hq hcls => joined_of_groupName h hp hq hcls
  cases hg : report.groups[g]? with
  | some group =>
    have hhead := List.mem_of_head? (h.named g group hg)
    exact (hgroups g group.members).mpr ⟨h.targets g group hg g hhead,
      (classOf_eq_members h hg hhead).symm, h.named g group hg, h.several g group hg⟩
  | none =>
    cases hms : report.versionGroups.byName[g]? with
    | none => rfl
    | some ms =>
      obtain ⟨-, rfl, hhead, hlength⟩ := (hgroups g ms).mp hms
      rcases groupName_cases report g with ⟨hself, hnone⟩ | ⟨group, hgroup, hin⟩
      · -- no other package has the name of a package that is by itself
        have hone : Groups.classOf report.targetNames report.groupName g ⊆ [g] := by
          intro q hq
          rw [List.mem_singleton]
          have hq := (Groups.mem_classOf.mp hq).2
          rcases groupName_cases report q with ⟨hself', -⟩ | ⟨group', hgroup', -⟩
          · rw [← hself', hq, hself]
          · rw [hq, hself, hg] at hgroup'
            nomatch hgroup'
        have hle := ((nodup_treeSet _).subperm hone).length_le
        rw [List.length_singleton] at hle
        exact absurd (Nat.le_trans hlength hle) (by decide)
      · rw [classOf_eq_members h hgroup hin, h.named _ group hgroup] at hhead
        rw [Option.some.inj hhead, hg] at hgroup
        nomatch hgroup

end ReportFile

end Folo.ReleasePlan
