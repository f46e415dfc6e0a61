import Folo.Lib.Sorting
import Folo.ReleasePlan.Plans

/-!
# Version groups are disjoint

What `from_edges` derives: a package is in the group that it is said to be in
and in no other one, and a group is named after one of its members
(`coherent_fromEdges`). So the decisions about a package and about its group
are kept under one key, and the members of two keys are disjoint.
-/

namespace Folo.ReleasePlan

open Folo.Lib Std

namespace Groups

structure Coherent (groups : Groups) (targets : List Text) : Prop where
  member : ∀ p g, groups.groupOf p = some g ↔ ∃ ms, groups.byName[g]? = some ms ∧ p ∈ ms
  named : ∀ (g : Text) ms, groups.byName[g]? = some ms → g ∈ ms ∧ ms ⊆ targets

/-- No group has a member that was not visited. -/
def Visited (groups : Groups) (unvisited : List Text) : Prop :=
  ∀ (g : Text) ms, groups.byName[g]? = some ms → ∀ p ∈ ms, p ∉ unvisited

/-- What was reached is not left unvisited. -/
theorem explore_disjoint (neighbors : Text → List Text) (rounds : Nat)
    (pending unvisited members : List Text) (hpending : ∀ x ∈ pending, x ∉ unvisited)
    (hmembers : ∀ x ∈ members, x ∉ unvisited) :
    ∀ x ∈ (explore neighbors rounds pending unvisited members).1,
      x ∉ (explore neighbors rounds pending unvisited members).2 := by
  induction rounds generalizing pending unvisited members with
  | zero => exact hmembers
  | succ rounds ih =>
    cases pending with
    | nil => exact hmembers
    | cons member pending =>
      unfold explore
      obtain ⟨hmember, hpending⟩ := List.forall_mem_cons.mp hpending
      -- what leaves the unvisited ones is what becomes pending
      have hsub : ∀ x, x ∉ unvisited → x ∉ unvisited.filter fun package =>
          !((neighbors member).filter unvisited.contains).contains package :=
        fun x hx h => hx (List.mem_filter.mp h).1
      refine ih _ _ _ (fun x hx => ?_) (List.forall_mem_cons.mpr ⟨hsub _ hmember, fun x hx =>
        hsub x (hmembers x hx)⟩)
      rcases List.mem_append.mp hx with hx | hx
      · intro h
        have hnot := (List.mem_filter.mp h).2
        rw [Bool.not_eq_true', ← Bool.not_eq_true, List.contains_iff_mem] at hnot
        exact hnot (List.mem_reverse.mp hx)
      · exact hsub x (hpending x hx)

theorem explore_sublist (neighbors : Text → List Text) (rounds : Nat)
    (pending unvisited members : List Text) :
    (explore neighbors rounds pending unvisited members).2.Sublist unvisited := by
  induction rounds generalizing pending unvisited members with
  | zero => exact List.Sublist.refl _
  | succ rounds ih =>
    cases pending with
    | nil => exact List.Sublist.refl _
    | cons member pending => exact (ih _ _ _).trans List.filter_sublist

theorem Coherent.addComponent {groups : Groups} {targets members : List Text}
    (h : groups.Coherent targets) (hmembers : members ⊆ targets)
    (hnew : ∀ (g : Text) ms, groups.byName[g]? = some ms → ∀ p ∈ ms, p ∉ members) :
    (groups.addComponent members).Coherent targets := by
  unfold Groups.addComponent
  split
  next key second rest =>
    -- the key is a member, so that no group has its name yet
    have hkey : groups.byName[key]? = none := by
      cases hname : groups.byName[key]? with
      | none => rfl
      | some ms =>
        exact absurd (List.mem_cons_self ..) (hnew key ms hname key (h.named key ms hname).1)
    constructor
    · intro p g
      unfold groupOf
      rw [getElem?_foldl_insert_const, getElem?_insert]
      by_cases hp : p ∈ key :: second :: rest
      · rw [if_pos hp, Option.some.injEq]
        constructor
        · rintro rfl
          exact ⟨_, if_pos rfl, hp⟩
        · rintro ⟨ms, hms, hin⟩
          split at hms
          next heq => exact heq
          next => exact absurd hp (hnew g ms hms p hin)
      · rw [if_neg hp]
        refine (h.member p g).trans ⟨?_, ?_⟩
        · rintro ⟨ms, hms, hin⟩
          refine ⟨ms, ?_, hin⟩
          rw [if_neg fun heq => ?_]
          · exact hms
          · rw [← heq, hkey] at hms
            nomatch hms
        · rintro ⟨ms, hms, hin⟩
          split at hms
          next => exact absurd (Option.some.inj hms ▸ hin) hp
          next => exact ⟨ms, hms, hin⟩
    · intro g ms hms
      rw [getElem?_insert] at hms
      split at hms
      next heq =>
        obtain rfl := Option.some.inj hms
        exact ⟨heq ▸ List.mem_cons_self .., hmembers⟩
      next => exact h.named g ms hms
  next => exact h

theorem visited_addComponent {groups : Groups} {unvisited rest members : List Text}
    (h : groups.Visited unvisited) (hrest : rest ⊆ unvisited) (hmembers : ∀ p ∈ members, p ∉ rest) :
    (groups.addComponent members).Visited rest := by
  unfold Groups.addComponent
  split
  next key second others =>
    intro g ms hms p hp
    rw [getElem?_insert] at hms
    split at hms
    next => exact hmembers p (Option.some.inj hms ▸ hp)
    next => exact fun hin => h g ms hms p hp (hrest hin)
  next => exact fun g ms hms p hp hin => h g ms hms p hp (hrest hin)

theorem coherent_components {neighbors : Text → List Text} {targets : List Text} {rounds : Nat}
    {unvisited : List Text} {groups : Groups} (hsub : unvisited ⊆ targets)
    (hnodup : unvisited.Nodup) (hvisited : groups.Visited unvisited)
    (h : groups.Coherent targets) :
    (components neighbors rounds unvisited groups).Coherent targets := by
  induction rounds generalizing unvisited groups with
  | zero => exact h
  | succ rounds ih =>
    cases unvisited with
    | nil => exact h
    | cons first unvisited =>
      unfold components
      dsimp only
      obtain ⟨hfirst, hnodup⟩ := List.nodup_cons.mp hnodup
      have hreached := explore_subset neighbors (unvisited.length + 1) [first] unvisited []
      have hdisjoint := explore_disjoint neighbors (unvisited.length + 1) [first] unvisited []
        (fun x hx => List.mem_singleton.mp hx ▸ hfirst) nofun
      have hleft := hnodup.sublist
        (explore_sublist neighbors (unvisited.length + 1) [first] unvisited [])
      generalize explore neighbors (unvisited.length + 1) [first] unvisited [] = found at *
      have hmembers : ∀ p, p ∈ treeSet found.1 → p ∈ first :: unvisited := by
        intro p hp
        rcases hreached.1 p (mem_treeSet.mp hp) with h | h | h
        · exact List.mem_cons.mpr (.inl (List.mem_singleton.mp h))
        · exact List.mem_cons_of_mem _ h
        · nomatch h
      refine ih (fun x hx => hsub (List.mem_cons_of_mem _ (hreached.2 x hx))) hleft
        (visited_addComponent hvisited (fun x hx => List.mem_cons_of_mem _ (hreached.2 x hx))
          fun p hp => hdisjoint p (mem_treeSet.mp hp)) (h.addComponent ?_ ?_)
      · exact fun p hp => hsub (hmembers p hp)
      · exact fun g ms hms p hp hin => hvisited g ms hms p hp (hmembers p hin)

/-- The groups of distinct targets are coherent. -/
theorem coherent_fromEdges {targets : List Text} (hnodup : targets.Nodup)
    (edges : List (Text × Text)) : (fromEdges targets edges).Coherent targets := by
  refine coherent_components (List.Subset.refl _) hnodup ?_ ⟨fun p g => ?_, ?_⟩
  · intro g ms hms
    simp at hms
  · unfold groupOf
    simp
  · intro g ms hms
    simp at hms

/-! ## Keys -/

/-- The key that decisions about a package are kept under. -/
def keyOf (groups : Groups) (package : Text) : Text := (groups.groupOf package).getD package

variable {groups : Groups} {targets : List Text}

theorem members_eq_of_groupOf (h : groups.Coherent targets) {p g : Text}
    (hp : groups.groupOf p = some g) :
    groups.byName[g]? = some (groups.members g) ∧ p ∈ groups.members g := by
  obtain ⟨ms, hms, hin⟩ := (h.member p g).mp hp
  unfold members
  rw [hms]
  exact ⟨rfl, hin⟩

/-- The closure of a member is its group. -/
theorem closure_of_mem (h : groups.Coherent targets) {g : Text} {ms : List Text}
    (hms : groups.byName[g]? = some ms) {p : Text} (hp : p ∈ ms) :
    groups.groupOf p = some g ∧ groups.closure p = ms := by
  have hg := (h.member p g).mpr ⟨ms, hms, hp⟩
  refine ⟨hg, ?_⟩
  unfold closure
  rw [hg]
  show (groups.byName[g]?).getD [] = ms
  rw [hms]
  rfl

/-- A group is the group of the member that it is named after. -/
theorem groupOf_name (h : groups.Coherent targets) {p g : Text} (hp : groups.groupOf p = some g) :
    groups.groupOf g = some g := by
  obtain ⟨ms, hms, -⟩ := (h.member p g).mp hp
  exact (h.member g g).mpr ⟨ms, hms, (h.named g ms hms).1⟩

/-- A package without a group has the name of none. -/
theorem members_eq_nil (h : groups.Coherent targets) {p : Text} (hp : groups.groupOf p = none) :
    groups.members p = [] := by
  unfold members
  cases hms : groups.byName[p]? with
  | none => rfl
  | some ms =>
    have hsome := (h.member p p).mpr ⟨ms, hms, (h.named p ms hms).1⟩
    rw [hp] at hsome
    nomatch hsome

/-- The closure of a target is the targets of its key. -/
theorem mem_closure_iff (h : groups.Coherent targets) {t m : Text} (ht : t ∈ targets) :
    m ∈ groups.closure t ↔ m ∈ targets ∧ groups.keyOf m = groups.keyOf t := by
  unfold closure keyOf
  cases hg : groups.groupOf t with
  | some g =>
    obtain ⟨hms, -⟩ := members_eq_of_groupOf h hg
    simp only [Option.getD_some]
    constructor
    · intro hm
      rw [(h.member m g).mpr ⟨_, hms, hm⟩]
      exact ⟨(h.named g _ hms).2 hm, rfl⟩
    · rintro ⟨-, hkey⟩
      cases hm : groups.groupOf m with
      | some g' =>
        rw [hm] at hkey
        obtain rfl : g' = g := hkey
        exact (members_eq_of_groupOf h hm).2
      | none =>
        rw [hm] at hkey
        obtain rfl : m = g := hkey
        rw [groupOf_name h hg] at hm
        nomatch hm
  | none =>
    simp only [Option.getD_none, List.mem_singleton]
    constructor
    · rintro rfl
      rw [hg]
      exact ⟨ht, rfl⟩
    · rintro ⟨-, hkey⟩
      cases hm : groups.groupOf m with
      | some g' =>
        rw [hm] at hkey
        obtain rfl : g' = t := hkey
        rw [groupOf_name h hm] at hg
        nomatch hg
      | none =>
        rw [hm] at hkey
        exact hkey

theorem self_mem_closure (h : groups.Coherent targets) {t : Text} (ht : t ∈ targets) :
    t ∈ groups.closure t :=
  (mem_closure_iff h ht).mpr ⟨ht, rfl⟩

theorem keyOf_mem (h : groups.Coherent targets) {t : Text} (ht : t ∈ targets) :
    groups.keyOf t ∈ targets := by
  unfold keyOf
  cases hg : groups.groupOf t with
  | some g => exact (h.named g _ (members_eq_of_groupOf h hg).1).2 (h.named g _
      (members_eq_of_groupOf h hg).1).1
  | none => exact ht

theorem keyOf_keyOf (h : groups.Coherent targets) (t : Text) :
    groups.keyOf (groups.keyOf t) = groups.keyOf t := by
  unfold keyOf
  cases hg : groups.groupOf t with
  | some g => rw [Option.getD_some, groupOf_name h hg, Option.getD_some]
  | none => rw [Option.getD_none, hg, Option.getD_none]

/-- The group of a key is that of its members. -/
theorem members_keyOf_isEmpty (h : groups.Coherent targets) (t : Text) :
    (groups.members (groups.keyOf t)).isEmpty = (groups.groupOf t).isNone := by
  unfold keyOf
  cases hg : groups.groupOf t with
  | some g =>
    have hin := (members_eq_of_groupOf h hg).2
    cases hms : groups.members g with
    | nil =>
      rw [hms] at hin
      nomatch hin
    | cons first rest =>
      rw [Option.getD_some, hms]
      rfl
  | none =>
    rw [Option.getD_none, members_eq_nil h hg]
    rfl

theorem decisionKeys_closure (h : groups.Coherent targets) {t : Text} (ht : t ∈ targets) :
    decisionKeys (groups.closure t) groups = [groups.keyOf t] := by
  show treeSet ((groups.closure t).map groups.keyOf) = treeSet [groups.keyOf t]
  refine treeSet_congr fun key => ?_
  rw [List.mem_map, List.mem_singleton]
  constructor
  · rintro ⟨m, hm, rfl⟩
    exact ((mem_closure_iff h ht).mp hm).2
  · rintro rfl
    exact ⟨t, self_mem_closure h ht, rfl⟩

theorem membersForKey_keyOf (h : groups.Coherent targets) {targetVersions : ExtTreeMap Text Version}
    {t : Text} (ht : targetVersions.contains t = true) :
    membersForKey (groups.keyOf t) groups targetVersions = groups.closure t := by
  unfold membersForKey closure keyOf
  cases hg : groups.groupOf t with
  | some g =>
    obtain ⟨-, hin⟩ := members_eq_of_groupOf h hg
    simp only [Option.getD_some]
    split
    next hnil =>
      rw [hnil] at hin
      nomatch hin
    next => rfl
  | none =>
    simp only [Option.getD_none]
    rw [members_eq_nil h hg]
    exact if_pos ht

end Groups

end Folo.ReleasePlan
