import Folo.Lib.Joins
import Folo.ReleasePlan.Coherent
import Folo.ReleasePlan.Reports
import Folo.ReleasePlan.Semver

/-!
# What a plan resolves to

The decisions of a plan are joins: a step that adds an increment absorbs it,
so that neither the order of the increments nor their repetitions matter to
what `resolve_plan` returns, its failure included (`resolvePlan_congr`). A
plan that resolves gives every group that it reaches one version, which is not
below any that a member declares (`resolvePlan_spec`).
-/

namespace Folo.ReleasePlan

open Folo.Lib Std

/-! ## Increments in any order -/

/-- The decision of a key after one more increment. -/
def joined (key : Text) (spec : IncrementSpec) : Option IncrementSpec → Option IncrementSpec
  | none => some spec
  | some existing => (existing.merge key spec).toOption

theorem toOption_addDecision (spec : IncrementSpec) (decisions : ExtTreeMap Text IncrementSpec)
    (key : Text) : (addDecision spec decisions key).toOption =
      (joined key spec decisions[key]?).map fun merged => decisions.insert key merged := by
  unfold addDecision
  split
  next hnone =>
    rw [hnone]
    rfl
  next existing hsome =>
    rw [hsome]
    show _ = (existing.merge key spec).toOption.map _
    cases existing.merge key spec with
    | error e => rfl
    | ok merged => rfl

theorem VersionBump.max_comm (a b : VersionBump) : a.max b = b.max a := by
  cases a <;> cases b <;> rfl

theorem VersionBump.max_assoc (a b c : VersionBump) : (a.max b).max c = a.max (b.max c) := by
  cases a <;> cases b <;> cases c <;> rfl

theorem VersionBump.max_self (a : VersionBump) : a.max a = a := by
  cases a <;> rfl

theorem toOption_merge_version {key : Text} {v w : Version} :
    ((IncrementSpec.version v).merge key (.version w)).toOption =
      if v = w then some (.version v) else none := by
  show (if v = w then Except.ok (IncrementSpec.version v)
    else Except.error (PlanError.conflictingPlanVersion key)).toOption = _
  split
  · rfl
  · rfl

/-- Two increments of a key may come in either order. -/
theorem joined_comm (key : Text) (a b : IncrementSpec) (old : Option IncrementSpec) :
    (joined key a old).bind (fun spec => joined key b (some spec)) =
      (joined key b old).bind fun spec => joined key a (some spec) := by
  cases old with
  | none =>
    show (a.merge key b).toOption = (b.merge key a).toOption
    cases a with
    | bump a =>
      cases b with
      | bump b => exact congrArg (fun m => some (IncrementSpec.bump m)) (a.max_comm b)
      | version w => rfl
    | version v =>
      cases b with
      | bump b => rfl
      | version w =>
        rw [toOption_merge_version, toOption_merge_version]
        by_cases heq : v = w
        · rw [if_pos heq, if_pos heq.symm, heq]
        · rw [if_neg heq, if_neg fun h => heq h.symm]
  | some old =>
    show (old.merge key a).toOption.bind (fun spec => (spec.merge key b).toOption) =
      (old.merge key b).toOption.bind fun spec => (spec.merge key a).toOption
    cases old with
    | bump o =>
      cases a with
      | version v =>
        cases b with
        | version w => rfl
        | bump b => rfl
      | bump a =>
        cases b with
        | version w => rfl
        | bump b =>
          refine congrArg (fun m => some (IncrementSpec.bump m)) ?_
          rw [VersionBump.max_assoc, a.max_comm b, ← VersionBump.max_assoc]
    | version o =>
      cases a with
      | bump a =>
        cases b with
        | bump b => rfl
        | version w =>
          rw [toOption_merge_version]
          split <;> rfl
      | version v =>
        cases b with
        | bump b =>
          rw [toOption_merge_version]
          split <;> rfl
        | version w =>
          rw [toOption_merge_version, toOption_merge_version]
          by_cases hv : o = v
          · by_cases hw : o = w
            · rw [if_pos hv, if_pos hw, Option.bind_some, Option.bind_some, toOption_merge_version,
                toOption_merge_version, if_pos hv, if_pos hw]
            · rw [if_pos hv, if_neg hw, Option.bind_some, toOption_merge_version, if_neg hw]
              rfl
          · rw [if_neg hv, Option.bind_none]
            by_cases hw : o = w
            · rw [if_pos hw, Option.bind_some, toOption_merge_version, if_neg hv]
            · rw [if_neg hw, Option.bind_none]

/-- An increment that comes again changes nothing. -/
theorem joined_again {key : Text} {a spec : IncrementSpec} {old : Option IncrementSpec}
    (h : joined key a old = some spec) : joined key a (some spec) = some spec := by
  have hself : (a.merge key a).toOption = some a := by
    cases a with
    | bump a => exact congrArg (fun m => some (IncrementSpec.bump m)) a.max_self
    | version v => rw [toOption_merge_version, if_pos rfl]
  cases old with
  | none =>
    obtain rfl := Option.some.inj h
    exact hself
  | some old =>
    have h : (old.merge key a).toOption = some spec := h
    show (spec.merge key a).toOption = some spec
    cases old with
    | bump o =>
      cases a with
      | version v => nomatch h
      | bump a =>
        obtain rfl := Option.some.inj h
        refine congrArg (fun m => some (IncrementSpec.bump m)) ?_
        rw [VersionBump.max_assoc, VersionBump.max_self]
    | version o =>
      cases a with
      | bump a => nomatch h
      | version v =>
        rw [toOption_merge_version] at h
        split at h
        next heq =>
          obtain rfl := Option.some.inj h
          rw [toOption_merge_version, if_pos heq]
        next => nomatch h

/-- The decisions absorb what is decided of a key. -/
theorem absorbing_addDecision : Absorbing fun decisions (entry : Text × IncrementSpec) =>
    (addDecision entry.2 decisions entry.1).toOption where
  comm decisions a b := by
    obtain ⟨k, a⟩ := a
    obtain ⟨l, b⟩ := b
    simp only [toOption_addDecision, Option.bind_map, Function.comp_def]
    by_cases hkl : k = l
    · subst hkl
      have hsame : ∀ spec, (decisions.insert k spec)[k]? = some spec := fun spec => by
        rw [getElem?_insert, if_pos rfl]
      have htwice : ∀ v w : IncrementSpec,
          (decisions.insert k v).insert k w = decisions.insert k w := by
        intro v w
        refine ExtTreeMap.ext_getElem? fun key => ?_
        rw [getElem?_insert, getElem?_insert, getElem?_insert]
        split <;> rfl
      simp only [hsame, htwice]
      have hcomm := congrArg (Option.map fun spec => decisions.insert k spec)
        (joined_comm k a b decisions[k]?)
      simpa only [Option.map_bind, Function.comp_def] using hcomm
    · have hother : ∀ spec, (decisions.insert k spec)[l]? = decisions[l]? := fun spec => by
        rw [getElem?_insert, if_neg hkl]
      have hother' : ∀ spec, (decisions.insert l spec)[k]? = decisions[k]? := fun spec => by
        rw [getElem?_insert, if_neg fun h => hkl h.symm]
      have hswap : ∀ v w : IncrementSpec,
          (decisions.insert k v).insert l w = (decisions.insert l w).insert k v := by
        intro v w
        refine ExtTreeMap.ext_getElem? fun key => ?_
        rw [getElem?_insert, getElem?_insert, getElem?_insert, getElem?_insert]
        by_cases hk : k = key
        · rw [if_neg fun h => hkl (hk.trans h.symm), if_pos hk, if_pos hk]
        · rw [if_neg hk, if_neg hk]
      simp only [hother, hother', hswap]
      cases joined k a decisions[k]? with
      | none => cases joined l b decisions[l]? <;> rfl
      | some v => cases joined l b decisions[l]? <;> rfl
  again decisions a decisions' h := by
    obtain ⟨k, a⟩ := a
    rw [toOption_addDecision] at h ⊢
    obtain ⟨spec, hspec, rfl⟩ := Option.map_eq_some_iff.mp h
    rw [getElem?_insert, if_pos rfl, joined_again hspec, Option.map_some]
    refine congrArg some (ExtTreeMap.ext_getElem? fun key => ?_)
    rw [getElem?_insert, getElem?_insert]
    split <;> rfl

/-- The decisions that an increment asks for. -/
def entries (semver : SemverCrate) (groups : Groups) (targetVersions : ExtTreeMap Text Version)
    (increment : PlanIncrement) : Option (List (Text × IncrementSpec)) :=
  (resolveTargets increment.name groups targetVersions).toOption.bind fun targets =>
    (increment.spec semver).toOption.map fun spec =>
      (decisionKeys targets groups).map fun key => (key, spec)

theorem toOption_addIncrement (semver : SemverCrate) (groups : Groups)
    (targetVersions : ExtTreeMap Text Version) (decisions : ExtTreeMap Text IncrementSpec)
    (increment : PlanIncrement) :
    (addIncrement semver groups targetVersions decisions increment).toOption =
      (entries semver groups targetVersions increment).bind fun entries => entries.foldlM
        (fun decisions entry => (addDecision entry.2 decisions entry.1).toOption) decisions := by
  unfold addIncrement entries
  rw [toOption_bind, Option.bind_assoc]
  refine congrArg _ (funext fun targets => ?_)
  rw [toOption_bind, Option.bind_map]
  refine congrArg _ (funext fun spec => ?_)
  rw [toOption_foldlM, Function.comp_apply, List.foldlM_map]

theorem foldlM_addIncrement_congr {semver : SemverCrate} {groups : Groups}
    {targetVersions : ExtTreeMap Text Version} {xs ys : List PlanIncrement}
    (hmem : ∀ i, i ∈ xs ↔ i ∈ ys) (decisions : ExtTreeMap Text IncrementSpec) :
    (xs.foldlM (addIncrement semver groups targetVersions) decisions).toOption =
      (ys.foldlM (addIncrement semver groups targetVersions) decisions).toOption := by
  simp only [toOption_foldlM, toOption_addIncrement]
  exact (absorbing_addDecision.expand (entries semver groups targetVersions)).foldlM_congr hmem _

/-- Neither the order of the increments nor their repetitions matter. -/
theorem resolvePlan_congr {semver : SemverCrate} {plan : PlanFile} {groups : Groups}
    {targetVersions : ExtTreeMap Text Version} {increments : List PlanIncrement}
    (hmem : ∀ i, i ∈ increments ↔ i ∈ plan.increments) :
    (resolvePlan semver { plan with increments } groups targetVersions).toOption =
      (resolvePlan semver plan groups targetVersions).toOption := by
  have hany : ∀ p : PlanIncrement → Bool, increments.any p = plan.increments.any p := by
    intro p
    rw [Bool.eq_iff_iff, List.any_eq_true, List.any_eq_true]
    simp only [hmem]
  have hresolved : ({ plan with increments } : PlanFile).checkResolved.toOption =
      plan.checkResolved.toOption := by
    have hempty : ∀ xs : List PlanIncrement,
        ((xs.filter fun increment => increment.version.isNone).map (·.name)).isEmpty =
          !xs.any fun increment => increment.version.isNone := by
      intro xs
      rw [List.isEmpty_map, Bool.eq_iff_iff, List.isEmpty_iff, List.filter_eq_nil_iff]
      simp
    unfold PlanFile.checkResolved
    simp only [hempty, hany]
    split <;> rfl
  have hnamed : ∀ packages : ExtTreeMap Text Version,
      ({ plan with increments } : PlanFile).checkNamed packages = plan.checkNamed packages := by
    intro packages
    unfold PlanFile.checkNamed
    simp only [hany]
  unfold resolvePlan
  simp only [toOption_bind, hnamed, hresolved, foldlM_addIncrement_congr hmem]
  rfl

/-! ## Decisions -/

section Decisions

variable {semver : SemverCrate} {groups : Groups} {targetVersions : ExtTreeMap Text Version}
  {targets : List Text}

theorem addIncrement_eq_ok (hgroups : groups.Coherent targets)
    (htargets : ∀ name, targetVersions.contains name = true ↔ name ∈ targets)
    {decisions decisions' : ExtTreeMap Text IncrementSpec} {increment : PlanIncrement} :
    addIncrement semver groups targetVersions decisions increment = .ok decisions' ↔
      increment.name ∈ targets ∧ ∃ spec, increment.spec semver = .ok spec ∧
        addDecision spec decisions (groups.keyOf increment.name) = .ok decisions' := by
  unfold addIncrement resolveTargets
  by_cases hin : increment.name ∈ targets
  · rw [if_pos ((htargets _).mpr hin)]
    show (increment.spec semver >>= fun spec => (decisionKeys (groups.closure increment.name)
      groups).foldlM (addDecision spec) decisions) = _ ↔ _
    rw [bind_eq_ok, Groups.decisionKeys_closure hgroups hin]
    simp only [List.foldlM_cons, List.foldlM_nil, bind_pure, and_iff_right hin]
  · rw [if_neg fun h => hin ((htargets _).mp h)]
    exact ⟨nofun, fun h => absurd h.1 hin⟩

theorem addDecision_eq_ok {spec : IncrementSpec}
    {decisions decisions' : ExtTreeMap Text IncrementSpec} {key : Text} :
    addDecision spec decisions key = .ok decisions' ↔
      ∃ merged, joined key spec decisions[key]? = some merged ∧
        decisions' = decisions.insert key merged := by
  rw [← toOption_eq_some, toOption_addDecision, Option.map_eq_some_iff]
  exact exists_congr fun merged => and_congr_right fun _ => eq_comm

/-- What is decided after the increments: of their keys and of no others. -/
theorem decided_of_foldlM (hgroups : groups.Coherent targets)
    (htargets : ∀ name, targetVersions.contains name = true ↔ name ∈ targets)
    {increments : List PlanIncrement} {before decisions : ExtTreeMap Text IncrementSpec}
    (h : increments.foldlM (addIncrement semver groups targetVersions) before = .ok decisions) :
    (∀ i ∈ increments, i.name ∈ targets) ∧
      ∀ key, (∃ spec, decisions[key]? = some spec) ↔
        (∃ spec, before[key]? = some spec) ∨ ∃ i ∈ increments, groups.keyOf i.name = key := by
  induction increments generalizing before with
  | nil =>
    obtain rfl := Except.ok.inj h
    refine ⟨nofun, fun key => ⟨.inl, ?_⟩⟩
    rintro (h | ⟨i, hi, -⟩)
    · exact h
    · nomatch hi
  | cons i increments ih =>
    rw [List.foldlM_cons] at h
    obtain ⟨next, hnext, h⟩ := bind_eq_ok.mp h
    obtain ⟨hin, spec, -, hadd⟩ := (addIncrement_eq_ok hgroups htargets).mp hnext
    obtain ⟨merged, -, rfl⟩ := addDecision_eq_ok.mp hadd
    obtain ⟨hall, hiff⟩ := ih h
    refine ⟨List.forall_mem_cons.mpr ⟨hin, hall⟩, fun key => ?_⟩
    rw [hiff key, getElem?_insert, List.exists_mem_cons_iff]
    by_cases hkey : groups.keyOf i.name = key
    · rw [if_pos hkey]
      exact ⟨fun _ => .inr (.inl hkey), fun _ => .inl ⟨merged, rfl⟩⟩
    · rw [if_neg hkey, or_iff_right (a := groups.keyOf i.name = key) hkey]

/-! ## Versions -/

/-- The version that a decision comes to. -/
def decidedFor (semver : SemverCrate) (groups : Groups)
    (targetVersions : ExtTreeMap Text Version) (decision : Text × IncrementSpec) :
    Except PlanError Version :=
  match maxVersion semver
      ((membersForKey decision.1 groups targetVersions).filterMap (targetVersions[·]?)) with
  | none => .error .panicked
  | some highest => decidedVersion semver groups decision.1 highest decision.2

theorem resolveDecision_eq_ok {packages packages' : ExtTreeMap Text Version}
    {decision : Text × IncrementSpec} :
    resolveDecision semver groups targetVersions packages decision = .ok packages' ↔
      ∃ v, decidedFor semver groups targetVersions decision = .ok v ∧
        (membersForKey decision.1 groups targetVersions).foldl
          (fun m member => m.insert member v) packages = packages' := by
  unfold resolveDecision decidedFor
  dsimp only
  cases maxVersion semver
    ((membersForKey decision.1 groups targetVersions).filterMap (targetVersions[·]?)) with
  | none =>
    refine ⟨nofun, ?_⟩
    rintro ⟨_, h, -⟩
    nomatch h
  | some highest =>
    rw [bind_eq_ok]
    exact exists_congr fun v => and_congr_right fun _ => ⟨Except.ok.inj, congrArg _⟩

/-- Where the keys have no member in common, every member has the version of
its key in the end. -/
theorem getElem?_of_foldlM {entries : List (Text × IncrementSpec)}
    {before packages : ExtTreeMap Text Version}
    (hdisjoint : entries.Pairwise fun a b => ∀ m ∈ membersForKey a.1 groups targetVersions,
      m ∉ membersForKey b.1 groups targetVersions)
    (h : entries.foldlM (resolveDecision semver groups targetVersions) before = .ok packages) :
    (∀ e ∈ entries, ∃ v, decidedFor semver groups targetVersions e = .ok v ∧
      ∀ m ∈ membersForKey e.1 groups targetVersions, packages[m]? = some v) ∧
    ∀ m, (∀ e ∈ entries, m ∉ membersForKey e.1 groups targetVersions) →
      packages[m]? = before[m]? := by
  induction entries generalizing before with
  | nil =>
    obtain rfl := Except.ok.inj h
    exact ⟨nofun, fun m _ => rfl⟩
  | cons e entries ih =>
    obtain ⟨hfirst, hrest⟩ := List.pairwise_cons.mp hdisjoint
    rw [List.foldlM_cons] at h
    obtain ⟨next, hnext, h⟩ := bind_eq_ok.mp h
    obtain ⟨v, hv, rfl⟩ := resolveDecision_eq_ok.mp hnext
    obtain ⟨hin, hout⟩ := ih hrest h
    refine ⟨List.forall_mem_cons.mpr ⟨⟨v, hv, fun m hm => ?_⟩, hin⟩, fun m hm => ?_⟩
    · rw [hout m fun e' he' => hfirst e' he' m hm, getElem?_foldl_insert_const, if_pos hm]
    · obtain ⟨hm, hothers⟩ := List.forall_mem_cons.mp hm
      rw [hout m hothers, getElem?_foldl_insert_const, if_neg hm]

/-- The last of the greatest is one of them, and none is greater. -/
theorem maxVersion_spec (hsemver : semver.Ordered) {versions : List Version} {best : Version}
    (h : maxVersion semver versions = some best) :
    best ∈ versions ∧ ∀ v ∈ versions, (semver.compare v best).isLE := by
  have := hsemver.trans
  cases versions with
  | nil => nomatch h
  | cons first rest =>
    obtain rfl := Option.some.inj h
    clear h
    suffices hfold : ∀ (rest : List Version) first,
        let best := rest.foldl (fun best v => if semver.compare best v = .gt then best else v) first
        (best = first ∨ best ∈ rest) ∧ (semver.compare first best).isLE ∧
          ∀ v ∈ rest, (semver.compare v best).isLE by
      obtain ⟨hmem, hle, hall⟩ := hfold rest first
      exact ⟨List.mem_cons.mpr hmem, List.forall_mem_cons.mpr ⟨hle, hall⟩⟩
    intro rest
    induction rest with
    | nil => exact fun first => ⟨.inl rfl, ReflCmp.isLE_rfl, nofun⟩
    | cons v rest ih =>
      intro first
      dsimp only
      rw [List.foldl_cons]
      split
      next hgt =>
        obtain ⟨hmem, hle, hall⟩ := ih first
        have hv : (semver.compare v first).isLE := by
          rw [OrientedCmp.gt_iff_lt.mp hgt]
          rfl
        refine ⟨hmem.imp_right (List.mem_cons_of_mem _), hle, List.forall_mem_cons.mpr ⟨?_, hall⟩⟩
        exact TransCmp.isLE_trans hv hle
      next hgt =>
        obtain ⟨hmem, hle, hall⟩ := ih v
        have hfirst : (semver.compare first v).isLE := Ordering.isLE_iff_ne_gt.mpr hgt
        refine ⟨.inr (List.mem_cons.mpr hmem), TransCmp.isLE_trans hfirst hle,
          List.forall_mem_cons.mpr ⟨hle, hall⟩⟩

/-- A version goes up when it is incremented. -/
theorem lt_incrementVersion (hsemver : semver.Ordered) {version next : Version} {bump : VersionBump}
    (h : incrementVersion version bump = .ok next) : semver.compare version next = .lt := by
  refine hsemver.numbers _ _ ?_
  unfold incrementVersion at h
  unfold Version.NumbersLt
  split at h
  all_goals
    split at h
    · obtain rfl := Except.ok.inj h
      simp
    · cases h

/-- What is decided is not below what it starts from. -/
theorem isLE_decidedVersion (hsemver : semver.Ordered) {key : Text} {highest v : Version}
    {spec : IncrementSpec} (h : decidedVersion semver groups key highest spec = .ok v) :
    (semver.compare highest v).isLE := by
  have := hsemver.trans
  unfold decidedVersion at h
  split at h
  next version =>
    split at h
    · nomatch h
    next hlt =>
      split at h
      · nomatch h
      · obtain rfl := Except.ok.inj h
        rw [Ordering.isLE_iff_ne_gt]
        exact fun hgt => hlt (OrientedCmp.gt_iff_lt.mp hgt)
  next bump =>
    rw [lt_incrementVersion hsemver h]
    rfl

/-- What a plan that resolves was checked for, and went through. -/
theorem resolvePlan_eq_ok {plan : PlanFile} {packages : ExtTreeMap Text Version} :
    resolvePlan semver plan groups targetVersions = .ok packages ↔
      plan.validateSchema = .ok () ∧ plan.checkResolved = .ok () ∧
        ∃ decisions, plan.increments.foldlM (addIncrement semver groups targetVersions) ∅ =
            .ok decisions ∧
          decisions.toList.foldlM (resolveDecision semver groups targetVersions) ∅ = .ok packages ∧
          plan.checkNamed packages = .ok () := by
  unfold resolvePlan
  simp only [bind_eq_ok]
  constructor
  · rintro ⟨_, hschema, _, hresolved, decisions, hdecisions, packages', hpackages, _, hnamed, hok⟩
    obtain rfl := Except.ok.inj hok
    exact ⟨hschema, hresolved, decisions, hdecisions, hpackages, hnamed⟩
  · rintro ⟨hschema, hresolved, decisions, hdecisions, hpackages, hnamed⟩
    exact ⟨(), hschema, (), hresolved, decisions, hdecisions, packages, hpackages, (), hnamed, rfl⟩

/-- The members of two keys are disjoint. -/
theorem disjoint_members (hgroups : groups.Coherent targets)
    (htargets : ∀ name, targetVersions.contains name = true ↔ name ∈ targets)
    {decisions : ExtTreeMap Text IncrementSpec}
    (hkeys : ∀ (key : Text) spec, decisions[key]? = some spec →
      ∃ t ∈ targets, groups.keyOf t = key) :
    decisions.toList.Pairwise fun a b => ∀ m ∈ membersForKey a.1 groups targetVersions,
      m ∉ membersForKey b.1 groups targetVersions := by
  have hkey : ∀ e ∈ decisions.toList, ∀ m ∈ membersForKey e.1 groups targetVersions,
      groups.keyOf m = e.1 := by
    intro e he m hm
    obtain ⟨t, ht, hte⟩ := hkeys e.1 e.2 (Iteration.sorted.mem_entries.mp he)
    rw [← hte, Groups.membersForKey_keyOf hgroups ((htargets t).mpr ht)] at hm
    rw [← hte]
    exact ((Groups.mem_closure_iff hgroups ht).mp hm).2
  have hnodup := (Iteration.sorted (κ := Text)).nodup_keys decisions
  have hpairs : decisions.toList.Pairwise fun a b => a.1 ≠ b.1 := List.pairwise_map.mp hnodup
  refine hpairs.imp_of_mem fun ha hb hne m hma hmb => hne ?_
  exact (hkey _ ha m hma).symm.trans (hkey _ hb m hmb)

/-- Every package that a plan reaches has the version of its whole closure,
not below any that is declared there, and no other package is planned. -/
theorem resolved_closures (hsemver : semver.Ordered) (hgroups : groups.Coherent targets)
    (htargets : ∀ name, targetVersions.contains name = true ↔ name ∈ targets) {plan : PlanFile}
    {packages : ExtTreeMap Text Version}
    (hok : resolvePlan semver plan groups targetVersions = .ok packages) :
    (∀ i ∈ plan.increments, i.name ∈ targets ∧ ∃ v, ∀ m ∈ groups.closure i.name,
      packages[m]? = some v ∧ ∃ declared, targetVersions[m]? = some declared ∧
        (semver.compare declared v).isLE) ∧
    ∀ name v, packages[name]? = some v → ∃ i ∈ plan.increments, name ∈ groups.closure i.name := by
  have := hsemver.trans
  obtain ⟨-, -, decisions, hdecisions, hpackages, -⟩ := resolvePlan_eq_ok.mp hok
  obtain ⟨hnames, hdecided⟩ := decided_of_foldlM hgroups htargets hdecisions
  have hkeys : ∀ (key : Text) spec, decisions[key]? = some spec →
      ∃ i ∈ plan.increments, groups.keyOf i.name = key := by
    intro key spec hspec
    refine ((hdecided key).mp ⟨spec, hspec⟩).resolve_left ?_
    rintro ⟨_, h⟩
    simp at h
  obtain ⟨hin, hout⟩ := getElem?_of_foldlM (disjoint_members hgroups htargets fun key spec hspec =>
    let ⟨i, hi, hkey⟩ := hkeys key spec hspec
    ⟨i.name, hnames i hi, hkey⟩) hpackages
  constructor
  · intro i hi
    have hi' := hnames i hi
    obtain ⟨spec, hspec⟩ := (hdecided (groups.keyOf i.name)).mpr (.inr ⟨i, hi, rfl⟩)
    obtain ⟨v, hv, hmembers⟩ := hin _ (Iteration.sorted.mem_entries.mpr hspec)
    have hclosure := Groups.membersForKey_keyOf hgroups ((htargets _).mpr hi')
    rw [hclosure] at hmembers
    refine ⟨hi', v, fun m hm => ⟨hmembers m hm, ?_⟩⟩
    have hm' := ((Groups.mem_closure_iff hgroups hi').mp hm).1
    obtain ⟨declared, hdeclared⟩ := Option.isSome_iff_exists.mp
      ((ExtTreeMap.isSome_getElem?_eq_contains (t := targetVersions)).trans ((htargets m).mpr hm'))
    unfold decidedFor at hv
    rw [hclosure] at hv
    split at hv
    next => nomatch hv
    next highest hmax =>
      have hle := (maxVersion_spec hsemver hmax).2 declared
        (List.mem_filterMap.mpr ⟨m, hm, hdeclared⟩)
      exact ⟨declared, hdeclared, TransCmp.isLE_trans hle (isLE_decidedVersion hsemver hv)⟩
  · intro name v hname
    by_contra hnone
    have habsent : packages[name]? = none := by
      rw [hout name fun e he hmem => hnone ?_]
      · simp
      · obtain ⟨i, hi, hkey⟩ := hkeys e.1 e.2 (Iteration.sorted.mem_entries.mp he)
        rw [← hkey, Groups.membersForKey_keyOf hgroups ((htargets _).mpr (hnames i hi))] at hmem
        exact ⟨i, hi, hmem⟩
    rw [hname] at habsent
    nomatch habsent

end Decisions

theorem coherent_versionGroups (report : ReportFile) :
    report.versionGroups.Coherent report.targetNames :=
  Groups.coherent_fromEdges (nodup_treeSet _) _

/-- What a plan resolves to over a report depends on which increments it has;
every group that it reaches takes one version, which is not below any that a
member declares, and nothing else is planned. -/
theorem resolvePlan_spec {semver : SemverCrate} (hsemver : semver.Ordered) (report : ReportFile)
    {versions : ExtTreeMap Text Version} (hversions : report.versionTargets semver = some versions)
    (plan : PlanFile) :
    (∀ increments, (∀ i, i ∈ increments ↔ i ∈ plan.increments) →
      (resolvePlan semver { plan with increments } report.versionGroups versions).toOption =
        (resolvePlan semver plan report.versionGroups versions).toOption) ∧
    ∀ packages, resolvePlan semver plan report.versionGroups versions = .ok packages →
      (∀ i ∈ plan.increments, ∃ v, ∀ m ∈ report.versionGroups.closure i.name,
        packages[m]? = some v ∧ ∃ declared, versions[m]? = some declared ∧
          (semver.compare declared v).isLE) ∧
      ∀ name v, packages[name]? = some v →
        ∃ i ∈ plan.increments, name ∈ report.versionGroups.closure i.name := by
  refine ⟨fun increments hmem => resolvePlan_congr hmem, fun packages hok => ?_⟩
  obtain ⟨hclosures, honly⟩ := resolved_closures hsemver (coherent_versionGroups report)
    (ReportFile.contains_versionTargets hversions) hok
  exact ⟨fun i hi => (hclosures i hi).2, honly⟩

/-- Two packages in one group that declare different versions. -/
def groupedReport : ReportFile where
  schemaVersion := 8
  releaseHistory := "main".toList
  mergeTarget := none
  packages := [("a", "1.0.0"), ("b", "1.1.0")].map fun entry =>
    { name := entry.1.toList
      declaredVersion := entry.2.toList
      group := some "a".toList
      status := .unchanged
      anchor := some ⟨entry.2.toList⟩
      changed := []
      dependencies := []
      publicOrigins := []
      dependents := [] }
  nonPublishablePackages := []
  groups := (∅ : ExtTreeMap Text ReportGroup).insert "a".toList
    { members := ["a".toList, "b".toList], version := "1.1.0".toList }

def patchPlan : PlanFile where
  schemaVersion := 8
  releaseHistory := none
  mergeTarget := none
  expanded := false
  increments := [{ name := "b".toList, bump := some "patch".toList, version := none }]

def groupedVersions : ExtTreeMap Text Version :=
  ((∅ : ExtTreeMap Text Version).insert "a".toList
    { major := 1, minor := 0, patch := 0, fits := Version.one_fits }).insert
    "b".toList { major := 1, minor := 1, patch := 0 }

theorem versionTargets_groupedReport :
    groupedReport.versionTargets semverText = some groupedVersions := by
  have hfirst : readVersion "1.0.0".toList = some { major := 1, minor := 0, patch := 0 } := by decide
  have hsecond : readVersion "1.1.0".toList = some { major := 1, minor := 1, patch := 0 } := by decide
  show ([("a".toList, "1.0.0".toList), ("b".toList, "1.1.0".toList)] : List (Text × Text)).foldlM
    (fun (versions : ExtTreeMap Text Version) entry => do
      let version ← readVersion entry.2
      some (versions.insert entry.1 version)) ∅ = _
  simp only [List.foldlM_cons, List.foldlM_nil, hfirst, hsecond]
  rfl

theorem resolvePlan_groupedReport : ∃ packages,
    resolvePlan semverText patchPlan groupedReport.versionGroups groupedVersions = .ok packages ∧
      ∃ v, ∀ m ∈ groupedReport.versionGroups.closure "b".toList, packages[m]? = some v := by
  refine ⟨_, rfl, ?_⟩
  obtain ⟨v, hv⟩ := ((resolvePlan_spec ordered_semverText groupedReport versionTargets_groupedReport
    patchPlan).2 _ rfl).1 _ (List.mem_singleton_self _)
  exact ⟨v, fun m hm => (hv m hm).1⟩

end Folo.ReleasePlan
