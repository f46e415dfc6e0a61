import Folo.ReleasePlan.Consequences

/-!
# Expanded plans resolve to themselves

Resolved versions are settled: the packages of a group have one version, not
below any that is declared in it. `raise` keeps that, whatever is asked for. The
explicit plan of settled versions resolves to them again as long as no group is
left at a version that plans may not give it, one with a prerelease or with
build metadata (`resolvePlan_explicitPlan`). Increments never lead to such a
version; a group that only keeps what it declares may stay at one
(`explicitPlan_resolves_iff`).
-/

namespace Folo.ReleasePlan

open Folo.Lib Std

/-! ## Settled versions -/

structure Settled (semver : SemverCrate) (groups : Groups)
    (targetVersions resolved : ExtTreeMap Text Version) : Prop where
  targets : ∀ p v, resolved[p]? = some v → targetVersions.contains p = true
  whole : ∀ p, targetVersions.contains p = true → resolved[p]? = resolved[groups.keyOf p]?
  above : ∀ p v, resolved[p]? = some v → ∀ m ∈ groups.closure p, ∀ d,
    targetVersions[m]? = some d → (semver.compare d v).isLE

section Settled

variable {semver : SemverCrate} {groups : Groups} {targetVersions : ExtTreeMap Text Version}
  {targets : List Text}

/-- The members of a closure share what is resolved of it. -/
theorem Settled.closure {resolved : ExtTreeMap Text Version}
    (h : Settled semver groups targetVersions resolved) (hgroups : groups.Coherent targets)
    (htargets : ∀ name, targetVersions.contains name = true ↔ name ∈ targets) {p m : Text}
    (hp : p ∈ targets) (hm : m ∈ groups.closure p) : resolved[m]? = resolved[p]? := by
  obtain ⟨hm, hkey⟩ := (Groups.mem_closure_iff hgroups hp).mp hm
  rw [h.whole m ((htargets m).mpr hm), h.whole p ((htargets p).mpr hp), hkey]

/-- What a plan resolves to is settled. -/
theorem settled_of_resolvePlan (hsemver : semver.Ordered) (hgroups : groups.Coherent targets)
    (htargets : ∀ name, targetVersions.contains name = true ↔ name ∈ targets) {plan : PlanFile}
    {packages : ExtTreeMap Text Version}
    (hok : resolvePlan semver plan groups targetVersions = .ok packages) :
    Settled semver groups targetVersions packages := by
  obtain ⟨hclosures, honly⟩ := resolved_closures hsemver hgroups htargets hok
  -- a package that is planned is in the closure of an increment, which is that of its key
  have hkey : ∀ p v, packages[p]? = some v → p ∈ targets ∧ ∀ m ∈ targets,
      groups.keyOf m = groups.keyOf p → packages[m]? = some v ∧ ∃ declared,
        targetVersions[m]? = some declared ∧ (semver.compare declared v).isLE := by
    intro p v hp
    obtain ⟨i, hi, hmem⟩ := honly p v hp
    obtain ⟨hin, w, hw⟩ := hclosures i hi
    obtain ⟨hpin, hpkey⟩ := (Groups.mem_closure_iff hgroups hin).mp hmem
    obtain rfl : w = v := by
      have hsame := (hw p hmem).1
      rw [hp] at hsame
      exact (Option.some.inj hsame).symm
    exact ⟨hpin, fun m hm hmkey =>
      hw m ((Groups.mem_closure_iff hgroups hin).mpr ⟨hm, hmkey.trans hpkey⟩)⟩
  constructor
  · intro p v hp
    exact (htargets p).mpr (hkey p v hp).1
  · intro p hp
    have hp := (htargets p).mp hp
    cases hv : packages[p]? with
    | some v =>
      have hself := Groups.keyOf_mem hgroups hp
      exact ((hkey p v hv).2 _ hself (Groups.keyOf_keyOf hgroups p)).1.symm
    | none =>
      cases hv' : packages[groups.keyOf p]? with
      | none => rfl
      | some v =>
        have hsame := ((hkey _ v hv').2 p hp (Groups.keyOf_keyOf hgroups p).symm).1
        rw [hv] at hsame
        nomatch hsame
  · intro p v hp m hm d hd
    obtain ⟨hpin, hall⟩ := hkey p v hp
    obtain ⟨hmin, hmkey⟩ := (Groups.mem_closure_iff hgroups hpin).mp hm
    obtain ⟨-, declared, hdeclared, hle⟩ := hall m hmin hmkey
    rw [hd] at hdeclared
    rwa [Option.some.inj hdeclared]

/-- Groups are only planned at plain versions. -/
theorem plain_of_resolvePlan (hsemver : semver.Ordered) (hgroups : groups.Coherent targets)
    (htargets : ∀ name, targetVersions.contains name = true ↔ name ∈ targets) {plan : PlanFile}
    {packages : ExtTreeMap Text Version}
    (hok : resolvePlan semver plan groups targetVersions = .ok packages) {p : Text} {v : Version}
    (hp : packages[p]? = some v) (hgroup : groups.groupOf p ≠ none) : v.Plain := by
  obtain ⟨-, -, decisions, hdecisions, hpackages, -⟩ := resolvePlan_eq_ok.mp hok
  obtain ⟨hnames, hdecided⟩ := decided_of_foldlM hgroups htargets hdecisions
  have hkeys : ∀ (key : Text) spec, decisions[key]? = some spec →
      ∃ t ∈ targets, groups.keyOf t = key := by
    intro key spec hspec
    obtain ⟨_, h⟩ | ⟨i, hi, hkey⟩ := (hdecided key).mp ⟨spec, hspec⟩
    · simp at h
    · exact ⟨i.name, hnames i hi, hkey⟩
  obtain ⟨hin, -⟩ := getElem?_of_foldlM (disjoint_members hgroups htargets hkeys) hpackages
  obtain ⟨i, hi, hmem⟩ := (resolved_closures hsemver hgroups htargets hok).2 p v hp
  obtain ⟨spec, hspec⟩ := (hdecided (groups.keyOf i.name)).mpr (.inr ⟨i, hi, rfl⟩)
  obtain ⟨w, hw, hmembers⟩ := hin _ (Iteration.sorted.mem_entries.mpr hspec)
  rw [Groups.membersForKey_keyOf hgroups ((htargets _).mpr (hnames i hi))] at hmembers
  have hsame := hmembers p hmem
  rw [hp] at hsame
  obtain rfl := Option.some.inj hsame
  have hkey := ((Groups.mem_closure_iff hgroups (hnames i hi)).mp hmem).2
  have hnonempty : (groups.members (groups.keyOf i.name)).isEmpty = false := by
    rw [← hkey, Groups.members_keyOf_isEmpty hgroups]
    cases hg : groups.groupOf p with
    | none => exact absurd hg hgroup
    | some g => rfl
  unfold decidedFor at hw
  split at hw
  next => nomatch hw
  next highest _ =>
    unfold decidedVersion at hw
    split at hw
    next version =>
      split at hw
      next => nomatch hw
      next =>
        split at hw
        next => nomatch hw
        next hplain =>
          obtain rfl := Except.ok.inj hw
          simp only [hnonempty, Bool.not_false, Bool.true_and, Bool.or_eq_true,
            Bool.not_eq_true', not_or, Bool.not_eq_false, List.isEmpty_iff] at hplain
          exact hplain
    next => exact plain_incrementVersion hw

/-! ## The explicit plan of settled versions -/

/-- What the explicit plan decides of a key is the version that was resolved. -/
theorem exists_decisions (hreads : semver.ReadsBack) (hgroups : groups.Coherent targets)
    (htargets : ∀ name, targetVersions.contains name = true ↔ name ∈ targets)
    {resolved : ExtTreeMap Text Version} (hsettled : Settled semver groups targetVersions resolved)
    {entries : List (Text × Version)} (hentries : ∀ e ∈ entries, resolved[e.1]? = some e.2)
    {before : ExtTreeMap Text IncrementSpec}
    (hbefore : ∀ (key : Text) (spec : IncrementSpec), before[key]? = some spec →
      ∃ v, resolved[key]? = some v ∧ spec = .version v) :
    ∃ decisions, (entries.map fun entry => PlanIncrement.mk entry.1 none
        (some entry.2.display)).foldlM (addIncrement semver groups targetVersions) before =
          .ok decisions ∧
      ∀ (key : Text) (spec : IncrementSpec), decisions[key]? = some spec →
        ∃ v, resolved[key]? = some v ∧ spec = .version v := by
  induction entries generalizing before with
  | nil => exact ⟨before, rfl, hbefore⟩
  | cons e entries ih =>
    obtain ⟨he, hentries⟩ := List.forall_mem_cons.mp hentries
    have hin := hsettled.targets e.1 e.2 he
    have hkey := (hsettled.whole e.1 hin).symm.trans he
    have hspec : PlanIncrement.spec semver ⟨e.1, none, some e.2.display⟩ =
        .ok (.version e.2) := by
      unfold PlanIncrement.spec
      dsimp only
      rw [hreads e.2]
    -- what is there already is the same decision
    have hadd : ∃ next, addDecision (.version e.2) before (groups.keyOf e.1) = .ok next ∧
        ∀ (key : Text) spec, next[key]? = some spec →
          ∃ v, resolved[key]? = some v ∧ spec = .version v := by
      have hjoined : joined (groups.keyOf e.1) (.version e.2) before[groups.keyOf e.1]? =
          some (.version e.2) := by
        cases hold : before[groups.keyOf e.1]? with
        | none => rfl
        | some spec =>
          obtain ⟨v, hv, rfl⟩ := hbefore _ _ hold
          rw [hkey] at hv
          obtain rfl := Option.some.inj hv
          show ((IncrementSpec.version e.2).merge _ (.version e.2)).toOption = _
          rw [toOption_merge_version, if_pos rfl]
      refine ⟨_, addDecision_eq_ok.mpr ⟨_, hjoined, rfl⟩, fun key spec hget => ?_⟩
      rw [getElem?_insert] at hget
      split at hget
      next heq => exact ⟨e.2, heq ▸ hkey, (Option.some.inj hget).symm⟩
      next => exact hbefore key spec hget
    obtain ⟨next, hnext, hinv⟩ := hadd
    obtain ⟨decisions, hfold, hdecisions⟩ := ih hentries hinv
    refine ⟨decisions, ?_, hdecisions⟩
    rw [List.map_cons, List.foldlM_cons]
    exact bind_eq_ok.mpr ⟨next, (addIncrement_eq_ok hgroups htargets).mpr
      ⟨(htargets _).mp hin, _, hspec, hnext⟩, hfold⟩

theorem exists_packages {entries : List (Text × IncrementSpec)}
    (h : ∀ e ∈ entries, ∃ v, decidedFor semver groups targetVersions e = .ok v)
    (before : ExtTreeMap Text Version) :
    ∃ packages, entries.foldlM (resolveDecision semver groups targetVersions) before =
      .ok packages := by
  induction entries generalizing before with
  | nil => exact ⟨before, rfl⟩
  | cons e entries ih =>
    obtain ⟨⟨v, hv⟩, hrest⟩ := List.forall_mem_cons.mp h
    obtain ⟨packages, hpackages⟩ := ih hrest _
    refine ⟨packages, ?_⟩
    rw [List.foldlM_cons]
    exact bind_eq_ok.mpr ⟨_, resolveDecision_eq_ok.mpr ⟨v, hv, rfl⟩, hpackages⟩

/-- A version that is settled of a package is decided of its key, unless it
is not plain and there is a group. -/
theorem decidedFor_version (hsemver : semver.Ordered) (hgroups : groups.Coherent targets)
    (htargets : ∀ name, targetVersions.contains name = true ↔ name ∈ targets)
    {resolved : ExtTreeMap Text Version} (hsettled : Settled semver groups targetVersions resolved)
    {p : Text} {v : Version} (hp : resolved[p]? = some v)
    (hplain : groups.groupOf p ≠ none → v.Plain) :
    decidedFor semver groups targetVersions (groups.keyOf p, .version v) = .ok v := by
  have := hsemver.trans
  have hin := hsettled.targets p v hp
  unfold decidedFor
  rw [Groups.membersForKey_keyOf hgroups hin]
  split
  next hnone =>
    -- the package itself declares a version
    obtain ⟨declared, hdeclared⟩ := Option.isSome_iff_exists.mp
      ((ExtTreeMap.isSome_getElem?_eq_contains (t := targetVersions)).trans hin)
    have hmem : declared ∈ (groups.closure p).filterMap (targetVersions[·]?) :=
      List.mem_filterMap.mpr ⟨p, Groups.self_mem_closure hgroups ((htargets p).mp hin), hdeclared⟩
    cases hversions : (groups.closure p).filterMap (targetVersions[·]?) with
    | nil =>
      rw [hversions] at hmem
      nomatch hmem
    | cons first rest =>
      rw [hversions] at hnone
      nomatch hnone
  next highest hmax =>
    obtain ⟨hmem, -⟩ := maxVersion_spec hsemver hmax
    obtain ⟨m, hm, hdeclared⟩ := List.mem_filterMap.mp hmem
    have hle := hsettled.above p v hp m hm highest hdeclared
    unfold decidedVersion
    dsimp only
    rw [if_neg]
    · rw [if_neg]
      rw [Groups.members_keyOf_isEmpty hgroups]
      cases hg : groups.groupOf p with
      | none => exact fun h => nomatch h
      | some g =>
        obtain ⟨hpre, hbuild⟩ := hplain fun h => by
          rw [hg] at h
          nomatch h
        rw [hpre, hbuild]
        exact fun h => nomatch h
    · intro hlt
      rw [OrientedCmp.gt_of_lt hlt] at hle
      nomatch hle

/-- The explicit plan of settled versions resolves to them, exactly when every
group among them has a plain version. -/
theorem resolvePlan_explicitPlan (hsemver : semver.Ordered) (hreads : semver.ReadsBack)
    (hgroups : groups.Coherent targets)
    (htargets : ∀ name, targetVersions.contains name = true ↔ name ∈ targets)
    {resolved : ExtTreeMap Text Version}
    (hsettled : Settled semver groups targetVersions resolved) :
    resolvePlan semver (explicitPlan resolved) groups targetVersions = .ok resolved ↔
      ∀ (p : Text) (v : Version), resolved[p]? = some v → groups.groupOf p ≠ none →
        v.Plain := by
  constructor
  · intro hok p v hp hgroup
    exact plain_of_resolvePlan hsemver hgroups htargets hok hp hgroup
  · intro hplain
    have hentries : ∀ e ∈ resolved.toList, resolved[e.1]? = some e.2 :=
      fun e he => Iteration.sorted.mem_entries.mp he
    have hempty : ∀ (key : Text) (spec : IncrementSpec),
        (∅ : ExtTreeMap Text IncrementSpec)[key]? = some spec →
          ∃ v, resolved[key]? = some v ∧ spec = .version v := fun key spec h => by simp at h
    obtain ⟨decisions, hdecisions, hversion⟩ :=
      exists_decisions hreads hgroups htargets hsettled hentries hempty
    have hfold : (explicitPlan resolved).increments.foldlM
        (addIncrement semver groups targetVersions) ∅ = .ok decisions := hdecisions
    obtain ⟨-, hdecided⟩ := decided_of_foldlM hgroups htargets hfold
    -- every decision is about the key of a package that was resolved
    have hkeys : ∀ (key : Text) spec, decisions[key]? = some spec →
        ∃ p v, resolved[p]? = some v ∧ groups.keyOf p = key ∧ spec = .version v := by
      intro key spec hspec
      obtain ⟨v, hv, rfl⟩ := hversion key spec hspec
      obtain ⟨_, h⟩ | ⟨i, hi, hkey⟩ := (hdecided key).mp ⟨_, hspec⟩
      · simp at h
      · obtain ⟨e, he, rfl⟩ := List.mem_map.mp hi
        have he := hentries e he
        have hsame := (hsettled.whole e.1 (hsettled.targets _ _ he)).symm.trans he
        dsimp only at hkey
        rw [hkey, hv] at hsame
        exact ⟨e.1, e.2, he, hkey, by rw [Option.some.inj hsame]⟩
    have htarget : ∀ (p : Text) v, resolved[p]? = some v → p ∈ targets :=
      fun p v hp => (htargets p).mp (hsettled.targets p v hp)
    have hdecides : ∀ e ∈ decisions.toList,
        ∃ v, decidedFor semver groups targetVersions e = .ok v := by
      intro e he
      obtain ⟨p, v, hp, hkey, hspec⟩ := hkeys e.1 e.2 (Iteration.sorted.mem_entries.mp he)
      obtain ⟨key, spec⟩ := e
      dsimp only at hkey hspec
      subst hkey hspec
      exact ⟨v, decidedFor_version hsemver hgroups htargets hsettled hp (hplain p v hp)⟩
    obtain ⟨packages, hpackages⟩ := exists_packages hdecides ∅
    obtain ⟨hin, hout⟩ := getElem?_of_foldlM (disjoint_members hgroups htargets
      fun key spec hspec => by
        obtain ⟨p, v, hp, hkey, -⟩ := hkeys key spec hspec
        exact ⟨p, htarget p v hp, hkey⟩) hpackages
    have hequal : packages = resolved := by
      refine ExtTreeMap.ext_getElem? fun m => ?_
      by_cases hm : ∃ e ∈ decisions.toList, m ∈ membersForKey e.1 groups targetVersions
      · obtain ⟨⟨key, spec⟩, he, hmem⟩ := hm
        obtain ⟨p, v, hp, hkey, hspec⟩ := hkeys key spec (Iteration.sorted.mem_entries.mp he)
        obtain ⟨w, hw, hmembers⟩ := hin _ he
        subst hkey hspec
        rw [decidedFor_version hsemver hgroups htargets hsettled hp (hplain p v hp)] at hw
        rw [hmembers m hmem, ← Except.ok.inj hw]
        rw [Groups.membersForKey_keyOf hgroups (hsettled.targets p v hp)] at hmem
        rw [hsettled.closure hgroups htargets (htarget p v hp) hmem, hp]
      · rw [hout m fun e he hmem => hm ⟨e, he, hmem⟩]
        cases hget : resolved[m]? with
        | none => simp
        | some v =>
          -- an entry of its own decides its key
          obtain ⟨spec, hspec⟩ := (hdecided (groups.keyOf m)).mpr (.inr
            ⟨_, List.mem_map.mpr ⟨(m, v), Iteration.sorted.mem_entries.mpr hget, rfl⟩, rfl⟩)
          refine absurd ⟨_, Iteration.sorted.mem_entries.mpr hspec, ?_⟩ hm
          rw [Groups.membersForKey_keyOf hgroups (hsettled.targets m v hget)]
          exact Groups.self_mem_closure hgroups (htarget m v hget)
    subst hequal
    refine resolvePlan_eq_ok.mpr ⟨rfl, ?_, decisions, hfold, hpackages, ?_⟩
    · unfold PlanFile.checkResolved explicitPlan
      simp
    · unfold PlanFile.checkNamed
      have hnamed : (packages.keys.filter fun package => !(explicitPlan packages).increments.any
          fun increment => decide (increment.name = package)) = [] := by
        rw [List.filter_eq_nil_iff]
        intro package hpackage
        rw [ExtTreeMap.mem_keys] at hpackage
        obtain ⟨v, hv⟩ := Option.isSome_iff_exists.mp
          (ExtTreeMap.isSome_getElem?_iff_mem.mpr hpackage)
        simp only [Bool.not_eq_true', Bool.not_eq_false, List.any_eq_true, decide_eq_true_eq]
        exact ⟨_, List.mem_map.mpr ⟨(package, v), Iteration.sorted.mem_entries.mpr hv, rfl⟩, rfl⟩
      simp only [hnamed]
      rfl

end Settled

/-! ## Raising -/

section Raising

variable {semver : SemverCrate} {groups : Groups} {targetVersions : ExtTreeMap Text Version}
  {targets : List Text}

theorem raise_eq (hgroups : groups.Coherent targets)
    (targetVersions resolved : ExtTreeMap Text Version) (t : Text) (minimum : Version) :
    raise semver groups targetVersions resolved t minimum =
      (groups.closure t).foldl (fun raised member => raised.insert member
        ((maxVersion semver ((groups.closure t).filterMap
          (fun name => resolved[name]? <|> targetVersions[name]?) ++ [minimum])).getD minimum))
        resolved := by
  unfold raise Groups.closure
  cases hg : groups.groupOf t with
  | some g =>
    have hin := (Groups.members_eq_of_groupOf hgroups hg).2
    simp only [Option.getD_some]
    cases hms : groups.members g with
    | nil =>
      rw [hms] at hin
      nomatch hin
    | cons first rest => simp only
  | none => simp only [Option.getD_none, Groups.members_eq_nil hgroups hg]

/-- `raise` gives the closure of its target one version, which is the minimum
or one that a member has already, and not below any of these. -/
theorem raise_spec (hsemver : semver.Ordered) (hgroups : groups.Coherent targets)
    (targetVersions resolved : ExtTreeMap Text Version) (t : Text) (minimum : Version) :
    ∃ top, (∀ m, (raise semver groups targetVersions resolved t minimum)[m]? =
        if m ∈ groups.closure t then some top else resolved[m]?) ∧
      (semver.compare minimum top).isLE ∧
      (∀ m ∈ groups.closure t, ∀ v, (resolved[m]? <|> targetVersions[m]?) = some v →
        (semver.compare v top).isLE) ∧
      (top = minimum ∨
        ∃ m ∈ groups.closure t, (resolved[m]? <|> targetVersions[m]?) = some top) := by
  have hmax : ∃ top, maxVersion semver ((groups.closure t).filterMap
      (fun name => resolved[name]? <|> targetVersions[name]?) ++ [minimum]) = some top := by
    cases (groups.closure t).filterMap (fun name => resolved[name]? <|> targetVersions[name]?) with
    | nil => exact ⟨_, rfl⟩
    | cons first rest => exact ⟨_, rfl⟩
  obtain ⟨top, htop⟩ := hmax
  obtain ⟨hmem, hall⟩ := maxVersion_spec hsemver htop
  refine ⟨top, fun m => ?_, hall _ (List.mem_append_right _ (List.mem_singleton_self _)),
    fun m hm v hv => ?_, ?_⟩
  · rw [raise_eq hgroups, htop, Option.getD_some, getElem?_foldl_insert_const]
    by_cases hm : m ∈ groups.closure t
    · rw [if_pos hm, if_pos hm]
    · rw [if_neg hm, if_neg hm]
  · exact hall v (List.mem_append_left _ (List.mem_filterMap.mpr ⟨m, hm, hv⟩))
  · rcases List.mem_append.mp hmem with hmem | hmem
    · exact .inr (List.mem_filterMap.mp hmem)
    · exact .inl (List.mem_singleton.mp hmem)

/-- What was raised from some versions by what was asked. -/
structure RaisedFrom (semver : SemverCrate) (groups : Groups)
    (targetVersions before : ExtTreeMap Text Version) (asked : List (Text × Version))
    (resolved : ExtTreeMap Text Version) : Prop where
  settled : Settled semver groups targetVersions resolved
  kept : ∀ (p : Text) v, before[p]? = some v →
    ∃ w, resolved[p]? = some w ∧ (semver.compare v w).isLE
  reached : ∀ r ∈ asked, ∀ m ∈ groups.closure r.1,
    ∃ w, resolved[m]? = some w ∧ (semver.compare r.2 w).isLE
  /-- a version is there from before, declared or asked for -/
  origin : ∀ (p : Text) v, resolved[p]? = some v → before[p]? = some v ∨
    ∃ m ∈ groups.closure p, targetVersions[m]? = some v ∨ (m, v) ∈ asked
  only : ∀ (p : Text) v, resolved[p]? = some v → before[p]? = none →
    ∃ m ∈ groups.closure p, ∃ u, (m, u) ∈ asked

/-- The step: one more raise. -/
theorem RaisedFrom.raise (hsemver : semver.Ordered) (hgroups : groups.Coherent targets)
    (htargets : ∀ name, targetVersions.contains name = true ↔ name ∈ targets)
    {before resolved : ExtTreeMap Text Version} {asked : List (Text × Version)}
    (h : RaisedFrom semver groups targetVersions before asked resolved) {t : Text} (ht : t ∈ targets)
    (minimum : Version) : RaisedFrom semver groups targetVersions before
      (asked ++ [(t, minimum)]) (ReleasePlan.raise semver groups targetVersions resolved t
        minimum) := by
  have := hsemver.trans
  obtain ⟨top, hget, hminimum, hall, htop⟩ :=
    raise_spec hsemver hgroups targetVersions resolved t minimum
  -- what a member has, resolved or declared, is not above the new version
  have hresolved : ∀ m ∈ groups.closure t, ∀ v, resolved[m]? = some v →
      (semver.compare v top).isLE := by
    intro m hm v hv
    refine hall m hm v ?_
    rw [hv]
    rfl
  have hdeclared : ∀ m ∈ groups.closure t, ∀ d, targetVersions[m]? = some d →
      (semver.compare d top).isLE := by
    intro m hm d hd
    cases hv : resolved[m]? with
    | none =>
      refine hall m hm d ?_
      rw [hv, hd]
      rfl
    | some v =>
      have hself := Groups.self_mem_closure hgroups ((Groups.mem_closure_iff hgroups ht).mp hm).1
      exact TransCmp.isLE_trans (h.settled.above m v hv m hself d hd) (hresolved m hm v hv)
  have hsame : ∀ p ∈ groups.closure t, ∀ m, m ∈ groups.closure p ↔ m ∈ groups.closure t := by
    intro p hp m
    obtain ⟨hpin, hkey⟩ := (Groups.mem_closure_iff hgroups ht).mp hp
    rw [Groups.mem_closure_iff hgroups hpin, Groups.mem_closure_iff hgroups ht, hkey]
  have hwider : ∀ r, r ∈ asked → r ∈ asked ++ [(t, minimum)] := fun r => List.mem_append_left _
  constructor
  · constructor
    · intro p v hp
      rw [hget] at hp
      split at hp
      next hin => exact (htargets p).mpr ((Groups.mem_closure_iff hgroups ht).mp hin).1
      next => exact h.settled.targets p v hp
    · intro p hp
      have hpin := (htargets p).mp hp
      have hkey := Groups.keyOf_mem hgroups hpin
      rw [hget, hget]
      have hiff : p ∈ groups.closure t ↔ groups.keyOf p ∈ groups.closure t := by
        rw [Groups.mem_closure_iff hgroups ht, Groups.mem_closure_iff hgroups ht,
          Groups.keyOf_keyOf hgroups, and_iff_right hpin, and_iff_right hkey]
      by_cases hin : p ∈ groups.closure t
      · rw [if_pos hin, if_pos (hiff.mp hin)]
      · rw [if_neg hin, if_neg fun h => hin (hiff.mpr h)]
        exact h.settled.whole p hp
    · intro p v hp m hm d hd
      rw [hget] at hp
      split at hp
      next hin =>
        rw [← Option.some.inj hp]
        exact hdeclared m ((hsame p hin m).mp hm) d hd
      next => exact h.settled.above p v hp m hm d hd
  · intro p v hp
    obtain ⟨w, hw, hle⟩ := h.kept p v hp
    rw [hget]
    by_cases hin : p ∈ groups.closure t
    · exact ⟨top, if_pos hin, TransCmp.isLE_trans hle (hresolved p hin w hw)⟩
    · exact ⟨w, by rw [if_neg hin, hw], hle⟩
  · intro r hr m hm
    rw [hget]
    rcases List.mem_append.mp hr with hr | hr
    · obtain ⟨w, hw, hle⟩ := h.reached r hr m hm
      by_cases hin : m ∈ groups.closure t
      · exact ⟨top, if_pos hin, TransCmp.isLE_trans hle (hresolved m hin w hw)⟩
      · exact ⟨w, by rw [if_neg hin, hw], hle⟩
    · obtain rfl := List.mem_singleton.mp hr
      exact ⟨top, if_pos hm, hminimum⟩
  · intro p v hp
    rw [hget] at hp
    split at hp
    next hin =>
      obtain rfl := Option.some.inj hp
      rcases htop with rfl | ⟨m, hm, hv⟩
      · exact .inr ⟨t, (hsame p hin t).mpr (Groups.self_mem_closure hgroups ht),
          .inr (List.mem_append_right _ (List.mem_singleton_self _))⟩
      · cases hm' : resolved[m]? with
        | none =>
          rw [hm'] at hv
          exact .inr ⟨m, (hsame p hin m).mpr hm, .inl hv⟩
        | some w =>
          rw [hm'] at hv
          obtain rfl : w = top := Option.some.inj hv
          have hpin := ((Groups.mem_closure_iff hgroups ht).mp hin).1
          have hp := h.settled.closure hgroups htargets hpin ((hsame p hin m).mpr hm)
          rcases h.origin p w (hp.symm.trans hm') with hbefore | ⟨n, hn, hfrom⟩
          · exact .inl hbefore
          · exact .inr ⟨n, hn, hfrom.imp_right (hwider _)⟩
    next =>
      rcases h.origin p v hp with hbefore | ⟨n, hn, hfrom⟩
      · exact .inl hbefore
      · exact .inr ⟨n, hn, hfrom.imp_right (hwider _)⟩
  · intro p v hp hnone
    rw [hget] at hp
    split at hp
    next hin =>
      exact ⟨t, (hsame p hin t).mpr (Groups.self_mem_closure hgroups ht), minimum,
        List.mem_append_right _ (List.mem_singleton_self _)⟩
    next =>
      obtain ⟨m, hm, u, hu⟩ := h.only p v hp hnone
      exact ⟨m, hm, u, hwider _ hu⟩

/-- The run: whatever is asked for, in its order. -/
theorem raisedFrom_foldl (hsemver : semver.Ordered) (hgroups : groups.Coherent targets)
    (htargets : ∀ name, targetVersions.contains name = true ↔ name ∈ targets)
    {before : ExtTreeMap Text Version} (hbefore : Settled semver groups targetVersions before)
    {asked : List (Text × Version)} (hasked : ∀ r ∈ asked, r.1 ∈ targets) :
    RaisedFrom semver groups targetVersions before asked (asked.foldl
      (fun resolved r => ReleasePlan.raise semver groups targetVersions resolved r.1 r.2)
      before) := by
  have := hsemver.trans
  suffices hfrom : ∀ (rest done : List (Text × Version)) (resolved : ExtTreeMap Text Version),
      (∀ r ∈ rest, r.1 ∈ targets) →
      RaisedFrom semver groups targetVersions before done resolved →
      RaisedFrom semver groups targetVersions before (done ++ rest) (rest.foldl
        (fun resolved r => ReleasePlan.raise semver groups targetVersions resolved r.1 r.2)
        resolved) by
    refine hfrom asked [] before hasked ⟨hbefore, fun p v hp => ⟨v, hp, ReflCmp.isLE_rfl⟩, ?_,
      fun p v hp => .inl hp, fun p v hp hnone => ?_⟩
    · exact fun r hr => nomatch hr
    · rw [hp] at hnone
      nomatch hnone
  intro rest
  induction rest with
  | nil =>
    intro done resolved _ h
    rw [List.append_nil]
    exact h
  | cons r rest ih =>
    intro done resolved hrest h
    obtain ⟨hr, hrest⟩ := List.forall_mem_cons.mp hrest
    have hnext := ih (done ++ [r]) _ hrest (h.raise hsemver hgroups htargets hr r.2)
    rw [List.append_assoc] at hnext
    exact hnext

end Raising

/-! ## The explicit plan of what was raised -/

section Expanded

variable {semver : SemverCrate} (c : Classification)

theorem coherent_membership : c.membership.Coherent c.versions.keys :=
  Groups.coherent_fromEdges ExtTreeMap.nodup_keys _

theorem contains_versions (name : Text) :
    c.versions.contains name = true ↔ name ∈ c.versions.keys := by
  rw [ExtTreeMap.mem_keys, ExtTreeMap.contains_iff_mem]

variable {c}

/-- What is asked for is about a target, and is plain or declared in its group. -/
theorem Classification.Asks.spec (hsemver : semver.Ordered) {t : Text} {v : Version}
    (h : c.Asks semver t v) : t ∈ c.versions.keys ∧
      (v.Plain ∨ ∃ m ∈ c.membership.closure t, c.versions[m]? = some v) := by
  have hgroups := coherent_membership c
  have hself : ∀ {p : Text}, c.versions[p]? = some v →
      p ∈ c.versions.keys ∧ ∃ m ∈ c.membership.closure p, c.versions[m]? = some v := by
    intro p hp
    have hin : p ∈ c.versions.keys :=
      ExtTreeMap.mem_keys.mpr (ExtTreeMap.isSome_getElem?_iff_mem.mp (hp ▸ rfl))
    exact ⟨hin, p, Groups.self_mem_closure hgroups hin, hp⟩
  cases h with
  | group hmembers hverdict _ =>
    obtain ⟨hname, hsub⟩ := hgroups.named _ _ hmembers
    refine ⟨hsub hname, .inr ?_⟩
    unfold GroupVerdict.new at hverdict
    obtain ⟨_, -, hverdict⟩ := Option.bind_eq_some_iff.mp hverdict
    obtain ⟨declared, hdeclared, hverdict⟩ := Option.bind_eq_some_iff.mp hverdict
    obtain ⟨highest, hmax, hverdict⟩ := Option.bind_eq_some_iff.mp hverdict
    obtain rfl := Option.some.inj hverdict
    -- the verdict's version is one that a member declares
    have hmem := (maxVersion_spec hsemver hmax).1
    obtain ⟨m, hm, hv⟩ := exists_source_of_mapM_eq_some hdeclared _ hmem
    refine ⟨m, ?_, hv⟩
    rw [(Groups.closure_of_mem hgroups hmembers hname).2]
    exact hm
  | increment hpackage _ _ hminimum =>
    exact ⟨(contains_versions c _).mp (c.tracked _ hpackage),
      .inl (plain_incrementVersion hminimum)⟩
  | dependency _ _ hversion _ => exact ⟨(hself hversion).1, .inr (hself hversion).2⟩
  | exposing hpackage _ _ _ _ hminimum =>
    exact ⟨(contains_versions c _).mp (c.tracked _ hpackage),
      .inl (plain_incrementVersion hminimum)⟩
  | exact _ hversion _ => exact ⟨(hself hversion).1, .inr (hself hversion).2⟩

/-- Every group that the plan does not name, and of which the workspace asks for
a version, declares a plain version at most or is asked for a greater one. -/
def Classification.KeepsPlain (c : Classification) (semver : SemverCrate) (plan : PlanFile) :
    Prop :=
  ∀ (group : Text) members, c.membership.byName[group]? = some members →
    (∀ i ∈ plan.increments, i.name ∉ members) → (∃ m ∈ members, ∃ v, c.Asks semver m v) →
    ∀ highest, maxVersion semver (members.filterMap (c.versions[·]?)) = some highest →
      highest.Plain ∨ ∃ m ∈ members, ∃ v, c.Asks semver m v ∧ semver.compare highest v = .lt

/-- The explicit plan of what a plan resolves to, after `add_consequences`,
resolves to the same versions, unless a group that the plan does not name stays
at a declared version that is not plain. -/
theorem explicitPlan_resolves_iff (hsemver : semver.Ordered) (hreads : semver.ReadsBack)
    (c : Classification) {plan : PlanFile} {resolved expanded : ExtTreeMap Text Version}
    (hplan : resolvePlan semver plan c.membership c.versions = .ok resolved)
    (hexpanded : c.addConsequences semver resolved = .ok expanded) :
    resolvePlan semver (explicitPlan expanded) c.membership c.versions = .ok expanded ↔
      c.KeepsPlain semver plan := by
  have := hsemver.trans
  have hgroups := coherent_membership c
  have htargets := contains_versions c
  have hsettled := settled_of_resolvePlan hsemver hgroups htargets hplan
  obtain ⟨asked, hafter, hasked⟩ := Classification.raises_addConsequences hexpanded
  have hraised : RaisedFrom semver c.membership c.versions resolved asked expanded := by
    rw [hafter]
    exact raisedFrom_foldl hsemver hgroups htargets hsettled fun r hr =>
      (((hasked r.1 r.2).mp hr).spec hsemver).1
  rw [resolvePlan_explicitPlan hsemver hreads hgroups htargets hraised.settled]
  -- a member of a group, and whether the plan names it
  have hmember : ∀ (g : Text) ms, c.membership.byName[g]? = some ms → ∀ p ∈ ms,
      c.membership.groupOf p = some g ∧ c.membership.closure p = ms :=
    fun g ms hms p hp => Groups.closure_of_mem hgroups hms hp
  have hnamed : ∀ (g : Text) ms, c.membership.byName[g]? = some ms →
      (∀ i ∈ plan.increments, i.name ∉ ms) → ∀ p ∈ ms, resolved[p]? = none := by
    intro g ms hms hnot p hp
    obtain ⟨hclosures, honly⟩ := resolved_closures hsemver hgroups htargets hplan
    cases hv : resolved[p]? with
    | none => rfl
    | some v =>
      obtain ⟨i, hi, hin⟩ := honly p v hv
      refine absurd ?_ (hnot i hi)
      have hiin := (hclosures i hi).1
      obtain ⟨hpin, hkey⟩ := (Groups.mem_closure_iff hgroups hiin).mp hin
      rw [← (hmember g ms hms p hp).2]
      exact (Groups.mem_closure_iff hgroups hpin).mpr ⟨hiin, hkey.symm⟩
  constructor
  · intro hplain g ms hms hnot hasks highest hhighest
    obtain ⟨m, hm, u, hu⟩ := hasks
    obtain ⟨hgroup, hclosure⟩ := hmember g ms hms m hm
    obtain ⟨w, hw, -⟩ := hraised.reached (m, u) ((hasked m u).mpr hu) m (by
      rw [hclosure]
      exact hm)
    have hwplain : w.Plain := hplain m w hw fun h => by
      rw [hgroup] at h
      nomatch h
    obtain ⟨hmem, hall⟩ := maxVersion_spec hsemver hhighest
    obtain ⟨n, hn, hdeclared⟩ := List.mem_filterMap.mp hmem
    have hle := hraised.settled.above m w hw n (hclosure ▸ hn) highest hdeclared
    -- the version of the group is the highest that is declared, or asked for
    rcases hraised.origin m w hw with hbefore | ⟨k, hk, hdeclares | hasks⟩
    · rw [hnamed g ms hms hnot m hm] at hbefore
      nomatch hbefore
    · have hge := hall w (List.mem_filterMap.mpr ⟨k, hclosure ▸ hk, hdeclares⟩)
      rw [hsemver.eq_of_compare _ _ (OrientedCmp.isLE_antisymm hle hge)]
      exact .inl hwplain
    · cases hcompare : semver.compare highest w with
      | lt => exact .inr ⟨k, hclosure ▸ hk, w, (hasked k w).mp hasks, hcompare⟩
      | eq =>
        rw [hsemver.eq_of_compare _ _ hcompare]
        exact .inl hwplain
      | gt =>
        rw [hcompare] at hle
        nomatch hle
  · intro hkeeps p v hp hgroup
    obtain ⟨g, hg⟩ := Option.ne_none_iff_exists'.mp hgroup
    obtain ⟨ms, hms, hpin⟩ := (hgroups.member p g).mp hg
    have hclosure := (hmember g ms hms p hpin).2
    have htarget := (htargets p).mp (hraised.settled.targets p v hp)
    -- a version that is declared in the group is its highest, and is plain
    have hdeclared : ∀ n ∈ c.membership.closure p, c.versions[n]? = some v → v.Plain := by
      intro n hn hv
      have hsome : ∃ highest,
          maxVersion semver (ms.filterMap (c.versions[·]?)) = some highest := by
        have hmem : v ∈ ms.filterMap (c.versions[·]?) :=
          List.mem_filterMap.mpr ⟨n, hclosure ▸ hn, hv⟩
        cases hlist : ms.filterMap (c.versions[·]?) with
        | nil =>
          rw [hlist] at hmem
          nomatch hmem
        | cons first rest => exact ⟨_, rfl⟩
      obtain ⟨highest, hhighest⟩ := hsome
      obtain ⟨hmem, hall⟩ := maxVersion_spec hsemver hhighest
      obtain ⟨k, hk, hkdeclared⟩ := List.mem_filterMap.mp hmem
      have hle := hraised.settled.above p v hp k (hclosure ▸ hk) highest hkdeclared
      have hge := hall v (List.mem_filterMap.mpr ⟨n, hclosure ▸ hn, hv⟩)
      obtain rfl := hsemver.eq_of_compare _ _ (OrientedCmp.isLE_antisymm hle hge)
      cases hbefore : resolved[p]? with
      | some w =>
        obtain ⟨w', hw', hkept⟩ := hraised.kept p w hbefore
        rw [hp] at hw'
        obtain rfl := Option.some.inj hw'
        have habove := hsettled.above p w hbefore n hn highest hv
        rw [hsemver.eq_of_compare _ _ (OrientedCmp.isLE_antisymm habove hkept)]
        exact plain_of_resolvePlan hsemver hgroups htargets hplan hbefore hgroup
      | none =>
        obtain ⟨m, hm, u, hu⟩ := hraised.only p highest hp hbefore
        have hnot : ∀ i ∈ plan.increments, i.name ∉ ms := by
          intro i hi hin
          obtain ⟨w, hw⟩ := ((resolved_closures hsemver hgroups htargets hplan).1 i hi).2
          have hsome := (hw p (by
            rw [(hmember g ms hms _ hin).2]
            exact hpin)).1
          rw [hbefore] at hsome
          nomatch hsome
        rcases hkeeps g ms hms hnot ⟨m, hclosure ▸ hm, u, (hasked m u).mp hu⟩ highest hhighest with
          hplain | ⟨n', hn', u', hu', hlt⟩
        · exact hplain
        · -- what is asked for is not above what was reached
          obtain ⟨w, hw, hreached⟩ := hraised.reached (n', u') ((hasked n' u').mpr hu') n' (by
            rw [(hmember g ms hms n' hn').2]
            exact hn')
          rw [hraised.settled.closure hgroups htargets htarget (hclosure.symm ▸ hn'), hp] at hw
          rw [← Option.some.inj hw, OrientedCmp.gt_of_lt hlt] at hreached
          nomatch hreached
    rcases hraised.origin p v hp with hbefore | ⟨n, hn, hv | hasks⟩
    · exact plain_of_resolvePlan hsemver hgroups htargets hplan hbefore hgroup
    · exact hdeclared n hn hv
    · rcases (((hasked n v).mp hasks).spec hsemver).2 with hplain | ⟨m, hm, hv⟩
      · exact hplain
      · refine hdeclared m ?_ hv
        rw [hclosure]
        rw [hclosure] at hn
        rwa [(hmember g ms hms n hn).2] at hm

end Expanded

/-- The package `a` depends on exactly what `b` declares. -/
def groupOfTwo (first second : Version) : Classification where
  packages := []
  versions := ((∅ : ExtTreeMap Text Version).insert "a".toList first).insert "b".toList second
  exactDependencies := [⟨"a".toList, "b".toList, '=' :: second.display⟩]
  exempt := []
  tracked := nofun

theorem membership_groupOfTwo (first second : Version) : (groupOfTwo first second).membership =
    { byName := (∅ : ExtTreeMap Text (List Text)).insert "a".toList ["a".toList, "b".toList]
      byPackage := ((∅ : ExtTreeMap Text Text).insert "a".toList "a".toList).insert
        "b".toList "a".toList } := rfl

/-- The group is raised to what `b` declares, if that is the higher version. -/
theorem addConsequences_groupOfTwo {first second : Version}
    (hverdict : GroupVerdict.new semverText ["a".toList, "b".toList]
      (groupOfTwo first second).versions [] = some { consistent := false, version := second })
    (hmax : maxVersion semverText [first, second, second] = some second) :
    (groupOfTwo first second).addConsequences semverText ∅ =
      .ok (((∅ : ExtTreeMap Text Version).insert "a".toList second).insert "b".toList second) := by
  have hraise : (groupOfTwo first second).raiseTo semverText ∅ "a".toList second =
      ((∅ : ExtTreeMap Text Version).insert "a".toList second).insert "b".toList second := by
    have hdeclared : ["a".toList, "b".toList].filterMap (fun name =>
        (∅ : ExtTreeMap Text Version)[name]? <|> (groupOfTwo first second).versions[name]?) =
          [first, second] := rfl
    have hclosure : (groupOfTwo first second).membership.closure "a".toList =
        ["a".toList, "b".toList] := by
      rw [membership_groupOfTwo]
      rfl
    unfold Classification.raiseTo
    rw [raise_eq (coherent_membership _), hclosure, hdeclared]
    show ["a".toList, "b".toList].foldl (fun (raised : ExtTreeMap Text Version) member =>
      raised.insert member ((maxVersion semverText [first, second, second]).getD second)) ∅ = _
    rw [hmax]
    rfl
  have hnames : requirementNamesVersion ('=' :: second.display) second = true :=
    requirementNamesVersion_iff.mpr (.inr (.inr
      (trim_operator_cons (.inr rfl) fun _ hc => printable_of_mem_display hc)))
  have hgroup : (groupOfTwo first second).raiseGroup semverText ∅
      ("a".toList, ["a".toList, "b".toList]) = .ok
        (((∅ : ExtTreeMap Text Version).insert "a".toList second).insert "b".toList second) := by
    unfold Classification.raiseGroup
    dsimp only
    rw [show (groupOfTwo first second).exempt = [] from rfl, hverdict]
    exact congrArg Except.ok hraise
  have hretain : ∀ resolved, (groupOfTwo first second).retain semverText resolved "b".toList
      ('=' :: second.display) = resolved := by
    intro resolved
    unfold Classification.retain
    split
    · rfl
    next version hversion =>
      obtain rfl : second = version := Option.some.inj hversion
      rw [if_pos hnames]
  have hentries : (groupOfTwo first second).membership.byName.toList =
      [("a".toList, ["a".toList, "b".toList])] := by
    rw [membership_groupOfTwo]
    rfl
  unfold Classification.addConsequences
  rw [hentries, List.foldlM_cons, hgroup]
  exact congrArg Except.ok (hretain _)

def emptyPlan : PlanFile where
  schemaVersion := 8
  releaseHistory := none
  mergeTarget := none
  expanded := false
  increments := []

/-- A group that declares two prereleases is raised to the higher one, which no
plan may give it. -/
theorem explicitPlan_prereleases :
    let c := groupOfTwo { major := 1, minor := 0, patch := 0, pre := "alpha".toList }
      { major := 1, minor := 0, patch := 0, pre := "beta".toList }
    ∃ resolved expanded,
      resolvePlan semverText emptyPlan c.membership c.versions = .ok resolved ∧
        c.addConsequences semverText resolved = .ok expanded ∧
        resolvePlan semverText (explicitPlan expanded) c.membership c.versions ≠ .ok expanded := by
  intro c
  refine ⟨∅, _, rfl, addConsequences_groupOfTwo rfl rfl, fun hok => ?_⟩
  have hgroup : c.membership.groupOf "a".toList ≠ none := by
    rw [membership_groupOfTwo]
    exact fun h => nomatch h
  have hplain := plain_of_resolvePlan ordered_semverText (coherent_membership c)
    (contains_versions c) hok (p := "a".toList) rfl hgroup
  exact absurd hplain (by decide)

theorem explicitPlan_groupOfTwo :
    let c := groupOfTwo { major := 1, minor := 0, patch := 0 } { major := 1, minor := 1, patch := 0 }
    ∃ resolved expanded,
      resolvePlan semverText emptyPlan c.membership c.versions = .ok resolved ∧
        c.addConsequences semverText resolved = .ok expanded ∧
        resolvePlan semverText (explicitPlan expanded) c.membership c.versions = .ok expanded := by
  intro c
  have hplan : resolvePlan semverText emptyPlan c.membership c.versions = .ok ∅ := rfl
  have hexpanded : c.addConsequences semverText ∅ = .ok _ := addConsequences_groupOfTwo rfl rfl
  refine ⟨∅, _, hplan, hexpanded, ?_⟩
  refine (explicitPlan_resolves_iff ordered_semverText readsBack_semverText c hplan
    hexpanded).mpr ?_
  intro g ms hms _ _ highest hhighest
  obtain ⟨m, hm, hv⟩ := List.mem_filterMap.mp (maxVersion_spec ordered_semverText hhighest).1
  -- every version that is declared is plain
  simp only [c, groupOfTwo, getElem?_insert] at hv
  left
  split at hv
  next => exact Option.some.inj hv ▸ ⟨rfl, rfl⟩
  next =>
    split at hv
    next => exact Option.some.inj hv ▸ ⟨rfl, rfl⟩
    next => simp at hv

end Folo.ReleasePlan
