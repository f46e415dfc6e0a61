import Folo.ReleasePlan.Compatibility
import Folo.ReleasePlan.Evidence

/-!
# What a proposal predicts

What a list of increments comes to over the evidence: every package under a key
has the highest version that is declared there, raised by the greatest bump of
the key, its level (`resolve_spec`).
-/

namespace Folo.ReleasePlan

open Folo.Lib Std

/-! ## Levels -/

/-- The version after a bump of a rank, the same one for rank zero. -/
def Stepped (rank : Nat) (v next : Version) : Prop :=
  (rank = 0 ∧ next = v) ∨ ∃ bump : VersionBump, bump.rank = rank ∧
    incrementVersion v bump = .ok next

namespace Stepped

variable {rank : Nat} {v next next' : Version}

theorem plain (h : Stepped rank v next) (hrank : rank ≠ 0) : next.Plain := by
  rcases h with ⟨hzero, -⟩ | ⟨bump, -, hbump⟩
  · exact absurd hzero hrank
  · exact plain_incrementVersion hbump

theorem isLE {semver : SemverCrate} (hsemver : semver.Ordered) (h : Stepped rank v next) :
    (semver.compare v next).isLE := by
  have := hsemver.trans
  rcases h with ⟨-, rfl⟩ | ⟨bump, -, hbump⟩
  · exact ReflCmp.isLE_rfl
  · rw [lt_incrementVersion hsemver hbump]
    rfl

end Stepped

def PlanIncrement.rank (increment : PlanIncrement) : Nat :=
  ((increment.bump.bind VersionBump.fromStr).map VersionBump.rank).getD 0

namespace Proposal

variable (p : Proposal)

/-- The rank of the greatest bump that increments give a key. -/
def level (increments : List PlanIncrement) (key : Text) : Nat :=
  ((increments.filter fun i => p.decisionKey i.name = key).map (·.rank)).foldr Nat.max 0

def Plans (increments : List PlanIncrement) (key : Text) : Prop :=
  ∃ i ∈ increments, p.decisionKey i.name = key

variable {p} {semver : SemverCrate} {increments others : List PlanIncrement} {key : Text}

theorem level_le_iff {n : Nat} :
    p.level increments key ≤ n ↔ ∀ i ∈ increments, p.decisionKey i.name = key → i.rank ≤ n := by
  unfold level
  induction increments with
  | nil => exact iff_of_true (Nat.zero_le _) nofun
  | cons i increments ih =>
    rw [List.forall_mem_cons, List.filter_cons]
    by_cases hkey : p.decisionKey i.name = key
    · rw [if_pos (decide_eq_true hkey), List.map_cons, List.foldr_cons, ← ih]
      exact Nat.max_le.trans ⟨fun h => ⟨fun _ => h.1, h.2⟩, fun h => ⟨h.1 hkey, h.2⟩⟩
    · rw [if_neg (by simpa using hkey), ih]
      exact ⟨fun h => ⟨fun hk => absurd hk hkey, h⟩, fun h => h.2⟩

theorem rank_le_level {i : PlanIncrement} (hi : i ∈ increments) :
    i.rank ≤ p.level increments (p.decisionKey i.name) :=
  level_le_iff.mp (Nat.le_refl _) i hi rfl

/-- Only the increments of a key count for its level. -/
theorem level_congr (h : ∀ i, p.decisionKey i.name = key → (i ∈ increments ↔ i ∈ others)) :
    p.level increments key = p.level others key := by
  refine Nat.le_antisymm (level_le_iff.mpr fun i hi hkey => ?_)
    (level_le_iff.mpr fun i hi hkey => ?_)
  · exact hkey ▸ rank_le_level ((h i hkey).mp hi)
  · exact hkey ▸ rank_le_level ((h i hkey).mpr hi)

theorem level_eq_zero (h : ¬ p.Plans increments key) : p.level increments key = 0 :=
  Nat.le_zero.mp (level_le_iff.mpr fun i hi hkey => absurd ⟨i, hi, hkey⟩ h)

theorem level_append :
    p.level (increments ++ others) key = Nat.max (p.level increments key) (p.level others key) := by
  refine Nat.le_antisymm (level_le_iff.mpr fun i hi hkey => ?_) (Nat.max_le.mpr ⟨?_, ?_⟩)
  · rcases List.mem_append.mp hi with hi | hi
    · exact Nat.le_trans (hkey ▸ rank_le_level hi) (Nat.le_max_left ..)
    · exact Nat.le_trans (hkey ▸ rank_le_level hi) (Nat.le_max_right ..)
  · exact level_le_iff.mpr fun i hi hkey => hkey ▸ rank_le_level (List.mem_append_left _ hi)
  · exact level_le_iff.mpr fun i hi hkey => hkey ▸ rank_le_level (List.mem_append_right _ hi)

/-! ## What increments come to -/

/-- A bump, or the highest version of the key itself. -/
def Plannable (p : Proposal) (i : PlanIncrement) : Prop :=
  (∃ bump : VersionBump, i.bump = some bump.display ∧ i.version = none) ∨
    ∃ highest, p.top (p.decisionKey i.name) = some highest ∧ i.bump = none ∧
      i.version = some highest.display

/-- A decision is a bump of the rank, or the highest version of the key itself. -/
def Decides (p : Proposal) (key : Text) (rank : Nat) : IncrementSpec → Prop
  | .bump bump => bump.rank = rank
  | .version version => p.top key = some version ∧ rank = 0

theorem Plannable.spec (hreads : semver.ReadsBack) {i : PlanIncrement} (h : p.Plannable i) :
    ∃ spec, i.spec semver = .ok spec ∧ p.Decides (p.decisionKey i.name) i.rank spec := by
  unfold PlanIncrement.spec PlanIncrement.rank
  rcases h with ⟨bump, hbump, hversion⟩ | ⟨highest, htop, hbump, hversion⟩
  · refine ⟨.bump bump, ?_, ?_⟩
    · rw [hbump, hversion]
      dsimp only
      rw [VersionBump.fromStr_display]
    · rw [hbump, Option.bind_some, VersionBump.fromStr_display]
      rfl
  · refine ⟨.version highest, ?_, htop, ?_⟩
    · rw [hbump, hversion]
      dsimp only
      rw [hreads highest]
    · rw [hbump]
      rfl

/-- One more increment of a key. -/
theorem Decides.joined {rank added : Nat} {spec merged : IncrementSpec} {old : Option IncrementSpec}
    (hold : ∀ existing, old = some existing → p.Decides key rank existing)
    (hnone : old = none → rank = 0) (hspec : p.Decides key added spec)
    (hmerged : ReleasePlan.joined key spec old = some merged) :
    p.Decides key (Nat.max rank added) merged := by
  cases old with
  | none =>
    obtain rfl := Option.some.inj hmerged
    rw [hnone rfl]
    exact (Nat.zero_max added).symm ▸ hspec
  | some existing =>
    have hexisting := hold existing rfl
    have hmerged : (existing.merge key spec).toOption = some merged := hmerged
    cases existing with
    | bump old =>
      cases spec with
      | version v => nomatch hmerged
      | bump new =>
        obtain rfl := Option.some.inj hmerged
        show (old.max new).rank = Nat.max rank added
        rw [VersionBump.rank_max, show old.rank = rank from hexisting,
          show new.rank = added from hspec]
    | version v =>
      cases spec with
      | bump new => nomatch hmerged
      | version w =>
        rw [toOption_merge_version] at hmerged
        split at hmerged
        next =>
          obtain rfl := Option.some.inj hmerged
          rw [hexisting.2, hspec.2]
          exact ⟨hexisting.1, rfl⟩
        next => nomatch hmerged

/-- The decision of a key is the greatest of its bumps, or its highest version. -/
theorem decides_level (h : p.Indexed semver) (hreads : semver.ReadsBack)
    (hall : ∀ i ∈ increments, p.Plannable i) {decisions : ExtTreeMap Text IncrementSpec}
    (hfold : increments.foldlM (addIncrement semver p.groups p.versions) ∅ = .ok decisions)
    {spec : IncrementSpec} (hspec : decisions[key]? = some spec) :
    p.Decides key (p.level increments key) spec := by
  induction increments using List.reverseRecOn generalizing decisions spec with
  | nil =>
    obtain rfl := Except.ok.inj hfold
    simp at hspec
  | append_singleton increments i ih =>
    have hbefore : ∀ i ∈ increments, p.Plannable i := fun j hj => hall j (List.mem_append_left _ hj)
    rw [List.foldlM_append] at hfold
    obtain ⟨before, hdecisions, hfold⟩ := bind_eq_ok.mp hfold
    simp only [List.foldlM_cons, List.foldlM_nil, bind_pure] at hfold
    obtain ⟨-, added, hadded, hfold⟩ := (addIncrement_eq_ok h.coherent h.targets).mp hfold
    obtain ⟨merged, hmerged, rfl⟩ := addDecision_eq_ok.mp hfold
    rw [getElem?_insert] at hspec
    split at hspec
    next hkey =>
      obtain rfl := Option.some.inj hspec
      have hone : p.level [i] (p.decisionKey i.name) = i.rank := by
        refine Nat.le_antisymm (level_le_iff.mpr fun j hj _ => ?_)
          (rank_le_level (List.mem_singleton_self i))
        rw [List.mem_singleton.mp hj]
      obtain ⟨spec, hspec, hdecides⟩ :=
        (hall i (List.mem_append_right _ (List.mem_singleton_self i))).spec hreads
      obtain rfl := Except.ok.inj (hadded.symm.trans hspec)
      rw [← hkey, level_append]
      show p.Decides (p.decisionKey i.name) (Nat.max (p.level increments (p.decisionKey i.name))
        (p.level [i] (p.decisionKey i.name))) merged
      rw [hone]
      refine Decides.joined (fun existing hexisting => ?_) (fun hnone => ?_) hdecides hmerged
      · subst hkey
        exact ih hbefore hdecisions hexisting
      · -- it is the first increment of its key
        refine level_eq_zero fun hplans => ?_
        obtain ⟨spec, hspec⟩ := ((decided_of_foldlM h.coherent h.targets hdecisions).2 _).mpr
          (.inr hplans)
        exact nomatch hnone.symm.trans hspec
    next hkey =>
      have hsame : p.level (increments ++ [i]) key = p.level increments key := by
        refine level_congr fun j hj => ?_
        rw [List.mem_append, List.mem_singleton, or_iff_left]
        rintro rfl
        exact hkey hj
      rw [hsame]
      exact ih hbefore hdecisions hspec

theorem resolve_eq_ok {plan : PlanFile} {resolved : ExtTreeMap Text Version} :
    p.resolve semver plan = .ok resolved ↔
      resolvePlan semver plan p.groups p.versions = .ok resolved := by
  unfold resolve
  cases resolvePlan semver plan p.groups p.versions with
  | error e => exact ⟨nofun, nofun⟩
  | ok packages =>
    exact ⟨fun h => congrArg _ (Except.ok.inj h), fun h => congrArg _ (Except.ok.inj h)⟩

/-- What increments come to: every package under a planned key has the highest
version of the key, raised by the level of the key, and no other has one. -/
theorem resolve_spec (h : p.Indexed semver) (hreads : semver.ReadsBack)
    (hall : ∀ i ∈ increments, p.Plannable i) {resolved : ExtTreeMap Text Version}
    (hok : p.resolve semver (proposedPlan increments) = .ok resolved) {m : Text}
    {d highest : Version} (hm : p.versions[m]? = some d)
    (htop : p.top (p.decisionKey m) = some highest) :
    (p.Plans increments (p.decisionKey m) →
      ∃ v, Stepped (p.level increments (p.decisionKey m)) highest v ∧ resolved[m]? = some v) ∧
      (¬ p.Plans increments (p.decisionKey m) → resolved[m]? = none) := by
  obtain ⟨-, -, decisions, hdecisions, hpackages, -⟩ := resolvePlan_eq_ok.mp (resolve_eq_ok.mp hok)
  obtain ⟨hnames, hdecided⟩ := decided_of_foldlM h.coherent h.targets hdecisions
  have hcontains : p.versions.contains m = true :=
    ExtTreeMap.isSome_getElem?_eq_contains.symm.trans (congrArg Option.isSome hm)
  have hin := (h.targets m).mp hcontains
  have hkeys : ∀ (key : Text) spec, decisions[key]? = some spec →
      ∃ i ∈ increments, p.groups.keyOf i.name = key := by
    intro key spec hspec
    refine ((hdecided key).mp ⟨spec, hspec⟩).resolve_left ?_
    rintro ⟨_, hempty⟩
    simp at hempty
  obtain ⟨hmembers, hout⟩ := getElem?_of_foldlM (disjoint_members h.coherent h.targets
    fun key spec hspec =>
      let ⟨i, hi, hkey⟩ := hkeys key spec hspec
      ⟨i.name, hnames i hi, hkey⟩) hpackages
  constructor
  · intro hplans
    obtain ⟨spec, hspec⟩ := (hdecided (p.decisionKey m)).mpr (.inr hplans)
    obtain ⟨v, hv, hresolved⟩ := hmembers _ (Iteration.sorted.mem_entries.mpr hspec)
    have hclosure : membersForKey (p.decisionKey m) p.groups p.versions = p.groups.closure m :=
      Groups.membersForKey_keyOf h.coherent hcontains
    dsimp only at hresolved
    rw [hclosure] at hresolved
    refine ⟨v, ?_, hresolved m (Groups.self_mem_closure h.coherent hin)⟩
    obtain ⟨best, hbest, -, hmax⟩ := h.top_spec hm
    obtain rfl := Option.some.inj (htop.symm.trans hbest)
    unfold decidedFor at hv
    dsimp only at hv
    rw [hclosure, hmax] at hv
    dsimp only at hv
    have hdecides := decides_level h hreads hall hdecisions hspec
    cases spec with
    | bump bump => exact .inr ⟨bump, hdecides, hv⟩
    | version version =>
      obtain rfl := Option.some.inj (htop.symm.trans hdecides.1)
      refine .inl ⟨hdecides.2, ?_⟩
      unfold decidedVersion at hv
      dsimp only at hv
      split at hv
      next => nomatch hv
      next =>
        split at hv
        next => nomatch hv
        next => exact (Except.ok.inj hv).symm
  · intro hplans
    rw [hout m fun e he hmem => hplans ?_]
    · simp
    · obtain ⟨i, hi, hkey⟩ := hkeys e.1 e.2 (Iteration.sorted.mem_entries.mp he)
      have hi' := hnames i hi
      rw [← hkey, Groups.membersForKey_keyOf h.coherent ((h.targets _).mpr hi')] at hmem
      exact ⟨i, hi, ((Groups.mem_closure_iff h.coherent hi').mp hmem).2.symm⟩

/-! ## Decisions -/

/-- What a decision that is accepted was checked for. -/
theorem decisionIncrement_eq_ok {decision : Text × SemanticImpact} {o : Option PlanIncrement}
    (h : p.decisionIncrement semver decision = .ok o) :
    p.packages.contains decision.1 = true ∧ ∃ anchor declared minimum,
      p.anchors[decision.1]? = some anchor ∧ p.versions[decision.1]? = some declared ∧
      anchor.pre = [] ∧ declared.pre = [] ∧ decision.2.minimum anchor = .ok minimum ∧
      o = if semver.cmpPrecedence declared minimum ≠ .lt then none
        else some
          { name := decision.1, bump := some (bumpTo minimum declared).display, version := none } := by
  unfold decisionIncrement at h
  split at h
  next => nomatch h
  next hcontains =>
    rw [Bool.not_eq_true, Bool.not_eq_false'] at hcontains
    split at h
    next => nomatch h
    next => nomatch h
    next anchor declared hanchor hdeclared =>
      split at h
      next => nomatch h
      next hpre =>
        rw [Bool.or_eq_true, not_or, Bool.not_eq_true, Bool.not_eq_true, Bool.not_eq_false',
          Bool.not_eq_false', List.isEmpty_iff, List.isEmpty_iff] at hpre
        obtain ⟨minimum, hminimum, rfl⟩ := map_eq_ok.mp h
        refine ⟨hcontains, anchor, declared, minimum, hanchor, hdeclared, hpre.1, hpre.2, ?_, rfl⟩
        cases hm : decision.2.minimum anchor with
        | error e =>
          rw [hm] at hminimum
          nomatch hminimum
        | ok m =>
          rw [hm] at hminimum
          exact congrArg _ (Except.ok.inj hminimum)

/-- The increments of the decisions that take one. -/
def emitted (semver : SemverCrate) (p : Proposal) (impacts : Impacts) : List PlanIncrement :=
  impacts.toList.filterMap fun decision => (p.decisionIncrement semver decision).toOption.join

theorem mem_emitted {impacts : Impacts} {i : PlanIncrement} :
    i ∈ p.emitted semver impacts ↔ ∃ impact, impacts[i.name]? = some impact ∧
      p.decisionIncrement semver (i.name, impact) = .ok (some i) := by
  unfold emitted
  rw [List.mem_filterMap]
  have hjoin : ∀ decision, (p.decisionIncrement semver decision).toOption.join = some i ↔
      p.decisionIncrement semver decision = .ok (some i) := by
    intro decision
    rw [Option.join_eq_some_iff, toOption_eq_some]
  constructor
  · rintro ⟨decision, hin, hi⟩
    have hok := (hjoin decision).mp hi
    obtain ⟨-, anchor, declared, minimum, -, -, -, -, -, ho⟩ := decisionIncrement_eq_ok hok
    split at ho
    next => nomatch ho
    next =>
      have hname : i.name = decision.1 := congrArg PlanIncrement.name (Option.some.inj ho)
      rw [hname]
      exact ⟨decision.2, Iteration.sorted.mem_entries.mp hin, hok⟩
  · rintro ⟨impact, himpact, hok⟩
    exact ⟨(i.name, impact), Iteration.sorted.mem_entries.mpr himpact, (hjoin _).mpr hok⟩

theorem decisionIncrements_eq_ok {impacts : Impacts} {incs : List PlanIncrement}
    (h : p.decisionIncrements semver impacts = .ok incs) : incs = p.emitted semver impacts ∧
      ∀ (x : Text) impact, impacts[x]? = some impact →
        ∃ o, p.decisionIncrement semver (x, impact) = .ok o := by
  unfold decisionIncrements at h
  obtain ⟨results, hresults, rfl⟩ := map_eq_ok.mp h
  have hforall := forall₂_of_mapM_eq_ok hresults
  constructor
  · unfold emitted
    generalize impacts.toList = decisions at hforall
    clear hresults h
    induction hforall with
    | nil => rfl
    | cons hok _ ih =>
      rw [List.filterMap_cons, hok]
      rename_i o _ _ _
      cases o with
      | none => exact ih
      | some i => exact congrArg _ ih
  · intro x impact himpact
    obtain ⟨o, -, ho⟩ := exists_result_of_mapM_eq_ok hresults _
      (Iteration.sorted.mem_entries.mpr himpact)
    exact ⟨o, ho⟩

theorem plannable_emitted {impacts : Impacts} :
    ∀ i ∈ p.emitted semver impacts, p.Plannable i := by
  intro i hi
  obtain ⟨impact, -, hok⟩ := mem_emitted.mp hi
  obtain ⟨-, anchor, declared, minimum, -, -, -, -, -, ho⟩ := decisionIncrement_eq_ok hok
  split at ho
  next => nomatch ho
  next =>
    rw [Option.some.inj ho]
    exact .inl ⟨_, rfl, rfl⟩

end Proposal

end Folo.ReleasePlan
