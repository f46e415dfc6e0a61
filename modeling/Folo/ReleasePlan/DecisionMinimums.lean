import Folo.ReleasePlan.Predictions
import Folo.ReleasePlan.VersionGroups

/-!
# Decisions and their minimums

A decision takes an increment exactly when its package is declared below the
minimum that its impact asks for, and the increments of all the decisions, as
`resolve_plan` applies them to the highest versions of the groups, leave no
decided package below its minimum (`decisions_reach_minimum`).
-/

namespace Folo.ReleasePlan

open Folo.Lib Std

/-- Without prereleases the order is that of the numbers. -/
theorem cmpPrecedence_lt_iff {semver : SemverCrate} (hsemver : semver.Ordered) {v w : Version}
    (hv : v.pre = []) (hw : w.pre = []) :
    semver.cmpPrecedence v w = .lt ↔ v.NumbersLt w := by
  have := hsemver.trans
  refine ⟨fun h => ?_, fun h => hsemver.numbers _ _ h⟩
  by_contra hnot
  unfold SemverCrate.cmpPrecedence at h
  by_cases hgt : w.NumbersLt v
  · have hlt := hsemver.numbers { w with build := [], buildValid := rfl }
      { v with build := [], buildValid := rfl } hgt
    rw [OrientedCmp.gt_iff_lt.mpr hlt] at h
    nomatch h
  · -- the numbers are the same, and nothing else is compared
    obtain ⟨major, minor, patch, pre, build, _, _, _⟩ := v
    obtain ⟨major', minor', patch', pre', build', _, _, _⟩ := w
    unfold Version.NumbersLt at hnot hgt
    dsimp only at hnot hgt hv hw h
    obtain rfl : major = major' := by omega
    obtain rfl : minor = minor' := by omega
    obtain rfl : patch = patch' := by omega
    subst hv hw
    exact nomatch h.symm.trans ReflCmp.compare_self

theorem plain_minimum {impact : SemanticImpact} {anchor minimum : Version}
    (h : impact.minimum anchor = .ok minimum) : minimum.Plain :=
  plain_incrementVersion h

/-- What changes the compatibility: a breaking minimum does, and any other only
where every movement breaks. -/
theorem compatibilityKey_minimum {impact : SemanticImpact} {anchor minimum : Version}
    (h : impact.minimum anchor = .ok minimum) :
    compatibilityKey minimum ≠ compatibilityKey anchor ↔
      impact = .breaking ∨ (anchor.major = 0 ∧ anchor.minor = 0) := by
  have hself : anchor.NumbersLe anchor := by
    unfold Version.NumbersLe Version.NumbersLt
    omega
  rw [compatibilityKey_incrementVersion h, keyAfter_ne_iff hself, or_iff_right (fun hne => hne rfl)]
  unfold SemanticImpact.bump breakRank
  cases impact with
  | breaking =>
    refine iff_of_true ?_ (.inl rfl)
    dsimp only
    split_ifs <;> decide
  | nonbreaking =>
    rw [or_iff_right (by rintro ⟨⟩)]
    dsimp only
    split_ifs <;> simp only [VersionBump.rank] <;> omega
  | patch =>
    rw [or_iff_right (by rintro ⟨⟩)]
    dsimp only
    split_ifs <;> simp only [VersionBump.rank] <;> omega

namespace Proposal

variable {p : Proposal} {semver : SemverCrate} {impacts : Impacts}

theorem rank_pos_of_emitted {i : PlanIncrement} (h : i ∈ p.emitted semver impacts) :
    0 < i.rank := by
  obtain ⟨impact, -, hok⟩ := mem_emitted.mp h
  obtain ⟨-, anchor, declared, minimum, -, -, -, -, -, ho⟩ := decisionIncrement_eq_ok hok
  split at ho
  next => nomatch ho
  next =>
    rw [Option.some.inj ho]
    unfold PlanIncrement.rank
    rw [Option.bind_some, VersionBump.fromStr_display]
    exact VersionBump.rank_pos _

/-- A key that a decision plans is raised. -/
theorem level_pos_of_plans {key : Text} (h : p.Plans (p.emitted semver impacts) key) :
    0 < p.level (p.emitted semver impacts) key := by
  obtain ⟨i, hi, rfl⟩ := h
  exact Nat.lt_of_lt_of_le (rank_pos_of_emitted hi) (rank_le_level hi)

/-- A decision with its package's versions. -/
structure Decided (semver : SemverCrate) (p : Proposal) (x : Text) (impact : SemanticImpact)
    (anchor declared minimum : Version) : Prop where
  published : p.anchors[x]? = some anchor
  declares : p.versions[x]? = some declared
  asks : impact.minimum anchor = .ok minimum
  released : declared.pre = []
  increment : p.decisionIncrement semver (x, impact) = .ok
    (if semver.cmpPrecedence declared minimum ≠ .lt then none
    else some { name := x, bump := some (bumpTo minimum declared).display, version := none })

theorem exists_decided {x : Text} {impact : SemanticImpact} {o : Option PlanIncrement}
    (h : p.decisionIncrement semver (x, impact) = .ok o) :
    ∃ anchor declared minimum, Decided semver p x impact anchor declared minimum := by
  obtain ⟨-, anchor, declared, minimum, hanchor, hdeclared, -, hpre, hminimum, rfl⟩ :=
    decisionIncrement_eq_ok h
  exact ⟨anchor, declared, minimum, hanchor, hdeclared, hminimum, hpre, h⟩

namespace Decided

variable {x : Text} {impact : SemanticImpact} {anchor declared minimum : Version}

theorem below_iff (hsemver : semver.Ordered)
    (h : Decided semver p x impact anchor declared minimum) :
    semver.cmpPrecedence declared minimum = .lt ↔ declared.NumbersLt minimum :=
  cmpPrecedence_lt_iff hsemver h.released (plain_minimum h.asks).1

/-- What a decision emits, it emits for a package below its minimum. -/
theorem emitted_iff (hsemver : semver.Ordered)
    (h : Decided semver p x impact anchor declared minimum) (himpact : impacts[x]? = some impact) :
    (∃ i ∈ p.emitted semver impacts, i.name = x) ↔ declared.NumbersLt minimum := by
  rw [← h.below_iff hsemver]
  constructor
  · rintro ⟨i, hi, rfl⟩
    obtain ⟨impact', himpact', hok⟩ := mem_emitted.mp hi
    obtain rfl := Option.some.inj (himpact.symm.trans himpact')
    by_contra hnot
    have hnone := h.increment.symm.trans hok
    rw [if_pos hnot] at hnone
    nomatch Except.ok.inj hnone
  · intro hlt
    refine ⟨{ name := x, bump := some (bumpTo minimum declared).display, version := none },
      mem_emitted.mpr ⟨impact, himpact, ?_⟩, rfl⟩
    rw [h.increment, if_neg (fun hne => hne hlt)]

/-- The increment of a package below its minimum counts for its key. -/
theorem rank_le_level (hsemver : semver.Ordered)
    (h : Decided semver p x impact anchor declared minimum) (himpact : impacts[x]? = some impact)
    (hbelow : declared.NumbersLt minimum) :
    (bumpTo minimum declared).rank ≤ p.level (p.emitted semver impacts) (p.decisionKey x) := by
  have hlt := (h.below_iff hsemver).mpr hbelow
  have hmem : { name := x, bump := some (bumpTo minimum declared).display, version := none } ∈
      p.emitted semver impacts := by
    refine mem_emitted.mpr ⟨impact, himpact, ?_⟩
    rw [h.increment, if_neg (fun hne => hne hlt)]
  have hrank := Proposal.rank_le_level (p := p) hmem
  unfold PlanIncrement.rank at hrank
  rwa [Option.bind_some, VersionBump.fromStr_display] at hrank

/-- A raised group leaves no decided package of it below its minimum. -/
theorem minimum_le_stepped (hindexed : p.Indexed semver) (hsemver : semver.Ordered)
    (h : Decided semver p x impact anchor declared minimum) (himpact : impacts[x]? = some impact)
    {highest v : Version} (htop : p.top (p.decisionKey x) = some highest)
    (hstepped : Stepped (p.level (p.emitted semver impacts) (p.decisionKey x)) highest v) :
    minimum.NumbersLe v := by
  have := hsemver.trans
  have hhighest : declared.NumbersLe highest :=
    numbersLe_of_isLE hsemver (hindexed.isLE_top hsemver h.declares htop)
  by_cases hbelow : declared.NumbersLt minimum
  · have hrank := h.rank_le_level hsemver himpact hbelow
    have hanchor : anchor.NumbersLe declared := by
      obtain ⟨-, d, hd, hle⟩ := hindexed.anchored x anchor h.published
      obtain rfl := Option.some.inj (h.declares.symm.trans hd)
      refine numbersLe_of_isLE hsemver (Ordering.isLE_iff_ne_gt.mpr fun hgt => hle ?_)
      exact OrientedCmp.gt_iff_lt.mp hgt
    rcases hstepped with ⟨hzero, -⟩ | ⟨bump, hbump, hnext⟩
    · have := (bumpTo minimum declared).rank_pos
      omega
    · exact minimum_le_incremented h.asks hanchor hhighest hbelow hnext (hbump ▸ hrank)
  · have hstep : highest.NumbersLe v := numbersLe_of_isLE hsemver (hstepped.isLE hsemver)
    have hdeclared : minimum.NumbersLe declared := hbelow
    exact (hdeclared.trans hhighest).trans hstep

end Decided

/-- What a decision comes to once the increments are applied. -/
structure MinimumReached (semver : SemverCrate) (p : Proposal) (incs : List PlanIncrement)
    (x : Text) (impact : SemanticImpact) (anchor declared minimum : Version) : Prop where
  published : p.anchors[x]? = some anchor
  declares : p.versions[x]? = some declared
  asks : impact.minimum anchor = .ok minimum
  below : semver.cmpPrecedence declared minimum = .lt ↔ declared.NumbersLt minimum
  emitted : (∃ i ∈ incs, i.name = x) ↔ declared.NumbersLt minimum
  /-- a planned group goes on from its highest version, any other package keeps its own -/
  resolved : ∀ resolved, p.resolve semver (proposedPlan incs) = .ok resolved →
    ∃ v, (resolved[x]?).or p.versions[x]? = some v ∧ semver.cmpPrecedence v minimum ≠ .lt ∧
      (p.Plans incs (p.decisionKey x) → ∃ highest bump,
        p.top (p.decisionKey x) = some highest ∧ incrementVersion highest bump = .ok v)
  breaks : compatibilityKey minimum ≠ compatibilityKey anchor ↔
    impact = .breaking ∨ (anchor.major = 0 ∧ anchor.minor = 0)

theorem Decided.reached (hindexed : p.Indexed semver) (hsemver : semver.Ordered)
    (hreads : semver.ReadsBack) {x : Text} {impact : SemanticImpact}
    {anchor declared minimum : Version} (h : Decided semver p x impact anchor declared minimum)
    (himpact : impacts[x]? = some impact) :
    MinimumReached semver p (p.emitted semver impacts) x impact anchor declared minimum := by
  refine
    { published := h.published
      declares := h.declares
      asks := h.asks
      below := h.below_iff hsemver
      emitted := h.emitted_iff hsemver himpact
      resolved := fun resolved hresolved => ?_
      breaks := compatibilityKey_minimum h.asks }
  have hminimum := plain_minimum h.asks
  obtain ⟨highest, htop, -, -⟩ := hindexed.top_spec h.declares
  obtain ⟨hplanned, hunplanned⟩ :=
    resolve_spec hindexed hreads plannable_emitted hresolved h.declares htop
  by_cases hplans : p.Plans (p.emitted semver impacts) (p.decisionKey x)
  · obtain ⟨v, hstepped, hv⟩ := hplanned hplans
    have hle := h.minimum_le_stepped hindexed hsemver himpact htop hstepped
    have hpos := level_pos_of_plans hplans
    refine ⟨v, ?_, ?_, fun _ => ?_⟩
    · rw [hv]
      rfl
    · rw [ne_eq, cmpPrecedence_lt_iff hsemver (hstepped.plain (Nat.ne_of_gt hpos)).1 hminimum.1]
      exact hle
    · rcases hstepped with ⟨hzero, -⟩ | ⟨bump, -, hnext⟩
      · omega
      · exact ⟨highest, bump, htop, hnext⟩
  · refine ⟨declared, ?_, ?_, fun hno => absurd hno hplans⟩
    · rw [hunplanned hplans]
      exact h.declares
    · -- an increment for the package would plan its key
      intro hlt
      obtain ⟨i, hi, hname⟩ := (h.emitted_iff hsemver himpact).mpr ((h.below_iff hsemver).mp hlt)
      exact hplans ⟨i, hi, by rw [hname]⟩

end Proposal

/-- **Decisions reach their minimums**: of a checked report, a decision emits an
increment exactly for a package declared below its minimum, and once all of
them are applied every decided package is at its minimum or above. -/
theorem decisions_reach_minimum {semver : SemverCrate} (hsemver : semver.Ordered)
    (hreads : semver.ReadsBack) {report : ReportFile} (hvalid : report.validate semver = .ok ())
    {p : Proposal} (hp : Proposal.new semver report = some p) {impacts : Impacts}
    {incs : List PlanIncrement} (hincs : p.decisionIncrements semver impacts = .ok incs)
    {x : Text} {impact : SemanticImpact} (himpact : impacts[x]? = some impact) :
    ∃ anchor declared minimum,
      Proposal.MinimumReached semver p incs x impact anchor declared minimum := by
  obtain ⟨rfl, haccepted⟩ := Proposal.decisionIncrements_eq_ok hincs
  obtain ⟨o, ho⟩ := haccepted x impact himpact
  obtain ⟨anchor, declared, minimum, hdecided⟩ := Proposal.exists_decided ho
  have hindexed := Proposal.indexed_of_new (ReportFile.valid_of_validate hvalid) hp
  exact ⟨anchor, declared, minimum, hdecided.reached hindexed hsemver hreads himpact⟩

/-- A decision on the lower member of a group, which goes on from the higher one. -/
theorem decisions_reach_minimum_grouped : ∃ p incs resolved,
    Proposal.new semverText groupedReport = some p ∧
      p.decisionIncrements semverText
        ((∅ : Impacts).insert "a".toList SemanticImpact.nonbreaking) = .ok incs ∧
      p.resolve semverText (proposedPlan incs) = .ok resolved ∧
      (resolved["a".toList]?).map Version.display = some "1.2.0".toList ∧
      ∃ anchor declared minimum, Proposal.MinimumReached semverText p incs "a".toList
        .nonbreaking anchor declared minimum := by
  have hvalid : groupedReport.validate semverText = .ok () := rfl
  have himpact : ((∅ : Impacts).insert "a".toList SemanticImpact.nonbreaking)["a".toList]? =
      some .nonbreaking := rfl
  refine ⟨_, _, _, rfl, rfl, rfl, rfl, ?_⟩
  exact decisions_reach_minimum ordered_semverText readsBack_semverText hvalid rfl rfl himpact

end Folo.ReleasePlan
