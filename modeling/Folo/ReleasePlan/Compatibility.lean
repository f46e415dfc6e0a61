import Folo.ReleasePlan.Proposals

/-!
# Bumps and compatibility

A bump by its rank, zero for none. Whether a version that was raised by a bump
is still compatible with an anchor that it was not below depends on the rank
only, and on whether it was compatible before (`keyAfter_ne_iff`).
-/

namespace Folo.ReleasePlan

open Folo.Lib Std

def VersionBump.rank : VersionBump → Nat
  | .patch => 1
  | .minor => 2
  | .major => 3

theorem VersionBump.rank_pos (bump : VersionBump) : 0 < bump.rank := by
  cases bump <;> decide

theorem VersionBump.rank_max (a b : VersionBump) : (a.max b).rank = Nat.max a.rank b.rank := by
  cases a <;> cases b <;> rfl

theorem VersionBump.fromStr_display (bump : VersionBump) :
    VersionBump.fromStr bump.display = some bump := by
  cases bump <;> rfl

/-- The numbers of `v` are not below those of `w`. -/
def Version.NumbersLe (v w : Version) : Prop := ¬ w.NumbersLt v

theorem Version.NumbersLe.trans {u v w : Version} (h : u.NumbersLe v) (h' : v.NumbersLe w) :
    u.NumbersLe w := by
  unfold NumbersLe NumbersLt at *
  omega

/-- What is not above in the order has no greater numbers. -/
theorem numbersLe_of_isLE {semver : SemverCrate} (hsemver : semver.Ordered) {v w : Version}
    (h : (semver.compare v w).isLE) : v.NumbersLe w := by
  have := hsemver.trans
  intro hlt
  have hgt := OrientedCmp.gt_iff_lt.mpr (hsemver.numbers w v hlt)
  rw [hgt] at h
  nomatch h

/-- The rank of a bump after which nothing is compatible with before. -/
def breakRank (v : Version) : Nat := if 0 < v.major then 3 else if 0 < v.minor then 2 else 1

/-- The compatibility key of a version that is raised by a bump of this rank. -/
def keyAfter (v : Version) (rank : Nat) : Nat × Nat × Nat :=
  if rank = 0 then compatibilityKey v
  else if rank = 1 then
    if 0 < v.major then (v.major, 0, 0) else if 0 < v.minor then (0, v.minor, 0)
    else (0, 0, v.patch + 1)
  else if rank = 2 then if 0 < v.major then (v.major, 0, 0) else (0, v.minor + 1, 0)
  else (v.major + 1, 0, 0)

theorem compatibilityKey_incrementVersion {v next : Version} {bump : VersionBump}
    (h : incrementVersion v bump = .ok next) : compatibilityKey next = keyAfter v bump.rank := by
  unfold incrementVersion at h
  cases bump with
  | patch =>
    dsimp only at h
    split at h
    next =>
      obtain rfl := Except.ok.inj h
      rfl
    next => cases h
  | minor =>
    dsimp only at h
    split at h
    next =>
      obtain rfl := Except.ok.inj h
      rfl
    next => cases h
  | major =>
    dsimp only at h
    split at h
    next =>
      obtain rfl := Except.ok.inj h
      rfl
    next => cases h

/-- Whether a raised version is compatible with an anchor: it was, and the bump
is below the one that ends compatibility. -/
theorem keyAfter_ne_iff {anchor v : Version} (h : anchor.NumbersLe v) (rank : Nat) :
    keyAfter v rank ≠ compatibilityKey anchor ↔
      compatibilityKey v ≠ compatibilityKey anchor ∨ breakRank v ≤ rank := by
  unfold Version.NumbersLe Version.NumbersLt at h
  have hne : ∀ a b c a' b' c' : Nat, (a, b, c) ≠ (a', b', c') ↔ a ≠ a' ∨ b ≠ b' ∨ c ≠ c' := by
    intro a b c a' b' c'
    rw [ne_eq, Prod.mk.injEq, Prod.mk.injEq]
    omega
  unfold keyAfter breakRank compatibilityKey
  -- both keys are found by the leading number that is not zero
  by_cases hmajor : 0 < v.major
  · simp only [if_pos hmajor]
    split_ifs <;> simp only [hne] <;> omega
  · simp only [if_neg hmajor]
    split_ifs <;> simp only [hne] <;> omega

/-! ## Minimums -/

theorem numbers_incrementVersion {v next : Version} {bump : VersionBump}
    (h : incrementVersion v bump = .ok next) :
    (bump = .major ∧ next.major = v.major + 1 ∧ next.minor = 0 ∧ next.patch = 0) ∨
      (bump = .minor ∧ next.major = v.major ∧ next.minor = v.minor + 1 ∧ next.patch = 0) ∨
      (bump = .patch ∧ next.major = v.major ∧ next.minor = v.minor ∧
        next.patch = v.patch + 1) := by
  unfold incrementVersion at h
  cases bump with
  | major =>
    dsimp only at h
    split at h
    next =>
      obtain rfl := Except.ok.inj h
      exact .inl ⟨rfl, rfl, rfl, rfl⟩
    next => cases h
  | minor =>
    dsimp only at h
    split at h
    next =>
      obtain rfl := Except.ok.inj h
      exact .inr (.inl ⟨rfl, rfl, rfl, rfl⟩)
    next => cases h
  | patch =>
    dsimp only at h
    split at h
    next =>
      obtain rfl := Except.ok.inj h
      exact .inr (.inr ⟨rfl, rfl, rfl, rfl⟩)
    next => cases h

/-- The bump of a decision takes a group to the minimum, which no member is
declared above. -/
theorem minimum_le_incremented {impact : SemanticImpact}
    {anchor declared highest minimum next : Version} {bump : VersionBump}
    (h : impact.minimum anchor = .ok minimum) (hanchor : anchor.NumbersLe declared)
    (hhighest : declared.NumbersLe highest) (hbelow : declared.NumbersLt minimum)
    (hnext : incrementVersion highest bump = .ok next)
    (hbump : (Proposal.bumpTo minimum declared).rank ≤ bump.rank) : minimum.NumbersLe next := by
  have hminimum := numbers_incrementVersion h
  have hincremented := numbers_incrementVersion hnext
  unfold Proposal.bumpTo at hbump
  unfold Version.NumbersLe Version.NumbersLt at *
  rcases hincremented with ⟨rfl, hincremented⟩ | ⟨rfl, hincremented⟩ | ⟨rfl, hincremented⟩ <;>
    split_ifs at hbump <;> simp only [VersionBump.rank] at hbump <;> omega

end Folo.ReleasePlan
