import Folo.Lib.Texts
import Mathlib.Algebra.Group.Nat.Defs
import Mathlib.Data.List.Basic

/-!
# Versions and requirements

Versions as they are printed, `requirement_names_version` of
`crp_workspace/manifest.rs` and `rewrite_req` of `crp_versioning/apply.rs`.
The `semver` crate is a parameter: its order, its parsers, and that a
requirement printed from what was parsed has lost its build metadata.
-/

namespace Folo.ReleasePlan

open Folo.Lib

abbrev Text := List Char

/-- `u64::MAX`. -/
def u64Max : Nat := 2 ^ 64 - 1

def isIdentifierChar (c : Char) : Bool := c.isAlphanum || c == '-' || c == '.'

/-- A numeric identifier of a prerelease has no leading zero. -/
def noLeadingZero (segment : Text) : Bool :=
  !(segment.all Char.isDigit && 1 < segment.length && segment.head? == some '0')

def validIdentifiers (admits : Text → Bool) (text : Text) : Bool :=
  text.all isIdentifierChar && (text.isEmpty ||
    (text.splitOn '.').all fun segment => !segment.isEmpty && admits segment)

-- the versions without identifiers share these proofs
theorem validIdentifiers_pre_nil : validIdentifiers noLeadingZero [] = true := rfl

theorem validIdentifiers_build_nil : validIdentifiers (fun _ => true) [] = true := rfl

/-- `semver::Version`. -/
structure Version where
  major : Nat
  minor : Nat
  patch : Nat
  pre : Text := []
  build : Text := []
  fits : major ≤ u64Max ∧ minor ≤ u64Max ∧ patch ≤ u64Max := by decide
  preValid : validIdentifiers noLeadingZero pre = true := by
    first | exact validIdentifiers_pre_nil | decide
  buildValid : validIdentifiers (fun _ => true) build = true := by
    first | exact validIdentifiers_build_nil | decide
  deriving DecidableEq

namespace Version

theorem one_fits : 1 ≤ u64Max ∧ 0 ≤ u64Max ∧ 0 ≤ u64Max := by decide

/-- `Display` up to the build metadata. -/
def withoutBuild (v : Version) : Text :=
  Nat.toDigits 10 v.major ++ '.' :: (Nat.toDigits 10 v.minor ++ '.' :: (Nat.toDigits 10 v.patch ++
    if v.pre.isEmpty then [] else '-' :: v.pre))

/-- `to_string`. -/
def display (v : Version) : Text :=
  v.withoutBuild ++ if v.build.isEmpty then [] else '+' :: v.build

end Version

def requirementNamesVersion (requirement : Text) (version : Version) : Bool :=
  let trimmed := trim requirement
  let bare := version.display
  trimmed == bare || trimmed == '^' :: bare || trimmed == '=' :: bare

def rewriteReq (old : Text) (newVersion : Version) : Text :=
  if requirementNamesVersion old newVersion then old
  else if ['='].isPrefixOf (trim old) then '=' :: newVersion.display
  else newVersion.display

/-- What is used of the `semver` crate. -/
structure SemverCrate where
  parse : Text → Option Version
  compare : Version → Version → Ordering
  /-- `VersionReq`, parsed and printed -/
  printRequirement : Text → Option Text

/-- What the crate's documentation says of it. -/
structure SemverCrate.Documented (semver : SemverCrate) : Prop where
  parsed : ∀ text v, semver.parse text = some v → v.display = text
  bare : ∀ v : Version, semver.printRequirement v.display = some ('^' :: v.withoutBuild)
  caret : ∀ v : Version, semver.printRequirement ('^' :: v.display) = some ('^' :: v.withoutBuild)
  exactly : ∀ v : Version,
    semver.printRequirement ('=' :: v.display) = some ('=' :: v.withoutBuild)
  /-- spaces around a requirement count for nothing -/
  spaces : ∀ text printed, semver.printRequirement text = some printed →
    semver.printRequirement (trim text) = some printed

/-- `v` has the lower numbers. -/
def Version.NumbersLt (v w : Version) : Prop :=
  v.major < w.major ∨ (v.major = w.major ∧
    (v.minor < w.minor ∨ (v.minor = w.minor ∧ v.patch < w.patch)))

/-- What the crate's documentation says of the order of versions. -/
structure SemverCrate.Ordered (semver : SemverCrate) : Prop where
  trans : Std.TransCmp semver.compare
  eq_of_compare : ∀ v w, semver.compare v w = .eq → v = w
  /-- the numbers come first -/
  numbers : ∀ v w : Version, v.NumbersLt w → semver.compare v w = .lt

/-! ## What is printed -/

/-- A character that versions are printed with. -/
def Printable (c : Char) : Prop := isIdentifierChar c = true ∨ c = '+'

theorem isIdentifierChar_of_isDigit {c : Char} (h : c.isDigit = true) :
    isIdentifierChar c = true := by
  unfold isIdentifierChar Char.isAlphanum
  rw [h]
  simp only [Bool.or_true, Bool.true_or]

theorem isIdentifierChar_of_mem_withoutBuild {v : Version} {c : Char} (h : c ∈ v.withoutBuild) :
    isIdentifierChar c = true := by
  have hdigits : ∀ n, c ∈ Nat.toDigits 10 n → isIdentifierChar c = true := fun n hc =>
    isIdentifierChar_of_isDigit (Nat.isDigit_of_mem_toDigits (by decide) (by decide) hc)
  have hpre : ∀ c ∈ v.pre, isIdentifierChar c = true := by
    have hvalid := v.preValid
    unfold validIdentifiers at hvalid
    exact List.all_eq_true.mp (Bool.and_eq_true _ _ ▸ hvalid).1
  unfold Version.withoutBuild at h
  simp only [List.mem_append, List.mem_cons] at h
  rcases h with h | rfl | h | rfl | h | h
  · exact hdigits _ h
  · rfl
  · exact hdigits _ h
  · rfl
  · exact hdigits _ h
  · split at h
    next => nomatch h
    next =>
      rcases List.mem_cons.mp h with rfl | h
      · rfl
      · exact hpre c h

theorem printable_of_mem_display {v : Version} {c : Char} (h : c ∈ v.display) : Printable c := by
  have hbuild : ∀ c ∈ v.build, isIdentifierChar c = true := by
    have hvalid := v.buildValid
    unfold validIdentifiers at hvalid
    exact List.all_eq_true.mp (Bool.and_eq_true _ _ ▸ hvalid).1
  unfold Version.display at h
  rcases List.mem_append.mp h with h | h
  · exact .inl (isIdentifierChar_of_mem_withoutBuild h)
  · split at h
    next => nomatch h
    next =>
      rcases List.mem_cons.mp h with rfl | h
      · exact .inr rfl
      · exact .inl (hbuild c h)

theorem isWhitespace_of_printable {c : Char} (h : Printable c ∨ c = '^' ∨ c = '=') :
    isWhitespace c = false := by
  rcases h with (h | rfl) | rfl | rfl
  · unfold isIdentifierChar Char.isAlphanum Char.isAlpha Char.isUpper Char.isLower
      Char.isDigit at h
    simp only [Bool.or_eq_true, Bool.and_eq_true, decide_eq_true_iff, beq_iff_eq] at h
    rcases h with (((⟨hlow, hhigh⟩ | ⟨hlow, hhigh⟩) | ⟨hlow, hhigh⟩) | rfl) | rfl
    · exact isWhitespace_eq_false (le_trans (by decide) hlow) (le_trans hhigh (by decide))
    · exact isWhitespace_eq_false (le_trans (by decide) hlow) (le_trans hhigh (by decide))
    · exact isWhitespace_eq_false (le_trans (by decide) hlow) (le_trans hhigh (by decide))
    · decide
    · decide
  · decide
  · decide
  · decide

theorem trim_display (v : Version) : trim v.display = v.display :=
  trim_eq_self fun _ hc => isWhitespace_of_printable (.inl (printable_of_mem_display hc))

theorem trim_operator_cons {op : Char} (hop : op = '^' ∨ op = '=') {text : Text}
    (h : ∀ c ∈ text, Printable c) : trim (op :: text) = op :: text := by
  refine trim_eq_self fun c hc => isWhitespace_of_printable ?_
  rcases List.mem_cons.mp hc with rfl | hc
  · exact .inr hop
  · exact .inl (h c hc)

theorem requirementNamesVersion_iff {requirement : Text} {v : Version} :
    requirementNamesVersion requirement v = true ↔ trim requirement = v.display ∨
      trim requirement = '^' :: v.display ∨ trim requirement = '=' :: v.display := by
  simp only [requirementNamesVersion, Bool.or_eq_true, beq_iff_eq, or_assoc]

/-- What a requirement is rewritten to names the version. -/
theorem requirementNamesVersion_rewriteReq (old : Text) (v : Version) :
    requirementNamesVersion (rewriteReq old v) v = true := by
  unfold rewriteReq
  split
  next h => exact h
  next =>
    rw [requirementNamesVersion_iff]
    split
    next =>
      exact .inr (.inr (trim_operator_cons (.inr rfl) fun _ hc => printable_of_mem_display hc))
    next => exact .inl (trim_display v)

/-! ## What is printed of a requirement that names a version -/

theorem exists_printed {semver : SemverCrate} (hsemver : semver.Documented) {requirement : Text}
    {v : Version} (hnames : requirementNamesVersion requirement v = true) {printed : Text}
    (hprinted : semver.printRequirement requirement = some printed) :
    ∃ op, (op = '^' ∨ op = '=') ∧ printed = op :: v.withoutBuild := by
  have htrim := hsemver.spaces _ _ hprinted
  rcases requirementNamesVersion_iff.mp hnames with heq | heq | heq
  · rw [heq, hsemver.bare] at htrim
    exact ⟨'^', .inl rfl, (Option.some.inj htrim).symm⟩
  · rw [heq, hsemver.caret] at htrim
    exact ⟨'^', .inl rfl, (Option.some.inj htrim).symm⟩
  · rw [heq, hsemver.exactly] at htrim
    exact ⟨'=', .inr rfl, (Option.some.inj htrim).symm⟩

theorem display_eq_withoutBuild_iff {v : Version} : v.withoutBuild = v.display ↔ v.build = [] := by
  unfold Version.display
  rw [List.self_eq_append_right]
  cases v.build with
  | nil => exact iff_of_true rfl rfl
  | cons c build => exact iff_of_false (fun h => nomatch h) (fun h => nomatch h)

/-- The printed requirement names the version unless there is build metadata
to lose. -/
theorem requirementNamesVersion_printed_iff {semver : SemverCrate} (hsemver : semver.Documented)
    {requirement : Text} {v : Version} (hnames : requirementNamesVersion requirement v = true)
    {printed : Text} (hprinted : semver.printRequirement requirement = some printed) :
    requirementNamesVersion printed v = true ↔ v.build = [] := by
  obtain ⟨op, hop, rfl⟩ := exists_printed hsemver hnames hprinted
  have hnotPrintable : ¬ op :: v.withoutBuild = v.display := fun heq => by
    have hmem : op ∈ v.display := heq ▸ List.mem_cons_self ..
    rcases printable_of_mem_display hmem with hid | rfl
    · rcases hop with rfl | rfl <;> nomatch hid
    · rcases hop with h | h <;> nomatch h
  rw [requirementNamesVersion_iff, trim_operator_cons hop fun _ hc =>
    .inl (isIdentifierChar_of_mem_withoutBuild hc), ← display_eq_withoutBuild_iff]
  rw [or_iff_right hnotPrintable, List.cons.injEq, List.cons.injEq, ← or_and_right]
  exact and_iff_right hop

end Folo.ReleasePlan
