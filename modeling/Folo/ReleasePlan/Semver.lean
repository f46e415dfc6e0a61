import Folo.ReleasePlan.Versions

/-!
# A version crate

The `semver` crate as far as plans use it: `semverText` reads what versions
print (`readsBack_semverText`) and orders them by their numbers, then by their
prereleases, of which none is the greatest, and then by their build metadata
(`ordered_semverText`).
-/

namespace Folo.ReleasePlan

open Folo.Lib Std

/-- What versions print is read as themselves. -/
def SemverCrate.ReadsBack (semver : SemverCrate) : Prop := ∀ v, semver.parse v.display = some v

def numberOf (digits : Text) : Nat := Nat.ofDigitChars 10 digits 0

/-- The text before the first of the separators, and the one after it. -/
def cut (separator : Char) (text : Text) : Text × Text :=
  (splitOnce separator text).getD (text, [])

/-- A version is accepted as what it prints, with no leading zeros. -/
def readVersion (text : Text) : Option Version :=
  let build := (cut '+' text).2
  let pre := (cut '-' (cut '+' text).1).2
  match (cut '-' (cut '+' text).1).1.splitOn '.' with
  | [major, minor, patch] =>
    if h : (numberOf major ≤ u64Max ∧ numberOf minor ≤ u64Max ∧ numberOf patch ≤ u64Max) ∧
        validIdentifiers noLeadingZero pre = true ∧
        validIdentifiers (fun _ => true) build = true then
      let version : Version :=
        { major := numberOf major, minor := numberOf minor, patch := numberOf patch, pre, build
          fits := h.1, preValid := h.2.1, buildValid := h.2.2 }
      if version.display = text then some version else none
    else none
  | _ => none

/-- The derived order: field by field, no prerelease after every prerelease. -/
def compareVersions : Version → Version → Ordering :=
  compareLex (compareOn Version.major) <| compareLex (compareOn Version.minor) <|
    compareLex (compareOn Version.patch) <| compareLex (compareOn fun v => v.pre.isEmpty) <|
      compareLex (compareOn Version.pre) (compareOn Version.build)

def semverText : SemverCrate where
  parse := readVersion
  compare := compareVersions
  printRequirement := some

theorem ordered_semverText : semverText.Ordered where
  trans := by
    show TransCmp compareVersions
    unfold compareVersions
    infer_instance
  eq_of_compare v w h := by
    simp only [semverText, compareVersions, compareLex_eq_eq, compareOn,
      LawfulEqOrd.compare_eq_iff_eq] at h
    obtain ⟨hmajor, hminor, hpatch, -, hpre, hbuild⟩ := h
    cases v
    cases w
    simp_all
  numbers v w h := by
    have hne : ∀ n : Nat, compare n n = .eq := fun n => ReflCmp.compare_self
    have hlt : ∀ {m n : Nat}, m < n → compare m n = .lt := Nat.compare_eq_lt.mpr
    show compareVersions v w = .lt
    unfold compareVersions compareLex compareOn
    rcases h with h | ⟨h₁, h | ⟨h₂, h⟩⟩
    · rw [hlt h]
      rfl
    · rw [h₁, hne, hlt h]
      rfl
    · rw [h₁, hne, h₂, hne, hlt h]
      rfl

/-! ## Reading back -/

theorem cut_of_not_mem {separator : Char} {text : Text} (h : separator ∉ text) :
    cut separator text = (text, []) := by
  unfold cut
  rw [splitOnce_eq_none.mpr h]
  rfl

theorem cut_append_cons {separator : Char} {before after : Text} (h : separator ∉ before) :
    cut separator (before ++ separator :: after) = (before, after) := by
  unfold cut
  rw [splitOnce_eq_some.mpr ⟨rfl, h⟩]
  rfl

theorem not_mem_toDigits {c : Char} (hc : c.isDigit = false) (n : Nat) :
    c ∉ Nat.toDigits 10 n := by
  intro h
  rw [Nat.isDigit_of_mem_toDigits (by decide) (by decide) h] at hc
  nomatch hc

/-- The three numbers as they are printed. -/
def Version.numbers (v : Version) : Text :=
  Nat.toDigits 10 v.major ++ '.' :: (Nat.toDigits 10 v.minor ++ '.' :: Nat.toDigits 10 v.patch)

theorem cut_withoutBuild (v : Version) : cut '-' v.withoutBuild = (v.numbers, v.pre) := by
  have hdash : '-' ∉ v.numbers := by
    unfold Version.numbers
    simp only [List.mem_append, List.mem_cons, not_or]
    exact ⟨not_mem_toDigits rfl _, by decide, not_mem_toDigits rfl _, by decide,
      not_mem_toDigits rfl _⟩
  have hsplit : v.withoutBuild = v.numbers ++ if v.pre.isEmpty then [] else '-' :: v.pre := by
    unfold Version.withoutBuild Version.numbers
    simp
  rw [hsplit]
  split
  next hempty => rw [List.append_nil, cut_of_not_mem hdash, List.isEmpty_iff.mp hempty]
  next => exact cut_append_cons hdash

theorem cut_display (v : Version) : cut '+' v.display = (v.withoutBuild, v.build) := by
  have hplus : '+' ∉ v.withoutBuild := fun h => nomatch isIdentifierChar_of_mem_withoutBuild h
  unfold Version.display
  split
  next hempty => rw [List.append_nil, cut_of_not_mem hplus, List.isEmpty_iff.mp hempty]
  next => exact cut_append_cons hplus

theorem splitOn_numbers (v : Version) : v.numbers.splitOn '.' =
    [Nat.toDigits 10 v.major, Nat.toDigits 10 v.minor, Nat.toDigits 10 v.patch] := by
  have hdot : ∀ n, '.' ∉ Nat.toDigits 10 n := not_mem_toDigits rfl
  unfold Version.numbers
  rw [List.splitOn_append_cons_self_of_not_mem (hdot _),
    List.splitOn_append_cons_self_of_not_mem (hdot _), List.splitOn_eq_singleton (hdot _)]

theorem numberOf_toDigits (n : Nat) : numberOf (Nat.toDigits 10 n) = n :=
  Nat.ofDigitChars_ten_toDigits

theorem readsBack_semverText : semverText.ReadsBack := by
  intro v
  show readVersion v.display = some v
  unfold readVersion
  simp only [cut_display, cut_withoutBuild, splitOn_numbers]
  simp only [numberOf_toDigits]
  rw [dif_pos ⟨v.fits, v.preValid, v.buildValid⟩]
  exact if_pos trivial

end Folo.ReleasePlan
