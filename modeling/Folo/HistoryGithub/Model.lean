import Folo.Lib.Outcomes
import Folo.Lib.Sorting
import Folo.Lib.Texts
import Mathlib.Data.Char
import Mathlib.Data.List.Lex

/-!
# Identities of the workflow

`model.rs`, and the platform lists of `result.rs`: repositories, instances and
commits are made by parsing, so that each carries the shape that its markers
and job names rely on.
-/

namespace Folo.HistoryGithub

open Folo.Lib

abbrev Text := List Char

def isIdentifierByte (c : Char) : Bool :=
  c.isAlphanum || c = '.' || c = '-' || c = '_'

/-- A literal segment of a URL. -/
def validPart (part : Text) : Bool :=
  !part.isEmpty && part ≠ ['.'] && part ≠ ['.', '.'] && part.all isIdentifierByte

structure Repository where
  owner : Text
  name : Text
  deriving DecidableEq

def Repository.fromStr (value : Text) : Option Repository :=
  match splitOnce '/' value with
  | none => none
  | some (owner, name) => if validPart owner && validPart name then some ⟨owner, name⟩ else none

/-- The project namespace within a repository. -/
structure Instance where
  asStr : Text
  valid : asStr ≠ [] ∧ asStr.all isIdentifierByte = true
  deriving DecidableEq

def Instance.fromStr (value : Text) : Option Instance :=
  if h : value ≠ [] ∧ value.all isIdentifierByte = true then some ⟨value, h⟩ else none

def isAsciiHexdigit (c : Char) : Bool :=
  c.isDigit || ('a' ≤ c && c ≤ 'f') || ('A' ≤ c && c ≤ 'F')

def isLowerHexdigit (c : Char) : Bool :=
  c.isDigit || ('a' ≤ c && c ≤ 'f')

theorem toNat_toLower (c : Char) :
    c.toLower.toNat = if 65 ≤ c.toNat ∧ c.toNat ≤ 90 then c.toNat + 32 else c.toNat := by
  unfold Char.toLower
  split
  · next h =>
    have hup : 65 ≤ c.toNat ∧ c.toNat ≤ 90 := ⟨h.1, h.2⟩
    rw [if_pos hup]
    show (c.val + ('a'.val - 'A'.val)).toNat = _
    rw [UInt32.toNat_add]
    show (c.toNat + 32) % 2 ^ 32 = _
    omega
  · next h =>
    have hup : ¬ (65 ≤ c.toNat ∧ c.toNat ≤ 90) := h
    rw [if_neg hup]

theorem isLowerHexdigit_toLower {c : Char} (h : isAsciiHexdigit c = true) :
    isLowerHexdigit c.toLower = true := by
  have hlow := toNat_toLower c
  simp only [isAsciiHexdigit, isLowerHexdigit, Char.isDigit, Bool.or_eq_true, Bool.and_eq_true,
    decide_eq_true_eq, Char.le_def, UInt32.le_iff_toNat_le, ge_iff_le] at h ⊢
  simp only [Char.toNat] at hlow
  have h0 : '0'.val.toNat = 48 := rfl
  have h9 : '9'.val.toNat = 57 := rfl
  have ha : 'a'.val.toNat = 97 := rfl
  have hf : 'f'.val.toNat = 102 := rfl
  have hA : 'A'.val.toNat = 65 := rfl
  have hF : 'F'.val.toNat = 70 := rfl
  split at hlow <;> omega

def shaDigits : Nat := 40

/-- A full commit identity, in lower case. -/
structure CommitSha where
  asStr : Text
  valid : asStr.length = shaDigits ∧ asStr.all isLowerHexdigit = true
  deriving DecidableEq

theorem commitSha_valid {value : Text}
    (h : value.length = shaDigits ∧ value.all isAsciiHexdigit = true) :
    (value.map Char.toLower).length = shaDigits ∧
      (value.map Char.toLower).all isLowerHexdigit = true := by
  refine ⟨(List.length_map _).trans h.1, List.all_eq_true.mpr fun c hc => ?_⟩
  obtain ⟨d, hd, rfl⟩ := List.mem_map.mp hc
  exact isLowerHexdigit_toLower (List.all_eq_true.mp h.2 d hd)

def CommitSha.fromStr (value : Text) : Option CommitSha :=
  if h : value.length = shaDigits ∧ value.all isAsciiHexdigit = true then
    some ⟨value.map Char.toLower, commitSha_valid h⟩
  else none

/-! ## Platforms -/

def isPlatformIdentifier (value : Text) : Bool :=
  !value.isEmpty && value ≠ ['.'] && value ≠ ['.', '.'] && value.all isIdentifierByte

/-- A set of matrix identifiers, in order. -/
structure PlatformSet where
  platforms : List Text
  ordered : platforms.Pairwise (· < ·)
  identifiers : ∀ platform ∈ platforms, isPlatformIdentifier platform = true

/-- The identifiers listed between commas. -/
def platformList (input : Text) : Option PlatformSet :=
  let values := (input.splitOn ',').map trim
  if h : values.all isPlatformIdentifier = true then
    some ⟨treeSet values, strict_treeSet values, fun platform hplatform =>
      List.all_eq_true.mp h platform (mem_treeSet.mp hplatform)⟩
  else none

end Folo.HistoryGithub
