import Mathlib.Algebra.Group.Nat.Defs
import Mathlib.Data.List.Basic

/-!
# Bytes

A number as a fixed number of bytes, least significant first, and back: the
two are inverse on numbers that fit and on byte lists of the width.
-/

namespace Folo.Lib

/-- The low `width` bytes of a number. -/
def leBytes : Nat → Nat → List UInt8
  | 0, _ => []
  | width + 1, n => UInt8.ofNat n :: leBytes width (n / 256)

/-- The number that bytes spell. -/
def ofLeBytes : List UInt8 → Nat
  | [] => 0
  | b :: bytes => b.toNat + 256 * ofLeBytes bytes

@[simp] theorem leBytes_length (width n : Nat) : (leBytes width n).length = width := by
  induction width generalizing n with
  | zero => rfl
  | succ width ih => rw [leBytes, List.length_cons, ih]

theorem ofLeBytes_lt (bytes : List UInt8) : ofLeBytes bytes < 256 ^ bytes.length := by
  induction bytes with
  | nil => exact Nat.one_pos
  | cons b bytes ih =>
    have hb : b.toNat < 256 := b.toNat_lt
    rw [ofLeBytes, List.length_cons, Nat.pow_succ]
    omega

theorem ofLeBytes_lt_of_length {bytes : List UInt8} {width : Nat} (h : bytes.length = width) :
    ofLeBytes bytes < 256 ^ width :=
  h ▸ ofLeBytes_lt bytes

theorem ofLeBytes_leBytes {width n : Nat} (h : n < 256 ^ width) :
    ofLeBytes (leBytes width n) = n := by
  induction width generalizing n with
  | zero =>
    rw [Nat.pow_zero, Nat.lt_one_iff] at h
    rw [h]
    rfl
  | succ width ih =>
    rw [Nat.pow_succ] at h
    have hdiv : n / 256 < 256 ^ width := by omega
    have hmod : (UInt8.ofNat n).toNat = n % 256 := UInt8.toNat_ofNat' ..
    rw [leBytes, ofLeBytes, ih hdiv, hmod]
    exact Nat.mod_add_div n 256

theorem leBytes_ofLeBytes (bytes : List UInt8) :
    leBytes bytes.length (ofLeBytes bytes) = bytes := by
  induction bytes with
  | nil => rfl
  | cons b bytes ih =>
    have hb : b.toNat < 256 := b.toNat_lt
    have hlow : UInt8.ofNat (b.toNat + 256 * ofLeBytes bytes) = b := by
      apply UInt8.toNat.inj
      rw [UInt8.toNat_ofNat']
      omega
    have hhigh : (b.toNat + 256 * ofLeBytes bytes) / 256 = ofLeBytes bytes := by omega
    rw [List.length_cons, ofLeBytes, leBytes, hlow, hhigh, ih]

theorem leBytes_ofLeBytes_of_length {bytes : List UInt8} {width : Nat}
    (h : bytes.length = width) : leBytes width (ofLeBytes bytes) = bytes :=
  h ▸ leBytes_ofLeBytes bytes

end Folo.Lib
