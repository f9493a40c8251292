import Archipelago.Dominance
import Archipelago.Proofs.OrderedScalars
import Mathlib

namespace Archipelago.Proofs.Sums

open Float.Model
open Float.Model.UnpackedFloat
open OrderedScalars

/-- Zero of either sign, or anything with a positive sign. -/
def NotBelowZero : UnpackedFloat → Prop
  | .notANumber => False
  | .infinity sign => sign = .positive
  | .zero _ => True
  | .finite sign _ _ _ => sign = .positive

theorem notBelowZero_roundWithAccuracy (format : Format) (mantissa : Nat) (exponent : Int)
    (accuracy : Accuracy) :
    NotBelowZero (roundWithAccuracy format .positive mantissa exponent accuracy) := by
  rw [roundWithAccuracy]
  dsimp only
  split
  · trivial
  · rfl

theorem notBelowZero_normalize (format : Format) {mantissa : Int} (h : 0 ≤ mantissa)
    (exponent : Int) (sign : Sign) :
    NotBelowZero (UnpackedFloat.normalize format mantissa exponent sign) := by
  rw [UnpackedFloat.normalize]
  split
  case h_1 hlt => exact absurd (Std.compare_eq_lt.mp hlt) (by omega)
  case h_2 => trivial
  case h_3 => exact notBelowZero_roundWithAccuracy _ _ _ _

theorem notBelowZero_add (format : Format) {x y : UnpackedFloat} (hx : NotBelowZero x)
    (hy : NotBelowZero y) : NotBelowZero (UnpackedFloat.add format x y) := by
  cases x with
  | notANumber => exact hx.elim
  | infinity sign =>
      cases hx
      cases y with
      | notANumber => exact hy.elim
      | infinity sign =>
          cases hy
          rfl
      | zero => rfl
      | finite => rfl
  | zero sign =>
      cases y with
      | notANumber => exact hy.elim
      | infinity => exact hy
      | zero other =>
          rw [UnpackedFloat.add]
          split
          · trivial
          · trivial
      | finite => exact hy
  | finite sign m e hm =>
      cases hx
      cases y with
      | notANumber => exact hy.elim
      | infinity => exact hy
      | zero => rfl
      | finite other n f hn =>
          cases hy
          apply notBelowZero_normalize
          exact Int.add_nonneg (Int.natCast_nonneg _) (Int.natCast_nonneg _)

theorem notBelowZero_unpack {word : BitVec Format.binary64.numBits}
    (hsign : Sign.ofBitVec (unpackSign word) = .positive)
    (hfraction : unpackExponent word = -1#_ → unpackMantissa word = 0#_) :
    NotBelowZero (unpack .binary64 word) := by
  rw [UnpackedFloat.unpack]
  dsimp only
  split_ifs with hlargest hzero
  · exact hsign
  · exact absurd (hfraction hlargest) hzero
  · trivial
  · exact hsign
  · exact hsign

theorem notBelowZero_packComponents {exponent : BitVec 11} {fraction : BitVec 52}
    (h : exponent = -1#_ → fraction = 0#_) :
    NotBelowZero (unpack .binary64 (packComponents .binary64 .positive exponent fraction)) := by
  apply notBelowZero_unpack
  · rw [unpackSign_packComponents]
    rfl
  · rwa [unpackExponent_packComponents, unpackMantissa_packComponents]

theorem notBelowZero_packed {x : UnpackedFloat} (h : NotBelowZero x) :
    NotBelowZero (unpack .binary64 (UnpackedFloat.pack .binary64 x)) := by
  cases x with
  | notANumber => exact h.elim
  | infinity sign =>
      cases h
      exact notBelowZero_packComponents fun _ => rfl
  | zero sign =>
      cases sign with
      | negative => trivial
      | positive => trivial
  | finite sign m e hm =>
      cases h
      rw [UnpackedFloat.pack]
      dsimp only
      split_ifs with hlarge
      · exact notBelowZero_packComponents fun _ => rfl
      · apply notBelowZero_packComponents
        intro hexponent
        have hvalue := congrArg BitVec.toNat hexponent
        rw [BitVec.toNat_ofNat, Nat.mod_eq_of_lt (by omega)] at hvalue
        have hlargest : (-1#11).toNat = 2 ^ 11 - 1 := rfl
        omega
      · exact notBelowZero_packComponents fun hexponent => absurd hexponent (by decide)

theorem negative_iff {x : Binary64} : x.negative = true ↔ 2 ^ 63 ≤ x.bits.toNat := by
  rw [Binary64.negative, decide_eq_true_eq, UInt64.le_iff_toNat_le]
  rfl

theorem isNaN_eq_false_iff {x : Binary64} : x.isNaN = false ↔ x.magnitude ≤ 2047 * 2 ^ 52 := by
  rw [Binary64.isNaN, decide_eq_false_iff_not, Nat.not_lt]
  rfl

theorem magnitude_lt (x : Binary64) : x.magnitude < 2 ^ 63 :=
  Nat.mod_lt _ (by decide)

theorem toNat_unpackExponent (x : Binary64) :
    (@unpackExponent .binary64 x.bits.toBitVec).toNat = x.magnitude / 2 ^ 52 := by
  change x.bits.toNat >>> 52 % 2 ^ 11 = x.bits.toNat % 2 ^ 63 / 2 ^ 52
  rw [Nat.shiftRight_eq_div_pow]
  omega

theorem toNat_unpackMantissa (x : Binary64) :
    (@unpackMantissa .binary64 x.bits.toBitVec).toNat = x.magnitude % 2 ^ 52 := by
  change x.bits.toNat >>> 0 % 2 ^ 52 = x.bits.toNat % 2 ^ 63 % 2 ^ 52
  rw [Nat.shiftRight_zero]
  omega

theorem unpackExponent_eq_iff {x : Binary64} {n : Nat} (hn : n < 2 ^ 11) :
    @unpackExponent .binary64 x.bits.toBitVec = BitVec.ofNat 11 n ↔ x.magnitude / 2 ^ 52 = n := by
  rw [← BitVec.toNat_inj, toNat_unpackExponent, BitVec.toNat_ofNat, Nat.mod_eq_of_lt hn]

theorem unpackExponent_largest_iff {x : Binary64} :
    @unpackExponent .binary64 x.bits.toBitVec = -1#11 ↔ x.magnitude / 2 ^ 52 = 2047 :=
  unpackExponent_eq_iff (by decide)

theorem unpackExponent_zero_iff {x : Binary64} :
    @unpackExponent .binary64 x.bits.toBitVec = 0#11 ↔ x.magnitude / 2 ^ 52 = 0 :=
  unpackExponent_eq_iff (by decide)

theorem unpackMantissa_eq_zero_iff {x : Binary64} :
    @unpackMantissa .binary64 x.bits.toBitVec = 0#52 ↔ x.magnitude % 2 ^ 52 = 0 := by
  rw [← BitVec.toNat_inj, toNat_unpackMantissa]
  rfl

theorem unpackSign_eq_zero_iff {x : Binary64} :
    @unpackSign .binary64 x.bits.toBitVec = 0#1 ↔ x.negative = false := by
  have hlt := x.bits.toNat_lt
  rw [← BitVec.toNat_inj, ← Bool.not_eq_true, negative_iff]
  change x.bits.toNat >>> 63 % 2 ^ 1 = 0 ↔ _
  rw [Nat.shiftRight_eq_div_pow]
  omega

theorem sign_eq_positive_iff {x : Binary64} :
    Sign.ofBitVec (@unpackSign .binary64 x.bits.toBitVec) = .positive ↔ x.negative = false := by
  rw [← unpackSign_eq_zero_iff, Sign.ofBitVec]
  split
  case isTrue h => exact iff_of_true rfl h
  case isFalse h => exact iff_of_false nofun h

theorem zero_le_iff {x : Binary64} :
    0 ≤ x ↔ x.isNaN = false ∧ (x.negative = true → x.magnitude = 0) := by
  have hzero : (0 : Binary64).isNaN = false ∧ (0 : Binary64).signed = 0 := by decide
  rw [le_iff, hzero.2, Binary64.signed]
  cases x.negative with
  | true => simp [hzero.1]
  | false => simp [hzero.1]

theorem notBelowZero_unpack_iff {x : Binary64} :
    NotBelowZero (UnpackedFloat.unpack .binary64 x.bits.toBitVec) ↔ 0 ≤ x := by
  have hlt := magnitude_lt x
  -- The sign decides unless the number is undefined or zero.
  have hsign : x.magnitude ≤ 2047 * 2 ^ 52 → x.magnitude ≠ 0 →
      (Sign.ofBitVec (@unpackSign .binary64 x.bits.toBitVec) = .positive ↔ 0 ≤ x) := by
    intro hdefined hne
    rw [sign_eq_positive_iff, zero_le_iff, isNaN_eq_false_iff]
    simp only [hdefined, hne, true_and, imp_false, Bool.not_eq_true]
  rw [UnpackedFloat.unpack]
  dsimp only
  split_ifs with hexponent hzero hexponent' hzero
  · rw [unpackExponent_largest_iff] at hexponent
    rw [unpackMantissa_eq_zero_iff] at hzero
    exact hsign (by omega) (by omega)
  · rw [unpackExponent_largest_iff] at hexponent
    rw [unpackMantissa_eq_zero_iff] at hzero
    rw [zero_le_iff, isNaN_eq_false_iff]
    exact iff_of_false nofun (by omega)
  · rw [unpackExponent_zero_iff] at hexponent'
    rw [unpackMantissa_eq_zero_iff] at hzero
    rw [zero_le_iff, isNaN_eq_false_iff]
    exact iff_of_true trivial (by omega)
  · rw [unpackExponent_largest_iff] at hexponent
    rw [unpackMantissa_eq_zero_iff] at hzero
    exact hsign (by omega) (by omega)
  · rw [unpackExponent_largest_iff] at hexponent
    rw [unpackExponent_zero_iff] at hexponent'
    exact hsign (by omega) (by omega)

theorem notBelowZero_pack {x : UnpackedFloat} (h : NotBelowZero x) :
    NotBelowZero (Float.Model.pack x).unpack :=
  notBelowZero_packed h

theorem zero_le_ofFloat {x : Float} (h : NotBelowZero x.toModel.unpack) :
    0 ≤ Binary64.ofFloat x := by
  have hdefined : x.isNaN = false := by
    change x.toModel.unpack.isNaN = false
    cases hx : x.toModel.unpack with
    | notANumber =>
        rw [hx] at h
        exact h.elim
    | infinity => rfl
    | zero => rfl
    | finite => rfl
  rw [Binary64.ofFloat, hdefined]
  exact notBelowZero_unpack_iff.mp h

theorem add_nonneg {x y : Binary64} (hx : 0 ≤ x) (hy : 0 ≤ y) : 0 ≤ x + y := by
  change 0 ≤ Binary64.combine (· + ·) x y
  rw [Binary64.combine, hx.2.1, hy.2.1]
  apply zero_le_ofFloat
  apply notBelowZero_pack
  apply notBelowZero_add
  · exact notBelowZero_pack (notBelowZero_unpack_iff.mpr hx)
  · exact notBelowZero_pack (notBelowZero_unpack_iff.mpr hy)

/-- A sum of numbers that are not below zero is not below zero, whatever is lost by rounding. -/
theorem total_nonneg {xs : List Binary64} (h : ∀ x ∈ xs, 0 ≤ x) : 0 ≤ Scalar.total xs := by
  have hfold : ∀ start : Binary64, 0 ≤ start → 0 ≤ xs.foldl (· + ·) start := by
    induction xs with
    | nil => exact fun _ hstart => hstart
    | cons x xs ih =>
        intro start hstart
        rw [List.foldl_cons]
        exact ih (fun y hy => h y (List.mem_cons_of_mem x hy)) _
          (add_nonneg hstart (h x List.mem_cons_self))
  exact hfold (-0) (by decide)

theorem excess_nonneg (x : Binary64) : 0 ≤ excess x := by
  rw [excess]
  split
  case isTrue h => exact ⟨h.1, h.2.1, Int.le_of_lt h.2.2⟩
  case isFalse => decide

theorem totalViolation_isNaN (constraints : List Binary64) :
    (totalViolation constraints).isNaN = false := by
  have hnonneg : ∀ x ∈ constraints.map excess, 0 ≤ x := by
    intro x hx
    obtain ⟨c, -, rfl⟩ := List.mem_map.mp hx
    exact excess_nonneg c
  exact (total_nonneg hnonneg).2.1

end Archipelago.Proofs.Sums
