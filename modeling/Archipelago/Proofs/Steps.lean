import Archipelago.Annealing.Step
import Archipelago.Proofs.Roundings

namespace Archipelago.Proofs.Steps

open Annealing
open Float.Model
open Float.Model.UnpackedFloat
open OrderedScalars
open Roundings
open Sums

/-- Zero has to have the positive sign as well. -/
def Positive : UnpackedFloat → Prop
  | .notANumber => False
  | .infinity sign => sign = .positive
  | .zero sign => sign = .positive
  | .finite sign _ _ _ => sign = .positive

theorem notBelowZero_mul {x y : UnpackedFloat} (hx : NotBelowZero x) (hy : NotBelowZero y)
    (h : (UnpackedFloat.mul .binary64 x y).isNaN = false) :
    NotBelowZero (UnpackedFloat.mul .binary64 x y) := by
  cases x with
  | notANumber => exact hx.elim
  | infinity sign =>
      cases hx
      cases y with
      | notANumber => exact hy.elim
      | zero => contradiction
      | infinity | finite =>
          cases hy
          rfl
  | zero sign =>
      cases y with
      | notANumber => exact hy.elim
      | infinity => contradiction
      | zero | finite => trivial
  | finite sign m e hm =>
      cases hx
      cases y with
      | notANumber => exact hy.elim
      | zero => trivial
      | infinity =>
          cases hy
          rfl
      | finite =>
          cases hy
          exact notBelowZero_roundWithAccuracy _ _ _ _

theorem notBelowZero_div {x y : UnpackedFloat} (hx : NotBelowZero x) (hy : Positive y)
    (h : (UnpackedFloat.div .binary64 x y).isNaN = false) :
    NotBelowZero (UnpackedFloat.div .binary64 x y) := by
  cases x with
  | notANumber => exact hx.elim
  | infinity sign =>
      cases hx
      cases y with
      | notANumber => exact hy.elim
      | infinity => contradiction
      | zero | finite =>
          cases hy
          rfl
  | zero sign =>
      cases y with
      | notANumber => exact hy.elim
      | zero => contradiction
      | infinity | finite => trivial
  | finite sign m e hm =>
      cases hx
      cases y with
      | notANumber => exact hy.elim
      | infinity => trivial
      | zero =>
          cases hy
          rfl
      | finite =>
          cases hy
          exact notBelowZero_roundWithAccuracy _ _ _ _

theorem positive_roundWithAccuracy (mantissa : Nat) (exponent : Int) (accuracy : Accuracy) :
    Positive (roundWithAccuracy .binary64 .positive mantissa exponent accuracy) := by
  rw [roundWithAccuracy]
  dsimp only
  split
  · rfl
  · rfl

theorem positive_normalize {mantissa : Int} (h : 0 ≤ mantissa) (exponent : Int) :
    Positive (UnpackedFloat.normalize .binary64 mantissa exponent .positive) := by
  rw [UnpackedFloat.normalize]
  split
  case h_1 hlt => exact absurd (Std.compare_eq_lt.mp hlt) (by omega)
  case h_2 => rfl
  case h_3 => exact positive_roundWithAccuracy _ _ _

theorem positive_add {x y : UnpackedFloat} (hx : Positive x) (hy : NotBelowZero y) :
    Positive (UnpackedFloat.add .binary64 x y) := by
  cases x with
  | notANumber => exact hx.elim
  | infinity sign =>
      cases hx
      cases y with
      | notANumber => exact hy.elim
      | infinity =>
          cases hy
          rfl
      | zero | finite => rfl
  | zero sign =>
      cases hx
      cases y with
      | notANumber => exact hy.elim
      | zero other =>
          cases other with
          | negative => rfl
          | positive => rfl
      | infinity | finite => exact hy
  | finite sign m e hm =>
      cases hx
      cases y with
      | notANumber => exact hy.elim
      | infinity => exact hy
      | zero => rfl
      | finite other n f hn =>
          cases hy
          apply positive_normalize
          exact Int.add_nonneg (Int.natCast_nonneg _) (Int.natCast_nonneg _)

theorem positive_unpack {word : BitVec Format.binary64.numBits}
    (hsign : unpackSign word = 0#1) (hdefined : (unpack .binary64 word).isNaN = false) :
    Positive (unpack .binary64 word) := by
  have hpositive : Sign.ofBitVec (unpackSign word) = .positive := if_pos hsign
  rw [UnpackedFloat.unpack] at hdefined ⊢
  dsimp only at hdefined ⊢
  split_ifs at hdefined ⊢
  · exact hpositive
  · contradiction
  · exact hpositive
  · exact hpositive
  · exact hpositive

theorem Positive.isNaN {x : UnpackedFloat} (h : Positive x) : x.isNaN = false := by
  cases x with
  | notANumber => exact h.elim
  | infinity | zero | finite => rfl

theorem Positive.notBelowZero {x : UnpackedFloat} (h : Positive x) : NotBelowZero x := by
  cases x with
  | notANumber => exact h
  | zero => trivial
  | infinity | finite => exact h

theorem positive_packed {x : UnpackedFloat} (h : Positive x) :
    Positive (unpack .binary64 (UnpackedFloat.pack .binary64 x)) := by
  apply positive_unpack
  case hdefined => exact packed_isNaN h.isNaN
  case hsign =>
    cases x with
    | notANumber => exact h.elim
    | infinity | zero =>
        cases h
        exact unpackSign_packComponents _ _ _
    | finite sign m e hm =>
        cases h
        rw [UnpackedFloat.pack]
        dsimp only
        split_ifs
        · exact unpackSign_packComponents _ _ _
        · exact unpackSign_packComponents _ _ _
        · exact unpackSign_packComponents _ _ _

/-- Not below zero, if it is a number at all. -/
def Nonnegative (x : Binary64) : Prop :=
  x.isNaN = false → 0 ≤ x

/-- A number with the positive sign, if it is a number at all. -/
def Unsigned (x : Binary64) : Prop :=
  x.isNaN = false → Positive (parts x)

theorem unsigned_of_negative {x : Binary64} (h : x.negative = false) : Unsigned x := by
  intro hdefined
  apply positive_unpack
  case hsign => exact unpackSign_eq_zero_iff.mpr h
  case hdefined =>
    rw [← parts_isNaN] at hdefined
    exact hdefined

theorem isNaN_of_ofParts {x : UnpackedFloat} (h : (ofParts x).isNaN = false) :
    x.isNaN = false := by
  cases x with
  | notANumber =>
      have hundefined : (ofParts .notANumber).isNaN = true := by decide +kernel
      rw [hundefined] at h
      exact h
  | infinity | zero | finite => rfl

theorem nonnegative_ofParts {x : UnpackedFloat} (h : x.isNaN = false → NotBelowZero x) :
    Nonnegative (ofParts x) :=
  fun hdefined => zero_le_ofFloat (notBelowZero_pack (h (isNaN_of_ofParts hdefined)))

section Operations

variable {x y : Binary64}

theorem Nonnegative.mul (hx : Nonnegative x) (hy : Nonnegative y) : Nonnegative (x * y) := by
  intro hdefined
  obtain ⟨hx', hy'⟩ := defined_of_combine hdefined
  have hparts : NotBelowZero (parts x) ∧ NotBelowZero (parts y) :=
    ⟨notBelowZero_unpack_iff.mpr (hx hx'), notBelowZero_unpack_iff.mpr (hy hy')⟩
  rw [mul_eq hx' hy'] at hdefined ⊢
  exact nonnegative_ofParts (notBelowZero_mul hparts.1 hparts.2) hdefined

theorem Nonnegative.div (hx : Nonnegative x) (hy : Unsigned y) : Nonnegative (x / y) := by
  intro hdefined
  obtain ⟨hx', hy'⟩ := defined_of_combine hdefined
  have hparts : NotBelowZero (parts x) := notBelowZero_unpack_iff.mpr (hx hx')
  rw [div_eq hx' hy'] at hdefined ⊢
  exact nonnegative_ofParts (notBelowZero_div hparts (hy hy')) hdefined

theorem Unsigned.add (hx : Unsigned x) (hy : Nonnegative y) : Unsigned (x + y) := by
  intro hdefined
  obtain ⟨hx', hy'⟩ := defined_of_combine hdefined
  have hparts : NotBelowZero (parts y) := notBelowZero_unpack_iff.mpr (hy hy')
  have hsum := positive_add (hx hx') hparts
  rw [add_eq hx' hy', parts_ofParts hsum.isNaN]
  exact positive_packed hsum

theorem Unsigned.nonnegative (h : Unsigned x) : Nonnegative x :=
  fun hdefined => notBelowZero_unpack_iff.mp (h hdefined).notBelowZero

end Operations

/-- The parts of a finite double with a magnitude.  Magnitudes count the mantissas of one exponent
after those of the other. -/
def Encodes (magnitude : Nat) : UnpackedFloat → Prop
  | .notANumber => False
  | .infinity _ => False
  | .zero _ => magnitude = 0
  | .finite _ mantissa exponent _ =>
    ∃ k : Nat, exponent = k - 1074 ∧ magnitude = mantissa + 2 ^ 52 * k ∧ mantissa < 2 ^ 53 ∧
      (k = 0 ∨ 2 ^ 52 ≤ mantissa)

theorem encodes_parts {x : Binary64} (h : IsFinite x) : Encodes x.magnitude (parts x) := by
  have hbias : (Format.binary64.exponentBias : Int) = 1023 := rfl
  rw [isFinite_iff] at h
  have hexponent := toNat_unpackExponent x
  have hmantissa := toNat_unpackMantissa x
  rw [parts, UnpackedFloat.unpack]
  dsimp only
  split_ifs with hundefined hfraction hsubnormal hzero
  · rw [unpackExponent_largest_iff] at hundefined
    omega
  · rw [unpackExponent_largest_iff] at hundefined
    omega
  · rw [unpackExponent_zero_iff] at hsubnormal
    rw [unpackMantissa_eq_zero_iff] at hzero
    exact show x.magnitude = 0 by omega
  · rw [unpackExponent_zero_iff] at hsubnormal
    refine ⟨0, ?_, ?_, ?_, .inl rfl⟩
    · omega
    · omega
    · omega
  · rw [unpackExponent_zero_iff] at hsubnormal
    have hvalue : (1#1 ++ @unpackMantissa .binary64 x.bits.toBitVec).toNat =
        2 ^ 52 + x.magnitude % 2 ^ 52 := by
      rw [BitVec.toNat_append, ← Nat.shiftLeft_add_eq_or_of_lt (BitVec.isLt _), hmantissa]
      rfl
    refine ⟨x.magnitude / 2 ^ 52 - 1, ?_, ?_, ?_, .inr ?_⟩
    · omega
    · omega
    · omega
    · omega

theorem notBelowZero_sub {m n : Nat} (hle : n ≤ m) {x y : UnpackedFloat} (hx : Encodes m x)
    (hy : Encodes n y) (hx' : NotBelowZero x) (hy' : NotBelowZero y) :
    NotBelowZero (UnpackedFloat.sub .binary64 x y) := by
  cases x with
  | notANumber => exact hx.elim
  | infinity => exact hx.elim
  | zero sign =>
      cases y with
      | notANumber => exact hy.elim
      | infinity => exact hy.elim
      | zero other =>
          rw [UnpackedFloat.sub]
          split
          · trivial
          · trivial
      | finite other b f hb =>
          obtain ⟨l, -, hn, -⟩ := hy
          have hm : m = 0 := hx
          omega
  | finite sign a e ha =>
      cases hx'
      cases y with
      | notANumber => exact hy.elim
      | infinity => exact hy.elim
      | zero => rfl
      | finite other b f hb =>
          cases hy'
          obtain ⟨k, rfl, rfl, ha', hk⟩ := hx
          obtain ⟨l, rfl, rfl, hb', hl⟩ := hy
          rw [UnpackedFloat.sub]
          apply notBelowZero_normalize
          apply Int.sub_nonneg_of_le
          apply Int.ofNat_le.mpr
          simp only [Nat.shiftLeft_eq]
          -- The larger number has the larger exponent, or the larger mantissa.
          rcases Nat.lt_or_ge l k with hlt | hge
          · have hleast : min ((k : Int) - 1074) (l - 1074) = l - 1074 := by omega
            have hshift : 2 ^ 1 ≤ 2 ^ ((k : Int) - 1074 - (l - 1074)).toNat :=
              Nat.pow_le_pow_right Nat.two_pos (by omega)
            rw [hleast, Int.sub_self]
            calc
              b * 2 ^ Int.toNat 0 ≤ 2 ^ 52 * 2 := by
                rw [Int.toNat_zero, Nat.pow_zero]
                omega
              _ ≤ a * 2 ^ ((k : Int) - 1074 - (l - 1074)).toNat :=
                Nat.mul_le_mul (by omega) hshift
          · obtain rfl : k = l := by omega
            exact Nat.mul_le_mul_right _ (by omega)

theorem notBelowZero_neg {x : UnpackedFloat} (hdefined : x.isNaN = false)
    (h : ¬NotBelowZero x) : NotBelowZero (UnpackedFloat.neg x) := by
  cases x with
  | notANumber => contradiction
  | zero => trivial
  | infinity sign | finite sign =>
      cases sign with
      | negative => rfl
      | positive => exact absurd rfl h

theorem signed_of_nonneg {x : Binary64} (h : 0 ≤ x) : x.signed = x.magnitude := by
  have hzero := (zero_le_iff.mp h).2
  rw [Binary64.signed]
  split_ifs with hnegative
  · rw [hzero hnegative]
    rfl
  · rfl

theorem sub_nonneg {x y : Binary64} (hx : 0 ≤ x) (h : y < x) : 0 ≤ x - y := by
  have hx' : NotBelowZero (parts x) := notBelowZero_unpack_iff.mpr hx
  have hy' : (parts y).isNaN = false := by rw [parts_isNaN, h.1]
  rw [sub_eq h.2.1 h.1]
  apply zero_le_ofFloat
  apply notBelowZero_pack
  by_cases hbelow : NotBelowZero (parts y)
  · have hlt := h.2.2
    rw [signed_of_nonneg hx, signed_of_nonneg (notBelowZero_unpack_iff.mp hbelow),
      Int.ofNat_lt] at hlt
    have hfinite : IsFinite y := hlt.trans_le (Nat.not_lt.mp (of_decide_eq_false h.2.1))
    by_cases hfinite' : IsFinite x
    · exact notBelowZero_sub (Nat.le_of_lt hlt) (encodes_parts hfinite') (encodes_parts hfinite)
        hx' hbelow
    · rw [← parts_isFinite] at hfinite hfinite'
      cases hparts : parts x with
      | notANumber => exact (hparts ▸ hx').elim
      | zero | finite => exact absurd rfl (hparts ▸ hfinite')
      | infinity sign =>
          rw [hparts] at hx'
          cases hx'
          cases hparts' : parts y with
          | notANumber | infinity => exact absurd (hparts' ▸ hfinite) nofun
          | zero | finite => rfl
  · rw [unpacked_sub_eq]
    exact notBelowZero_add _ hx' (notBelowZero_neg hy' hbelow)

def IsFraction (x : Binary64) : Prop :=
  0 ≤ x ∧ x ≤ 1

theorem isFraction_getD {steps : List Binary64} (h : ∀ step ∈ steps, IsFraction step) (i : Nat) :
    IsFraction (steps.getD i 0) := by
  rcases Nat.lt_or_ge i steps.length with hi | hi
  · rw [List.getD_eq_getElem _ _ hi]
    exact h _ (List.getElem_mem hi)
  · rw [List.getD_eq_default _ _ hi]
    exact ⟨by decide, by decide +kernel⟩

theorem nonnegative_of_le {x : Binary64} (h : 0 ≤ x) : Nonnegative x :=
  fun _ => h

theorem unsigned_factor {excess : Binary64} (h : 0 ≤ excess) :
    Unsigned (1 + 2.0 * excess / 0.4) := by
  have hone : (1 : Binary64).negative = false := by decide +kernel
  have htwo : (0 : Binary64) ≤ 2.0 := by decide +kernel
  have hdivisor : (0.4 : Binary64).negative = false := by decide +kernel
  apply (unsigned_of_negative hone).add
  apply Nonnegative.div _ (unsigned_of_negative hdivisor)
  exact (nonnegative_of_le htwo).mul (nonnegative_of_le h)

/-- A step that is rescaled stays a fraction, also where its new value is undefined. -/
theorem rescaleStep_isFraction {step largest : Binary64} (hstep : 0 ≤ step)
    (hlargest : IsFraction largest) (accepted trials : Nat) :
    IsFraction (rescaleStep step accepted trials largest) := by
  have hlesser : ∀ {rescaled : Binary64}, Nonnegative rescaled →
      IsFraction (Scalar.lesser rescaled largest) := by
    intro rescaled hrescaled
    rw [Scalar.lesser]
    split_ifs with hlt hle
    · exact ⟨hrescaled hlt.1, hlt.1, hlargest.2.2.1,
        (Int.le_of_lt hlt.2.2).trans hlargest.2.2.2⟩
    · exact hlargest
    · exact absurd (le_self_iff.mpr hlargest.1.2.1) hle
  rw [rescaleStep]
  apply hlesser
  split_ifs with hmany hfew
  · have hzero : (0 : Binary64) ≤ 0.6 := by decide +kernel
    have hexcess := sub_nonneg (Binary64.le_of_lt (Binary64.lt_of_le_of_lt hzero hmany)) hmany
    exact (nonnegative_of_le hstep).mul (unsigned_factor hexcess).nonnegative
  · have hzero : (0 : Binary64) ≤ 0.4 := by decide +kernel
    exact (nonnegative_of_le hstep).div (unsigned_factor (sub_nonneg hzero hfew))
  · exact nonnegative_of_le hstep

/-- A proposal is defined if the width of the bounds is finite. -/
theorem proposal_isNaN {value step lower upper u : Binary64} (hvalue : IsFinite value)
    (hstep : IsFraction step) (hu : 0 ≤ u ∧ u < 1) (hwidth : IsFinite (upper - lower)) :
    (proposal value step lower upper u).isNaN = false := by
  have hone : IsFraction 1 := ⟨by decide +kernel, by decide +kernel⟩
  have htwo : Within 2 (2.0 : Binary64) :=
    IsFinite.within (by decide +kernel) (by decide +kernel)
  have hdeviate : Within 1 u := within_fraction ⟨hu.1, hu.2.1, hu.2.2.1, Int.le_of_lt hu.2.2.2⟩
  have hdirection : Within 6 (2.0 * u - 1) :=
    Within.sub (by decide) (by decide) (Within.mul (by decide) (by decide) htwo hdeviate)
      ((within_fraction hone).mono (by decide))
  have hmove := Within.mul (by decide) (by decide) hdirection (within_fraction hstep)
  exact hvalue.within_largest.add_isNaN (hmove.mul_isNaN (by decide) hwidth.within_largest)

-- A width that overflows is multiplied by zero here.
example : (proposal 0 1 (-1.7e308) 1.7e308 0.5 : Binary64).isNaN = true := by
  decide +kernel

end Archipelago.Proofs.Steps
