import Archipelago.Proofs.Sums

namespace Archipelago.Proofs.Roundings

open Float.Model
open Float.Model.UnpackedFloat
open OrderedScalars
open Sums

/-- The product of a mantissa and a power of two is below `2 ^ k`. -/
def Bounded (k : Int) (mantissa : Nat) (exponent : Int) : Prop :=
  ∃ n : Nat, mantissa < 2 ^ n ∧ n + exponent ≤ k

theorem mantissa_shiftRight (extended : ExtendedMantissa) (n : Nat) :
    (extended >>> n).mantissa = extended.mantissa / 2 ^ n := by
  induction n with
  | zero =>
      rw [Nat.pow_zero, Nat.div_one]
      rfl
  | succ n ih =>
      change (extended >>> n).mantissa / 2 = _
      rw [ih, Nat.div_div_eq_div_mul, Nat.pow_succ]

theorem mantissa_ofMantissaAndAccuracy (mantissa : Nat) (accuracy : Accuracy) :
    (ExtendedMantissa.ofMantissaAndAccuracy mantissa accuracy).mantissa = mantissa := by
  cases accuracy with
  | exact => rfl
  | inexact order =>
      cases order with
      | lt => rfl
      | eq => rfl
      | gt => rfl

theorem roundedMantissa_le (extended : ExtendedMantissa) :
    extended.roundedMantissa ≤ extended.mantissa + 1 := by
  rw [ExtendedMantissa.roundedMantissa]
  generalize extended.accuracy = accuracy
  cases accuracy with
  | exact => exact Nat.le_succ _
  | inexact order =>
      cases order with
      | lt => exact Nat.le_succ _
      | eq =>
          have := Nat.mod_lt extended.mantissa Nat.two_pos
          rw [Accuracy.roundToNearestEven]
          omega
      | gt => exact Nat.le_refl _

theorem targetExponent_eq (mantissa : Nat) (exponent : Int) :
    Format.binary64.targetExponent (totalExponent mantissa exponent) =
      max (mantissa.log2 + 1 + exponent - 53) (-1074) :=
  rfl

/-- Digits that are shifted out make a number smaller, and a number that vanishes has an exponent
within the bound, or the least one. -/
theorem Bounded.shift {k : Int} (hk : -1074 ≤ k) {mantissa : Nat} {exponent : Int}
    (h : Bounded k mantissa exponent) (accuracy : Accuracy) :
    Bounded k (shiftToTargetExponent .binary64 mantissa exponent accuracy).1.mantissa
      (shiftToTargetExponent .binary64 mantissa exponent accuracy).2 := by
  obtain ⟨n, hmantissa, hn⟩ := h
  have hlog : mantissa.log2 ≤ n := by
    rcases Nat.eq_zero_or_pos mantissa with rfl | hpos
    · exact Nat.zero_le n
    · exact Nat.le_of_lt ((Nat.log2_lt (Nat.pos_iff_ne_zero.mp hpos)).mpr hmantissa)
  rw [shiftToTargetExponent, shiftToExponent]
  dsimp only
  rw [mantissa_shiftRight, mantissa_ofMantissaAndAccuracy, targetExponent_eq]
  generalize hs : (max (↑mantissa.log2 + 1 + exponent - 53) (-1074) - exponent).toNat = s
  rcases Nat.lt_or_ge n s with hlt | hge
  · refine ⟨0, ?_, by omega⟩
    rw [Nat.div_eq_of_lt (hmantissa.trans (Nat.pow_lt_pow_right Nat.one_lt_two hlt))]
    exact Nat.one_pos
  · refine ⟨n - s, ?_, by omega⟩
    apply Nat.div_lt_of_lt_mul
    rwa [← Nat.pow_add, Nat.add_sub_cancel' hge]

/-- A number of moderate size, given by its parts. -/
def Below (k : Int) : UnpackedFloat → Prop
  | .notANumber => False
  | .infinity _ => False
  | .zero _ => True
  | .finite _ mantissa exponent _ => Bounded k mantissa exponent

theorem below_roundWithAccuracy {k : Int} (hk : -1074 ≤ k) (sign : Sign) {mantissa : Nat}
    {exponent : Int} (h : Bounded k mantissa exponent) (accuracy : Accuracy) :
    Below (k + 1) (roundWithAccuracy .binary64 sign mantissa exponent accuracy) := by
  obtain ⟨n, hmantissa, hn⟩ := h.shift hk accuracy
  rw [roundWithAccuracy]
  generalize shiftToTargetExponent .binary64 mantissa exponent accuracy = shifted at hmantissa hn ⊢
  have hrounded : Bounded (k + 1) shifted.1.roundedMantissa shifted.2 := by
    have hle := roundedMantissa_le shifted.1
    have hpow : 2 ^ (n + 1) = 2 ^ n * 2 := Nat.pow_succ 2 n
    exact ⟨n + 1, by omega, by omega⟩
  dsimp only
  split
  · trivial
  · exact hrounded.shift (by omega) .exact

theorem Below.mono {k l : Int} (hkl : k ≤ l) {x : UnpackedFloat} (h : Below k x) : Below l x := by
  cases x with
  | notANumber => exact h
  | infinity => exact h
  | zero => trivial
  | finite =>
      obtain ⟨n, hmantissa, hn⟩ := h
      exact ⟨n, hmantissa, hn.trans hkl⟩

theorem Bounded.decrease {k : Int} {mantissa : Nat} {exponent : Int}
    (h : Bounded k mantissa exponent) (target : Int) :
    Bounded k (decreaseExponent mantissa exponent target).1
      (decreaseExponent mantissa exponent target).2 := by
  obtain ⟨n, hmantissa, hn⟩ := h
  rw [decreaseExponent]
  dsimp only
  generalize (exponent - target).toNat = s
  refine ⟨n + s, ?_, by omega⟩
  rw [Nat.shiftLeft_eq, Nat.pow_add]
  exact Nat.mul_lt_mul_of_pos_right hmantissa (Nat.two_pow_pos s)

theorem below_normalize {k : Int} (hk : -1074 ≤ k) {mantissa exponent : Int}
    (h : Bounded k mantissa.natAbs exponent) (sign : Sign) :
    Below (k + 1) (UnpackedFloat.normalize .binary64 mantissa exponent sign) := by
  have hround : ∀ (sign : Sign) {n : Nat}, n = mantissa.natAbs →
      Below (k + 1) (UnpackedFloat.round .binary64 sign n exponent) := by
    rintro sign n rfl
    exact below_roundWithAccuracy hk sign (h.decrease _) .exact
  rw [UnpackedFloat.normalize]
  split
  case h_1 hlt =>
    have := Std.compare_eq_lt.mp hlt
    exact hround .negative (by omega)
  case h_2 => trivial
  case h_3 hgt =>
    have := Std.compare_eq_gt.mp hgt
    exact hround .positive (by omega)

theorem below_add {k : Int} (hk : -1075 ≤ k) {x y : UnpackedFloat} (hx : Below k x)
    (hy : Below k y) : Below (k + 2) (UnpackedFloat.add .binary64 x y) := by
  cases x with
  | notANumber => exact hx.elim
  | infinity => exact hx.elim
  | zero sign =>
      cases y with
      | notANumber => exact hy.elim
      | infinity => exact hy.elim
      | zero other =>
          rw [UnpackedFloat.add]
          split
          · trivial
          · trivial
      | finite => exact hy.mono (by omega)
  | finite sign m e hm =>
      cases y with
      | notANumber => exact hy.elim
      | infinity => exact hy.elim
      | zero => exact hx.mono (by omega)
      | finite other n f hn =>
          obtain ⟨a, hm, ha⟩ := Bounded.decrease hx (min e f)
          obtain ⟨b, hn, hb⟩ := Bounded.decrease hy (min e f)
          have hexponents : (decreaseExponent m e (min e f)).2 = min e f ∧
              (decreaseExponent n f (min e f)).2 = min e f := by
            rw [decreaseExponent, decreaseExponent]
            dsimp only
            omega
          rw [hexponents.1] at ha
          rw [hexponents.2] at hb
          rw [UnpackedFloat.add]
          dsimp only
          have htwice : k + 2 = k + 1 + 1 := by omega
          rw [htwice]
          apply below_normalize (by omega)
          refine ⟨max a b + 1, ?_, by omega⟩
          have hleft := Nat.pow_le_pow_right Nat.two_pos (Nat.le_max_left a b)
          have hright := Nat.pow_le_pow_right Nat.two_pos (Nat.le_max_right a b)
          rw [Nat.pow_succ]
          generalize (decreaseExponent m e (min e f)).1 = m at hm ⊢
          generalize (decreaseExponent n f (min e f)).1 = n at hn ⊢
          cases sign with
          | negative => cases other <;> simp only [Sign.apply] <;> omega
          | positive => cases other <;> simp only [Sign.apply] <;> omega

theorem below_mul {k l : Int} (hkl : -1074 ≤ k + l) {x y : UnpackedFloat} (hx : Below k x)
    (hy : Below l y) : Below (k + l + 1) (UnpackedFloat.mul .binary64 x y) := by
  cases x with
  | notANumber => exact hx.elim
  | infinity => exact hx.elim
  | zero sign =>
      cases y with
      | notANumber => exact hy.elim
      | infinity => exact hy.elim
      | zero => trivial
      | finite => trivial
  | finite sign m e hm =>
      cases y with
      | notANumber => exact hy.elim
      | infinity => exact hy.elim
      | zero => trivial
      | finite other n f hn =>
          obtain ⟨a, hm, ha⟩ := hx
          obtain ⟨b, hn, hb⟩ := hy
          apply below_roundWithAccuracy hkl
          refine ⟨a + b, ?_, by omega⟩
          rw [Nat.pow_add]
          exact Nat.mul_lt_mul'' hm hn

theorem apply_neg (sign : Sign) (n : Int) : (-sign).apply n = -sign.apply n := by
  cases sign with
  | negative => exact (Int.neg_neg n).symm
  | positive => rfl

theorem unpacked_sub_eq (x y : UnpackedFloat) :
    UnpackedFloat.sub .binary64 x y = UnpackedFloat.add .binary64 x (UnpackedFloat.neg y) := by
  cases x with
  | notANumber => rfl
  | infinity =>
      cases y with
      | notANumber | infinity | zero | finite => rfl
  | zero =>
      cases y with
      | notANumber | infinity | zero | finite => rfl
  | finite sign m e hm =>
      cases y with
      | notANumber | infinity | zero => rfl
      | finite other n f hn =>
          rw [UnpackedFloat.sub, UnpackedFloat.neg, UnpackedFloat.add]
          dsimp only
          rw [apply_neg, Int.sub_eq_add_neg]

theorem Below.neg {k : Int} {x : UnpackedFloat} (h : Below k x) :
    Below k (UnpackedFloat.neg x) := by
  cases x with
  | notANumber | infinity | zero | finite => exact h

theorem Below.isNaN {k : Int} {x : UnpackedFloat} (h : Below k x) : x.isNaN = false := by
  cases x with
  | notANumber => exact h.elim
  | infinity | zero | finite => rfl

theorem normalize_isNaN (mantissa exponent : Int) (sign : Sign) :
    (UnpackedFloat.normalize .binary64 mantissa exponent sign).isNaN = false :=
  Below.isNaN <| below_normalize (le_max_left _ _)
    ⟨mantissa.natAbs, Nat.lt_two_pow_self, le_max_right (-1074) _⟩ sign

theorem Below.add_isNaN {k : Int} {x y : UnpackedFloat} (hx : Below k x) (hy : y.isNaN = false) :
    (UnpackedFloat.add .binary64 x y).isNaN = false := by
  cases x with
  | notANumber => exact hx.elim
  | infinity => exact hx.elim
  | zero sign =>
      cases y with
      | notANumber => contradiction
      | infinity | finite => rfl
      | zero other =>
          rw [UnpackedFloat.add]
          split
          · rfl
          · rfl
  | finite =>
      cases y with
      | notANumber => contradiction
      | infinity | zero => rfl
      | finite => exact normalize_isNaN _ _ _

theorem isFinite_of_add {x y : UnpackedFloat}
    (h : (UnpackedFloat.add .binary64 x y).isFinite = true) :
    x.isFinite = true ∧ y.isFinite = true := by
  cases x with
  | notANumber => contradiction
  | infinity sign =>
      cases y with
      | notANumber | zero | finite => contradiction
      | infinity other =>
          rw [UnpackedFloat.add] at h
          split at h
          · contradiction
          · contradiction
  | zero | finite =>
      cases y with
      | notANumber | infinity => contradiction
      | zero | finite => exact ⟨rfl, rfl⟩

theorem neg_isFinite (x : UnpackedFloat) : (UnpackedFloat.neg x).isFinite = x.isFinite := by
  cases x with
  | notANumber | infinity | zero | finite => rfl

theorem below_unpack {k : Int} {word : BitVec Format.binary64.numBits}
    (hdefined : unpackExponent word ≠ -1#_)
    (h : max (unpackExponent word).toNat 1 - 1022 ≤ k) : Below k (unpack .binary64 word) := by
  have hbias : (Format.binary64.exponentBias : Int) = 1023 := rfl
  rw [UnpackedFloat.unpack]
  dsimp only
  split_ifs with hlargest hfraction hsubnormal hzero
  · exact absurd hlargest hdefined
  · exact absurd hlargest hdefined
  · trivial
  · refine ⟨52, (unpackMantissa word).isLt, ?_⟩
    have hexponent := congrArg BitVec.toNat hsubnormal
    rw [BitVec.toNat_ofNat] at hexponent
    omega
  · have hpositive : 0 < (unpackExponent word).toNat :=
      Nat.pos_of_ne_zero fun h => hsubnormal (BitVec.eq_of_toNat_eq h)
    refine ⟨53, (1#1 ++ unpackMantissa word).isLt, ?_⟩
    omega

theorem below_packed {k : Int} (hleast : -1021 ≤ k) (hgreatest : k ≤ 972) {x : UnpackedFloat}
    (h : Below k x) : Below k (unpack .binary64 (UnpackedFloat.pack .binary64 x)) := by
  have hbias : (Format.binary64.exponentBias : Int) = 1023 := rfl
  cases x with
  | notANumber => exact h.elim
  | infinity => exact h.elim
  | zero sign =>
      rw [UnpackedFloat.pack, unpack_packedZero]
      trivial
  | finite sign m e hm =>
      obtain ⟨n, hmantissa, hn⟩ := h
      rw [UnpackedFloat.pack]
      dsimp only
      generalize hfield : (e + ↑Format.binary64.exponentBias + ↑52).toNat = field
      split_ifs with hlarge hnormal
      · have hpositive : 0 < n := by
          by_contra hzero
          obtain rfl : n = 0 := by omega
          omega
        omega
      · have hlog : m.log2 < n := (Nat.log2_lt (Nat.pos_iff_ne_zero.mp hm)).mpr hmantissa
        have hmod : field % 2 ^ 11 = field := Nat.mod_eq_of_lt (by omega)
        apply below_unpack
        · rw [unpackExponent_packComponents]
          intro hexponent
          have hvalue : field % 2 ^ 11 = 2047 := congrArg BitVec.toNat hexponent
          omega
        · rw [unpackExponent_packComponents, BitVec.toNat_ofNat, hmod]
          have hbits : Format.binary64.mantissaBits = 53 := rfl
          omega
      · apply below_unpack
        · rw [unpackExponent_packComponents]
          decide
        · rw [unpackExponent_packComponents, BitVec.toNat_ofNat, Nat.zero_mod]
          omega

def parts (x : Binary64) : UnpackedFloat :=
  UnpackedFloat.unpack .binary64 x.bits.toBitVec

def ofParts (x : UnpackedFloat) : Binary64 :=
  .ofFloat ⟨Float.Model.pack x⟩

theorem unpack_isNaN (word : BitVec Format.binary64.numBits) :
    (unpack .binary64 word).isNaN = isNaNBits word := by
  rw [UnpackedFloat.unpack, isNaNBits]
  dsimp only
  split_ifs with hlargest hfraction hsubnormal hzero
  · exact (decide_eq_false fun h => h.2 hfraction).symm
  · exact (decide_eq_true ⟨hlargest, hfraction⟩).symm
  · exact (decide_eq_false fun h => hlargest h.1).symm
  · exact (decide_eq_false fun h => hlargest h.1).symm
  · exact (decide_eq_false fun h => hlargest h.1).symm

theorem unpack_defined {word : BitVec Format.binary64.numBits}
    (hdefined : unpackExponent word ≠ -1#_) : (unpack .binary64 word).isNaN = false := by
  rw [unpack_isNaN, isNaNBits]
  exact decide_eq_false fun h => hdefined h.1

theorem isNaNBits_eq (x : Binary64) : @isNaNBits .binary64 x.bits.toBitVec = x.isNaN := by
  have hlt := magnitude_lt x
  have hinfinity : Binary64.infinity.magnitude = 2047 * 2 ^ 52 := rfl
  rw [isNaNBits, Binary64.isNaN, decide_eq_decide, Ne, unpackMantissa_eq_zero_iff,
    unpackExponent_largest_iff, hinfinity]
  omega

theorem packed_isNaN {x : UnpackedFloat} (h : x.isNaN = false) :
    (unpack .binary64 (UnpackedFloat.pack .binary64 x)).isNaN = false := by
  have hinfinity : ∀ sign, (unpack .binary64 (packedInfinity .binary64 sign)).isNaN = false := by
    intro sign
    cases sign with
    | negative => rfl
    | positive => rfl
  cases x with
  | notANumber => contradiction
  | infinity sign => exact hinfinity sign
  | zero sign =>
      rw [UnpackedFloat.pack, unpack_packedZero]
      rfl
  | finite sign m e hm =>
      rw [UnpackedFloat.pack]
      dsimp only
      generalize (e + ↑Format.binary64.exponentBias + ↑52).toNat = field
      split_ifs with hlarge
      · exact hinfinity sign
      · apply unpack_defined
        rw [unpackExponent_packComponents]
        intro hexponent
        have hvalue : field % 2 ^ 11 = 2047 := congrArg BitVec.toNat hexponent
        omega
      · apply unpack_defined
        rw [unpackExponent_packComponents]
        decide

theorem ofFloat_eq {x : UnpackedFloat} (h : x.isNaN = false) :
    ofParts x = ⟨(Float.Model.pack x).toBits⟩ := by
  have hdefined : (⟨Float.Model.pack x⟩ : Float).isNaN = false := packed_isNaN h
  rw [ofParts, Binary64.ofFloat, hdefined]
  rfl

theorem parts_ofParts {x : UnpackedFloat} (h : x.isNaN = false) :
    parts (ofParts x) = unpack .binary64 (UnpackedFloat.pack .binary64 x) := by
  rw [ofFloat_eq h]
  rfl

theorem parts_isNaN (x : Binary64) : (parts x).isNaN = x.isNaN := by
  rw [parts, unpack_isNaN, isNaNBits_eq]

theorem ofParts_isNaN {x : UnpackedFloat} (h : x.isNaN = false) : (ofParts x).isNaN = false := by
  rw [← parts_isNaN, parts_ofParts h]
  exact packed_isNaN h

theorem unpack_toFloat {x : Binary64} (h : x.isNaN = false) :
    x.toFloat.toModel.unpack = parts x := by
  have hword := isNaNBits_eq x
  rw [h] at hword
  change unpack .binary64 (UnpackedFloat.pack .binary64 (parts x)) = _
  rw [parts, pack_unpack, hword]
  rfl

section Operations

variable {x y : Binary64} (hx : x.isNaN = false) (hy : y.isNaN = false)

include hx hy

theorem combine_eq {operation : Float → Float → Float}
    {f : UnpackedFloat → UnpackedFloat → UnpackedFloat}
    (h : ∀ a b : Float, operation a b = ⟨Float.Model.pack (f a.toModel.unpack b.toModel.unpack)⟩) :
    Binary64.combine operation x y = ofParts (f (parts x) (parts y)) := by
  rw [Binary64.combine, hx, hy, h, unpack_toFloat hx, unpack_toFloat hy]
  rfl

theorem add_eq : x + y = ofParts (UnpackedFloat.add .binary64 (parts x) (parts y)) :=
  combine_eq hx hy fun _ _ => rfl

theorem sub_eq : x - y = ofParts (UnpackedFloat.sub .binary64 (parts x) (parts y)) :=
  combine_eq hx hy fun _ _ => rfl

theorem mul_eq : x * y = ofParts (UnpackedFloat.mul .binary64 (parts x) (parts y)) :=
  combine_eq hx hy fun _ _ => rfl

theorem div_eq : x / y = ofParts (UnpackedFloat.div .binary64 (parts x) (parts y)) :=
  combine_eq hx hy fun _ _ => rfl

end Operations

theorem quieted_isNaN {x : Binary64} (h : x.isNaN = true) : x.quieted.isNaN = true := by
  rw [Binary64.isNaN, decide_eq_true_eq] at h ⊢
  have hquieted : x.quieted.magnitude =
      (x.bits.toNat ||| Binary64.quietBit.toNat) % 2 ^ 63 := rfl
  rw [hquieted, Nat.or_mod_two_pow]
  exact h.trans_le Nat.left_le_or

theorem defined_of_combine {operation : Float → Float → Float} {x y : Binary64}
    (h : (Binary64.combine operation x y).isNaN = false) : x.isNaN = false ∧ y.isNaN = false := by
  rw [Binary64.combine] at h
  split_ifs at h with hx hy
  · exact absurd (quieted_isNaN hx) (by simp [h])
  · exact absurd (quieted_isNaN hy) (by simp [h])
  · exact ⟨Bool.eq_false_iff.mpr hx, Bool.eq_false_iff.mpr hy⟩

theorem combine_isNaN {operation : Float → Float → Float} {x y : Binary64}
    (h : x.isNaN = true ∨ y.isNaN = true) : (Binary64.combine operation x y).isNaN = true := by
  by_contra hnot
  rw [Bool.not_eq_true] at hnot
  obtain ⟨hx, hy⟩ := defined_of_combine hnot
  rw [hx, hy] at h
  simp at h

/-- The absolute value of a double is below `2 ^ k`. -/
def Within (k : Int) (x : Binary64) : Prop :=
  Below k (parts x)

theorem Within.isNaN {k : Int} {x : Binary64} (h : Within k x) : x.isNaN = false := by
  rw [← parts_isNaN]
  exact Below.isNaN h

theorem within_ofParts {k : Int} (hleast : -1021 ≤ k) (hgreatest : k ≤ 972) {x : UnpackedFloat}
    (h : Below k x) : Within k (ofParts x) := by
  rw [Within, parts_ofParts h.isNaN]
  exact below_packed hleast hgreatest h

section Within

variable {k l : Int} {x y : Binary64}

theorem Within.sub (hleast : -1021 ≤ k) (hgreatest : k ≤ 970) (hx : Within k x)
    (hy : Within k y) : Within (k + 2) (x - y) := by
  rw [sub_eq hx.isNaN hy.isNaN, unpacked_sub_eq]
  exact within_ofParts (by omega) (by omega) (below_add (by omega) hx (Below.neg hy))

theorem Within.mul (hleast : -1021 ≤ k + l) (hgreatest : k + l ≤ 971) (hx : Within k x)
    (hy : Within l y) : Within (k + l + 1) (x * y) := by
  rw [mul_eq hx.isNaN hy.isNaN]
  exact within_ofParts (by omega) (by omega) (below_mul (by omega) hx hy)

theorem Within.mul_isNaN (hkl : -1074 ≤ k + l) (hx : Within k x) (hy : Within l y) :
    (x * y).isNaN = false := by
  rw [mul_eq hx.isNaN hy.isNaN]
  exact ofParts_isNaN (below_mul hkl hx hy).isNaN

theorem Within.add_isNaN (hx : Within k x) (hy : y.isNaN = false) : (x + y).isNaN = false := by
  have hparts : (parts y).isNaN = false := by rw [parts_isNaN, hy]
  rw [add_eq hx.isNaN hy]
  exact ofParts_isNaN (Below.add_isNaN hx hparts)

end Within

/-- Neither infinite nor undefined. -/
def IsFinite (x : Binary64) : Prop :=
  x.magnitude < Binary64.infinity.magnitude

instance (x : Binary64) : Decidable (IsFinite x) :=
  inferInstanceAs (Decidable (_ < _))

theorem isFinite_iff {x : Binary64} : IsFinite x ↔ x.magnitude < 2047 * 2 ^ 52 :=
  Iff.rfl

theorem IsFinite.within {k : Int} {x : Binary64} (hfinite : IsFinite x)
    (h : max (x.magnitude / 2 ^ 52 : Nat) 1 - 1022 ≤ k) : Within k x := by
  rw [isFinite_iff] at hfinite
  apply below_unpack
  · rw [Ne, unpackExponent_largest_iff]
    omega
  · rwa [toNat_unpackExponent]

theorem IsFinite.within_largest {x : Binary64} (h : IsFinite x) : Within 1024 x := by
  apply h.within
  rw [isFinite_iff] at h
  omega

theorem isFinite_of_mem {lower x upper : Binary64} (hlower : IsFinite lower)
    (hupper : IsFinite upper) (h : lower ≤ x ∧ x ≤ upper) : IsFinite x := by
  rw [IsFinite] at hlower hupper ⊢
  have hsigned : lower.signed ≤ x.signed ∧ x.signed ≤ upper.signed := ⟨h.1.2.2, h.2.2.2⟩
  simp only [Binary64.signed] at hsigned
  split_ifs at hsigned <;> omega

theorem within_fraction {x : Binary64} (h : 0 ≤ x ∧ x ≤ 1) : Within 1 x := by
  have hone : (1 : Binary64).signed = 1023 * 2 ^ 52 := by decide +kernel
  have hsigned : 0 ≤ x.signed ∧ x.signed ≤ 1023 * 2 ^ 52 := ⟨h.1.2.2, hone ▸ h.2.2.2⟩
  have hmagnitude : x.magnitude ≤ 1023 * 2 ^ 52 := by
    simp only [Binary64.signed] at hsigned
    split_ifs at hsigned <;> omega
  apply IsFinite.within
  · rw [isFinite_iff]
    omega
  · omega

theorem parts_isFinite {x : Binary64} : (parts x).isFinite = true ↔ IsFinite x := by
  have hlt := magnitude_lt x
  have hfinite : IsFinite x ↔ ¬x.magnitude / 2 ^ 52 = 2047 := by
    rw [isFinite_iff]
    omega
  rw [hfinite, ← unpackExponent_largest_iff, parts, UnpackedFloat.unpack]
  dsimp only
  split_ifs with hexponent hfraction hsubnormal hzero
  · exact iff_of_false nofun (not_not_intro hexponent)
  · exact iff_of_false nofun (not_not_intro hexponent)
  · exact iff_of_true rfl hexponent
  · exact iff_of_true rfl hexponent
  · exact iff_of_true rfl hexponent

theorem isFinite_of_ofParts {x : UnpackedFloat} (h : IsFinite (ofParts x)) :
    x.isFinite = true := by
  have hpacked : x.isNaN = false →
      (unpack .binary64 (UnpackedFloat.pack .binary64 x)).isFinite = true := by
    intro hdefined
    rw [← parts_ofParts hdefined]
    exact parts_isFinite.mpr h
  cases x with
  | notANumber =>
      have hinvalid : ¬IsFinite (ofParts .notANumber) := by decide +kernel
      exact absurd h hinvalid
  | infinity sign =>
      cases sign with
      | negative => exact hpacked rfl
      | positive => exact hpacked rfl
  | zero => rfl
  | finite => rfl

theorem isFinite_of_sub {x y : Binary64} (hx : x.isNaN = false) (hy : y.isNaN = false)
    (h : IsFinite (x - y)) : IsFinite x ∧ IsFinite y := by
  rw [sub_eq hx hy, unpacked_sub_eq] at h
  rw [← parts_isFinite, ← parts_isFinite, ← neg_isFinite (parts y)]
  exact isFinite_of_add (isFinite_of_ofParts h)

end Archipelago.Proofs.Roundings
