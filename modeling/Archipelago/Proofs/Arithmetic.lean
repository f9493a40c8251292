import Archipelago.Proofs.Magnitudes
import Mathlib.Algebra.Order.Ring.Int
import Mathlib.Tactic.Lift
import Mathlib.Tactic.Ring

namespace Archipelago.Proofs.Arithmetic

open Float.Model
open Float.Model.UnpackedFloat
open Magnitudes
open Roundings
open Spacing
open Steps
open Sums

/-- The exact result `value / 2 ^ d` to the nearest double. -/
def rounded (d : Nat) (value : Int) : Int :=
  value.sign * nearest d value.natAbs

theorem rounded_zero (d : Nat) : rounded d 0 = 0 := by
  rw [rounded, Int.sign_zero, Int.zero_mul]

theorem rounded_natCast (d n : Nat) : rounded d n = nearest d n := by
  rw [rounded, Int.natAbs_natCast]
  rcases Nat.eq_zero_or_pos n with rfl | hpos
  · simp [nearest, halfEven]
  · rw [Int.sign_eq_one_of_pos (Int.natCast_pos.mpr hpos), Int.one_mul]

theorem rounded_neg (d : Nat) (value : Int) : rounded d (-value) = -rounded d value := by
  rw [rounded, rounded, Int.natAbs_neg, Int.sign_neg, Int.neg_mul]

theorem rounded_apply (d : Nat) (sign : Sign) (n : Nat) :
    rounded d (sign.apply n) = sign.apply (nearest d n) := by
  cases sign with
  | negative => exact (rounded_neg d n).trans (congrArg Neg.neg (rounded_natCast d n))
  | positive => exact rounded_natCast d n

theorem sign_mul_mono {f : Nat → Nat} (hf : Monotone f) {a b : Int} (h : a ≤ b) :
    a.sign * f a.natAbs ≤ b.sign * f b.natAbs := by
  rcases lt_trichotomy a 0 with ha | rfl | ha
  · rw [Int.sign_eq_neg_one_of_neg ha]
    rcases lt_trichotomy b 0 with hb | rfl | hb
    · have hle : f b.natAbs ≤ f a.natAbs := hf (by omega)
      rw [Int.sign_eq_neg_one_of_neg hb]
      omega
    · rw [Int.sign_zero]
      omega
    · rw [Int.sign_eq_one_of_pos hb]
      omega
  · rw [Int.sign_zero, Int.zero_mul]
    exact Int.mul_nonneg (Int.sign_nonneg_iff.mpr h) (Int.natCast_nonneg _)
  · have hle : f a.natAbs ≤ f b.natAbs := hf (by omega)
    rw [Int.sign_eq_one_of_pos ha, Int.sign_eq_one_of_pos (ha.trans_le h)]
    omega

theorem rounded_mono {d : Nat} {a b : Int} (h : a ≤ b) : rounded d a ≤ rounded d b :=
  sign_mul_mono (fun _ _ => nearest_mono) h

theorem rounded_pos_iff (d : Nat) (value : Int) : 0 < rounded d value ↔ 2 ^ d < 2 * value := by
  rcases Int.lt_or_le 0 value with hpos | hneg
  · lift value to Nat using hpos.le
    have hiff := nearest_pos_iff (d := d) (n := value)
    rw [rounded_natCast, Int.natCast_pos, hiff]
    exact_mod_cast Iff.rfl
  · have hle : rounded d value ≤ rounded d 0 := rounded_mono hneg
    have hpow : (0 : Int) < 2 ^ d := pow_pos two_pos d
    rw [rounded_zero] at hle
    omega

/-- The parts of a finite number that is `value` units, as they come from a word. -/
def Amounts (value : Int) : UnpackedFloat → Prop
  | .notANumber => False
  | .infinity _ => False
  | .zero _ => value = 0
  | .finite sign mantissa exponent _ =>
    ∃ k : Nat, exponent = k - 1074 ∧ mantissa < 2 ^ 53 ∧ (k = 0 ∨ 2 ^ 52 ≤ mantissa) ∧
      value = sign.apply (mantissa * 2 ^ k : Nat)

theorem amounts_parts {x : Binary64} (h : IsFinite x) : Amounts (units x) (parts x) := by
  have hencodes := encodes_parts h
  have hsign := notBelowZero_unpack_iff (x := x)
  rw [zero_le_iff, isNaN_of_isFinite h] at hsign
  change NotBelowZero (parts x) ↔ _ at hsign
  cases hparts : parts x with
  | notANumber | infinity =>
      rw [hparts] at hencodes
      exact hencodes.elim
  | zero sign =>
      rw [hparts] at hencodes
      have hzero : x.magnitude = 0 := hencodes
      change units x = 0
      rw [units, hzero, scale_zero]
      simp
  | finite sign m e hm =>
      rw [hparts] at hencodes hsign
      obtain ⟨k, he, hmagnitude, hlt, hk⟩ := hencodes
      have hscale : scale x.magnitude = m * 2 ^ k := hmagnitude ▸ scale_eq hlt.le hk
      refine ⟨k, he, hlt, hk, ?_⟩
      rw [units, hscale]
      have hne : x.magnitude ≠ 0 := by omega
      cases sign with
      | negative =>
          have hnot : ¬NotBelowZero (.finite .negative m e hm) := by
            intro h
            contradiction
          rw [hsign] at hnot
          simp only [true_and, hne, imp_false, not_not] at hnot
          rw [if_pos hnot]
          rfl
      | positive =>
          have hnot := hsign.mp rfl
          simp only [true_and, hne, imp_false] at hnot
          rw [if_neg hnot]
          rfl

theorem Amounts.rounded {value : Int} {x : UnpackedFloat} (h : Amounts value x) :
    rounded 0 value = value := by
  cases x with
  | notANumber | infinity => exact h.elim
  | zero =>
      obtain rfl : value = 0 := h
      rfl
  | finite =>
      obtain ⟨k, -, hlt, -, rfl⟩ := h
      rw [rounded_apply, nearest_mul hlt.le]

theorem amounts_shifted (sign : Sign) {m k : Nat} (hm : m ≤ 2 ^ 53) (hk : k = 0 ∨ 2 ^ 52 ≤ m)
    {shifted : ExtendedMantissa × Int}
    (h : shiftToTargetExponent .binary64 m (k - 1074) .exact = shifted) :
    Amounts (sign.apply (m * 2 ^ k : Nat))
      (if h : shifted.1.mantissa = 0 then .zero sign
        else .finite sign shifted.1.mantissa shifted.2 (Nat.pos_of_ne_zero h)) := by
  rw [shiftToTargetExponent, shiftToExponent, targetExponent_eq] at h
  have hmantissa := congrArg (fun pair => pair.1.mantissa) h
  have hexponent := congrArg Prod.snd h
  dsimp only at hmantissa hexponent
  rw [mantissa_shiftRight, mantissa_ofMantissaAndAccuracy] at hmantissa
  rcases hm.lt_or_eq with hlt | rfl
  · have hlog : m.log2 ≤ 52 := by
      rcases Nat.eq_zero_or_pos m with rfl | hpos
      · simp
      · have := (Nat.log2_lt hpos.ne').mpr hlt
        omega
    have hstay : (max (↑m.log2 + 1 + ((k : Int) - 1074) - 53) (-1074) - (k - 1074)).toNat = 0 := by
      omega
    rw [hstay] at hmantissa hexponent
    simp only [Nat.pow_zero, Nat.div_one] at hmantissa
    split_ifs with hzero
    · rw [← hmantissa] at hzero
      rw [hzero, Nat.zero_mul]
      cases sign <;> rfl
    · refine ⟨k, ?_, hmantissa ▸ hlt, hmantissa ▸ hk, hmantissa ▸ rfl⟩
      omega
  · have hcarry : (max (↑(2 ^ 53).log2 + 1 + ((k : Int) - 1074) - 53) (-1074) - (k - 1074)).toNat =
        1 := by
      rw [Nat.log2_two_pow]
      omega
    rw [hcarry] at hmantissa hexponent
    have hhalf : shifted.1.mantissa = 2 ^ 52 := hmantissa.symm
    rw [dif_neg (by rw [hhalf]; decide)]
    refine ⟨k + 1, by omega, by rw [hhalf]; decide, .inr hhalf.ge, ?_⟩
    rw [hhalf, Nat.pow_succ']
    congr 2
    ring

/-- A quotient loses the digits that the exponent of the result has no room for, and is rounded
once. -/
theorem amounts_quotient (sign : Sign) {n p s k : Nat} {e : Int} (hp : 0 < p)
    (hs : s = (max (↑(n / p).log2 + 1 + e - 53) (-1074) - e).toNat) (hk : e + s = k - 1074)
    (hdigits : k = 0 ∨ 2 ^ 52 * (p * 2 ^ s) ≤ n) :
    Amounts (sign.apply (halfEven n (p * 2 ^ s) * 2 ^ k : Nat))
      (roundWithAccuracy .binary64 sign (n / p) e (accuracyOfFraction (n % p) p)) := by
  have hpos : 0 < p * 2 ^ s := Nat.mul_pos hp (Nat.two_pow_pos s)
  have hlt : n / p < 2 ^ 53 * 2 ^ s := by
    rw [← Nat.pow_add]
    exact Nat.lt_log2_self.trans_le (Nat.pow_le_pow_right Nat.two_pos (by omega))
  have hle : halfEven n (p * 2 ^ s) ≤ 2 ^ 53 := by
    refine (halfEven_le_succ n _).trans ?_
    rw [← Nat.div_div_eq_div_mul]
    exact (Nat.div_lt_iff_lt_mul (Nat.two_pow_pos s)).mpr hlt
  have hmantissa : (shiftToTargetExponent .binary64 (n / p) e
      (accuracyOfFraction (n % p) p)).1.roundedMantissa = halfEven n (p * 2 ^ s) := by
    rw [shiftToTargetExponent, shiftToExponent, targetExponent_eq, ← hs]
    exact ((residual_division hp n).shiftRight hp s).roundedMantissa hpos
  have hexponent : (shiftToTargetExponent .binary64 (n / p) e
      (accuracyOfFraction (n % p) p)).2 = (k : Int) - 1074 := by
    rw [shiftToTargetExponent, shiftToExponent, targetExponent_eq, ← hs]
    exact hk
  rw [roundWithAccuracy]
  dsimp only
  rw [hmantissa, hexponent]
  refine amounts_shifted sign hle (hdigits.imp_right fun hdigits => ?_) rfl
  exact ((Nat.le_div_iff_mul_le hpos).mpr hdigits).trans (div_le_halfEven n _)

/-- The digits that a mantissa loses on its way to the exponent of the result. -/
theorem lost_mul_pow {d j m t : Nat} (hm : 0 < m) (hj : j ≤ d ∨ 52 ≤ m.log2)
    (ht : t = (max (↑m.log2 + 1 + ((j : Int) - 1074 - d) - 53) (-1074) - (j - 1074 - d)).toNat) :
    lost d (m * 2 ^ j) = t + j := by
  have hlt : m < 2 ^ (m.log2 + 1) := Nat.lt_log2_self
  have hle : 2 ^ m.log2 ≤ m := Nat.log2_self_le hm.ne'
  refine lost_eq ?_ ?_
  · rw [← Nat.pow_add]
    calc
      m * 2 ^ j < 2 ^ (m.log2 + 1) * 2 ^ j := Nat.mul_lt_mul_of_pos_right hlt (Nat.two_pow_pos j)
      _ = 2 ^ (m.log2 + 1 + j) := (Nat.pow_add ..).symm
      _ ≤ 2 ^ (53 + (t + j)) := Nat.pow_le_pow_right Nat.two_pos (by omega)
  · rcases Nat.eq_or_lt_of_le (show d ≤ t + j by omega) with heq | hlt
    · exact .inl heq.symm
    · refine .inr ⟨hlt.le, ?_⟩
      rw [← Nat.pow_add]
      calc
        2 ^ (52 + (t + j)) ≤ 2 ^ (m.log2 + j) := Nat.pow_le_pow_right Nat.two_pos (by omega)
        _ = 2 ^ m.log2 * 2 ^ j := Nat.pow_add ..
        _ ≤ m * 2 ^ j := Nat.mul_le_mul_right _ hle

theorem amounts_roundWithAccuracy (sign : Sign) {d j m : Nat} (hm : 0 < m)
    (hj : j ≤ d ∨ 52 ≤ m.log2) :
    Amounts (rounded d (sign.apply (m * 2 ^ j : Nat)))
      (roundWithAccuracy .binary64 sign m (j - 1074 - d) .exact) := by
  obtain ⟨t, ht⟩ : ∃ t, t = (max (↑m.log2 + 1 + ((j : Int) - 1074 - d) - 53) (-1074) -
    (j - 1074 - d)).toNat := ⟨_, rfl⟩
  have hlost := lost_mul_pow hm hj ht
  have hle : d ≤ lost d (m * 2 ^ j) := le_max_right _ _
  have hhalf : halfEven m (1 * 2 ^ t) = halfEven (m * 2 ^ j) (2 ^ lost d (m * 2 ^ j)) := by
    rw [hlost, Nat.pow_add, halfEven_mul_mul (Nat.two_pow_pos j), Nat.one_mul]
  have hdigits : lost d (m * 2 ^ j) - d = 0 ∨ 2 ^ 52 * (1 * 2 ^ t) ≤ m := by
    refine (Nat.eq_zero_or_pos _).imp_right fun hpos => ?_
    have hleast := le_of_lost (d := d) (n := m * 2 ^ j) (by omega)
    rw [hlost, Nat.pow_add, ← Nat.mul_assoc] at hleast
    rw [Nat.one_mul]
    exact Nat.le_of_mul_le_mul_right hleast (Nat.two_pow_pos j)
  have hamounts := amounts_quotient sign (n := m) (p := 1) (s := t)
    (k := lost d (m * 2 ^ j) - d) Nat.one_pos (by rwa [Nat.div_one]) (by omega) hdigits
  rw [rounded_apply, nearest, ← hhalf]
  rwa [Nat.div_one, Nat.mod_one] at hamounts

theorem amounts_round (sign : Sign) {j m : Nat} (hm : 0 < m) :
    Amounts (rounded 0 (sign.apply (m * 2 ^ j : Nat)))
      (UnpackedFloat.round .binary64 sign m (j - 1074)) := by
  rw [UnpackedFloat.round, decreaseExponent, targetExponent_eq]
  obtain ⟨t, ht⟩ : ∃ t, t =
      ((j : Int) - 1074 - max (↑m.log2 + 1 + ((j : Int) - 1074) - 53) (-1074)).toNat := ⟨_, rfl⟩
  have htj : t ≤ j := by omega
  have hvalue : m * 2 ^ j = m <<< t * 2 ^ (j - t) := by
    rw [Nat.shiftLeft_eq, Nat.mul_assoc, ← Nat.pow_add, Nat.add_sub_cancel' htj]
  have hexponent : (j : Int) - 1074 - t = (j - t : Nat) - 1074 - (0 : Nat) := by omega
  rw [← ht, hvalue]
  dsimp only
  rw [hexponent]
  have hpos : 0 < m <<< t := by
    rw [Nat.shiftLeft_eq]
    exact Nat.mul_pos hm (Nat.two_pow_pos t)
  refine amounts_roundWithAccuracy sign hpos ?_
  rcases Nat.eq_zero_or_pos (j - t) with hzero | hleft
  · exact .inl hzero.le
  · refine .inr ((Nat.le_log2 hpos.ne').mpr ?_)
    rw [Nat.shiftLeft_eq]
    calc
      2 ^ 52 ≤ 2 ^ (m.log2 + t) := Nat.pow_le_pow_right Nat.two_pos (by omega)
      _ = 2 ^ m.log2 * 2 ^ t := Nat.pow_add ..
      _ ≤ m * 2 ^ t := Nat.mul_le_mul_right _ (Nat.log2_self_le hm.ne')

theorem amounts_normalize (mantissa : Int) (j : Nat) (zero : Sign) :
    Amounts (rounded 0 (mantissa * 2 ^ j))
      (UnpackedFloat.normalize .binary64 mantissa (j - 1074) zero) := by
  rw [UnpackedFloat.normalize]
  split
  case h_1 hlt =>
    have hneg := Std.compare_eq_lt.mp hlt
    have hvalue : mantissa * 2 ^ j = Sign.negative.apply ((-mantissa).toNat * 2 ^ j : Nat) := by
      rw [Sign.apply]
      push_cast
      rw [Int.toNat_of_nonneg (by omega)]
      ring
    rw [hvalue]
    exact amounts_round .negative (by omega)
  case h_2 heq =>
    rw [Std.compare_eq_iff_eq.mp heq, Int.zero_mul]
    exact rfl
  case h_3 hgt =>
    have hpos := Std.compare_eq_gt.mp hgt
    have hvalue : mantissa * 2 ^ j = Sign.positive.apply (mantissa.toNat * 2 ^ j : Nat) := by
      rw [Sign.apply]
      push_cast
      rw [Int.toNat_of_nonneg (by omega)]
    rw [hvalue]
    exact amounts_round .positive (by omega)

section Parts

variable {a b : Int} {x y : UnpackedFloat}

theorem amounts_neg (h : Amounts a x) : Amounts (-a) (UnpackedFloat.neg x) := by
  cases x with
  | notANumber | infinity => exact h.elim
  | zero =>
      obtain rfl : a = 0 := h
      exact rfl
  | finite =>
      obtain ⟨k, he, hlt, hk, rfl⟩ := h
      exact ⟨k, he, hlt, hk, (apply_neg _ _).symm⟩

theorem apply_shiftLeft (sign : Sign) (m : Nat) {k j : Nat} (h : j ≤ k) :
    sign.apply (m <<< ((k : Int) - 1074 - (j - 1074)).toNat : Nat) * 2 ^ j =
      sign.apply (m * 2 ^ k : Nat) := by
  have hshift : ((k : Int) - 1074 - (j - 1074)).toNat = k - j := by omega
  have hpow : (2 : Int) ^ k = 2 ^ (k - j) * 2 ^ j := by rw [← pow_add, Nat.sub_add_cancel h]
  rw [hshift, Nat.shiftLeft_eq]
  cases sign with
  | negative | positive =>
      simp only [Sign.apply]
      push_cast
      rw [hpow]
      ring

theorem amounts_add (hx : Amounts a x) (hy : Amounts b y) :
    Amounts (rounded 0 (a + b)) (UnpackedFloat.add .binary64 x y) := by
  cases x with
  | notANumber | infinity => exact hx.elim
  | zero sign =>
      obtain rfl : a = 0 := hx
      rw [Int.zero_add, hy.rounded]
      cases y with
      | notANumber | infinity => exact hy.elim
      | zero other =>
          rw [UnpackedFloat.add]
          split
          · exact hy
          · exact hy
      | finite => exact hy
  | finite sign m e hm =>
      cases y with
      | notANumber | infinity => exact hy.elim
      | zero =>
          obtain rfl : b = 0 := hy
          rw [Int.add_zero, hx.rounded]
          exact hx
      | finite other n f hn =>
          obtain ⟨k, rfl, -, -, rfl⟩ := hx
          obtain ⟨l, rfl, -, -, rfl⟩ := hy
          have hmin : min ((k : Int) - 1074) (l - 1074) = (min k l : Nat) - 1074 := by omega
          rw [UnpackedFloat.add, decreaseExponent, decreaseExponent]
          dsimp only
          rw [hmin, ← apply_shiftLeft sign m (Nat.min_le_left k l),
            ← apply_shiftLeft other n (Nat.min_le_right k l), ← Int.add_mul]
          exact amounts_normalize _ _ _

theorem apply_mul (sign other : Sign) (m n : Nat) :
    sign.apply m * other.apply n = (sign * other).apply (m * n : Nat) := by
  rw [Int.natCast_mul]
  cases sign with
  | negative =>
      cases other with
      | negative => exact Int.neg_mul_neg _ _
      | positive => exact Int.neg_mul _ _
  | positive =>
      cases other with
      | negative => exact Int.mul_neg _ _
      | positive => rfl

theorem amounts_mul (hx : Amounts a x) (hy : Amounts b y) :
    Amounts (rounded places (a * b)) (UnpackedFloat.mul .binary64 x y) := by
  cases x with
  | notANumber | infinity => exact hx.elim
  | zero sign =>
      obtain rfl : a = 0 := hx
      rw [Int.zero_mul, rounded_zero]
      cases y with
      | notANumber | infinity => exact hy.elim
      | zero | finite => exact rfl
  | finite sign m e hm =>
      cases y with
      | notANumber | infinity => exact hy.elim
      | zero =>
          obtain rfl : b = 0 := hy
          rw [Int.mul_zero, rounded_zero]
          exact rfl
      | finite other n f hn =>
          obtain ⟨k, rfl, -, hk, rfl⟩ := hx
          obtain ⟨l, rfl, -, hl, rfl⟩ := hy
          have hvalue : m * 2 ^ k * (n * 2 ^ l) = m * n * 2 ^ (k + l) := by
            rw [Nat.pow_add]
            ring
          have hplaces := places_eq
          have hexponent : (k : Int) - 1074 + (l - 1074) = (k + l : Nat) - 1074 - places := by
            omega
          rw [apply_mul, hvalue, UnpackedFloat.mul, hexponent]
          refine amounts_roundWithAccuracy _ (Nat.mul_pos hm hn) ?_
          have hdigits : 2 ^ 52 ≤ m ∨ 2 ^ 52 ≤ n → 52 ≤ (m * n).log2 := by
            intro h
            rw [Nat.le_log2 (Nat.mul_pos hm hn).ne']
            rcases h with h | h
            · exact h.trans (Nat.le_mul_of_pos_right m hn)
            · exact h.trans (Nat.le_mul_of_pos_left n hm)
          omega

end Parts

theorem magnitude_of_components {x : Binary64} {sign : Sign} {exponent : BitVec 11}
    {fraction : BitVec 52} (h : x.bits.toBitVec = packComponents .binary64 sign exponent fraction) :
    x.magnitude = 2 ^ 52 * exponent.toNat + fraction.toNat ∧
      (x.negative = false ↔ sign = .positive) := by
  have hexponent := toNat_unpackExponent x
  have hfraction := toNat_unpackMantissa x
  have hsign := sign_eq_positive_iff (x := x)
  rw [h, unpackExponent_packComponents] at hexponent
  rw [h, unpackMantissa_packComponents] at hfraction
  rw [h, unpackSign_packComponents] at hsign
  constructor
  · omega
  · rw [← hsign]
    cases sign with
    | negative | positive => rfl

theorem units_eq {x : Binary64} {sign : Sign} (h : x.negative = false ↔ sign = .positive) :
    units x = sign.apply (scale x.magnitude) := by
  rw [units]
  cases sign with
  | negative =>
      have hnegative : x.negative = true := by simpa using h
      rw [hnegative]
      rfl
  | positive =>
      rw [h.mpr rfl]
      rfl

/-- Units that are out of range become those of an infinity. -/
def clip (value : Int) : Int :=
  max (-bound) (min value bound)

theorem clip_zero : clip 0 = 0 := by
  rw [clip]
  omega

theorem clip_nonneg {value : Int} (h : 0 ≤ value) : 0 ≤ clip value := by
  rw [clip]
  omega

theorem clip_of_lt {value : Int} (h : value.natAbs < bound) : clip value = value := by
  rw [clip]
  omega

theorem eq_of_clip_lt {value : Int} (h : (clip value).natAbs < bound) : clip value = value := by
  rw [clip] at h ⊢
  omega

theorem clip_apply (sign : Sign) (n : Nat) :
    clip (sign.apply n) = sign.apply (min n bound : Nat) := by
  rw [clip]
  cases sign with
  | negative | positive =>
      simp only [Sign.apply]
      omega

theorem units_ofParts {value : Int} {x : UnpackedFloat} (h : Amounts value x) :
    (ofParts x).isNaN = false ∧ units (ofParts x) = clip value := by
  have hdefined : x.isNaN = false := by
    cases x with
    | notANumber => exact h.elim
    | infinity | zero | finite => rfl
  refine ⟨ofParts_isNaN hdefined, ?_⟩
  have hword : (ofParts x).bits.toBitVec = UnpackedFloat.pack .binary64 x := by
    rw [ofFloat_eq hdefined]
    rfl
  have hbias : (Format.binary64.exponentBias : Int) = 1023 := rfl
  cases x with
  | notANumber | infinity => exact h.elim
  | zero sign =>
      obtain rfl : value = 0 := h
      obtain ⟨hmagnitude, hsign⟩ := magnitude_of_components hword
      rw [units_eq hsign, hmagnitude, clip_zero]
      change sign.apply (scale 0 : Nat) = 0
      rw [scale_zero]
      cases sign with
      | negative | positive => rfl
  | finite sign m e hm =>
      obtain ⟨k, rfl, hlt, hk, rfl⟩ := h
      have hscale : scale (m + 2 ^ 52 * k) = m * 2 ^ k := scale_eq hlt.le hk
      rw [UnpackedFloat.pack] at hword
      dsimp only at hword
      generalize hfield : ((k : Int) - 1074 + ↑Format.binary64.exponentBias + ↑52).toNat = field
        at hword
      obtain rfl : field = k + 1 := by omega
      rw [clip_apply, ← hscale, bound, ← scale_strictMono.monotone.map_min]
      have hinfinity : Binary64.infinity.magnitude = 2047 * 2 ^ 52 := rfl
      have hlog : m.log2 < 53 := (Nat.log2_lt hm.ne').mpr hlt
      have hbits : Format.binary64.mantissaBits = 53 := rfl
      split_ifs at hword with hlarge hnormal
      · obtain ⟨hmagnitude, hsign⟩ := magnitude_of_components hword
        have hlargest : (ofParts (.finite sign m (k - 1074) hm)).magnitude = 2047 * 2 ^ 52 :=
          hmagnitude
        rw [units_eq hsign, hlargest, Nat.min_eq_right (by omega), hinfinity]
      · obtain ⟨hmagnitude, hsign⟩ := magnitude_of_components hword
        rw [BitVec.toNat_ofNat, BitVec.toNat_ofNat] at hmagnitude
        have hle : 2 ^ 52 ≤ m := (Nat.le_log2 hm.ne').mp (by omega)
        rw [units_eq hsign, hmagnitude, Nat.min_eq_left (by omega)]
        congr 3
        omega
      · obtain ⟨hmagnitude, hsign⟩ := magnitude_of_components hword
        rw [BitVec.toNat_ofNat, BitVec.toNat_ofNat] at hmagnitude
        have hsmall : m < 2 ^ 52 := (Nat.log2_lt hm.ne').mp (by omega)
        rw [units_eq hsign, hmagnitude, Nat.min_eq_left (by omega)]
        congr 3
        omega

section Operations

variable {x y : Binary64}

theorem units_neg (x : Binary64) : units (-x) = -units x ∧ (-x).isNaN = x.isNaN := by
  have hbits : (-x).bits.toNat = x.bits.toNat ^^^ 2 ^ 63 := rfl
  have hmagnitude : (-x).magnitude = x.magnitude := by
    change (-x).bits.toNat % 2 ^ 63 = x.bits.toNat % 2 ^ 63
    rw [hbits, Nat.xor_mod_two_pow, Nat.mod_self, Nat.xor_zero]
  have hnegative : (-x).negative = !x.negative := by
    have hlt := x.bits.toNat_lt
    have hdiv : (-x).bits.toNat / 2 ^ 63 = x.bits.toNat / 2 ^ 63 ^^^ 1 := by
      rw [hbits, Nat.xor_div_two_pow]
      rfl
    rw [Bool.eq_iff_iff, Bool.not_eq_true', ← Bool.not_eq_true, negative_iff, negative_iff]
    rcases Nat.lt_or_ge x.bits.toNat (2 ^ 63) with hsmall | hlarge
    · rw [Nat.div_eq_of_lt hsmall] at hdiv
      have hone : (-x).bits.toNat / 2 ^ 63 = 1 := hdiv
      omega
    · have hquotient : x.bits.toNat / 2 ^ 63 = 1 := by omega
      rw [hquotient] at hdiv
      have hzero : (-x).bits.toNat / 2 ^ 63 = 0 := hdiv
      omega
  constructor
  · rw [units, units, hmagnitude, hnegative]
    cases x.negative with
    | false => rfl
    | true => exact (Int.neg_neg _).symm
  · rw [Binary64.isNaN, Binary64.isNaN, hmagnitude]

theorem isFinite_neg : IsFinite (-x) ↔ IsFinite x := by
  rw [isFinite_iff_units, isFinite_iff_units, (units_neg x).1, Int.natAbs_neg]

variable (hx : IsFinite x) (hy : IsFinite y)

include hx hy

theorem units_add :
    (x + y).isNaN = false ∧ units (x + y) = clip (rounded 0 (units x + units y)) := by
  rw [add_eq (isNaN_of_isFinite hx) (isNaN_of_isFinite hy)]
  exact units_ofParts (amounts_add (amounts_parts hx) (amounts_parts hy))

theorem units_sub :
    (x - y).isNaN = false ∧ units (x - y) = clip (rounded 0 (units x - units y)) := by
  rw [sub_eq (isNaN_of_isFinite hx) (isNaN_of_isFinite hy), unpacked_sub_eq, Int.sub_eq_add_neg]
  exact units_ofParts (amounts_add (amounts_parts hx) (amounts_neg (amounts_parts hy)))

theorem units_mul :
    (x * y).isNaN = false ∧ units (x * y) = clip (rounded places (units x * units y)) := by
  rw [mul_eq (isNaN_of_isFinite hx) (isNaN_of_isFinite hy)]
  exact units_ofParts (amounts_mul (amounts_parts hx) (amounts_parts hy))

end Operations

end Archipelago.Proofs.Arithmetic
