import Archipelago.Proofs.Arithmetic
import Mathlib.Tactic.Ring

namespace Archipelago.Proofs.WholeNumbers

open Arithmetic
open Float.Model
open Float.Model.UnpackedFloat
open Magnitudes
open Roundings
open Spacing
open Sums

/-- The units of the number one. -/
def unity : Nat :=
  2 ^ places

theorem unity_pos : 0 < unity :=
  Nat.two_pow_pos places

theorem natCast_mul_unity_lt {n : Nat} (hn : n ≤ 2 ^ 64) : n * unity < bound := by
  have hinfinity : Binary64.infinity.magnitude = 2047 * 2 ^ 52 := rfl
  have hplaces := places_eq
  calc
    n * unity ≤ 2 ^ 64 * 2 ^ places := Nat.mul_le_mul_right _ hn
    _ = 2 ^ 53 * 2 ^ (places + 11) := by
      rw [← Nat.pow_add, ← Nat.pow_add]
      congr 1
      omega
    _ = scale (2 ^ 53 + 2 ^ 52 * (places + 11)) := (scale_eq le_rfl (.inr (by omega))).symm
    _ < bound := scale_strictMono (by rw [hinfinity]; omega)

theorem rounded_mul_unity {value : Int} {x : UnpackedFloat} (h : Amounts value x) :
    rounded places (value * unity) = value := by
  cases x with
  | notANumber | infinity => exact h.elim
  | zero =>
      obtain rfl : value = 0 := h
      rw [Int.zero_mul, rounded_zero]
  | finite sign m e hm =>
      have hrounded := h.rounded
      obtain ⟨k, -, -, -, rfl⟩ := h
      have happly :
          sign.apply (m * 2 ^ k : Nat) * unity = sign.apply (m * 2 ^ k * unity : Nat) := by
        cases sign with
        | negative =>
            simp only [Sign.apply]
            push_cast
            ring
        | positive =>
            simp only [Sign.apply]
            push_cast
            ring
      rw [happly, rounded_apply, unity, nearest_mul_pow, ← rounded_apply, hrounded]

/-- The constant one that conversions of literals multiply by. -/
def factor : Binary64 :=
  ⟨0x3FF0000000000000⟩

theorem scale_mul_pow {m k j : Nat} (hm : m ≤ 2 ^ 53) (hk : k = 0 ∨ 2 ^ 52 ≤ m)
    (h : k + j = places) : scale (m + 2 ^ 52 * k) * 2 ^ j = m * unity := by
  rw [scale_eq hm hk, Nat.mul_assoc, ← Nat.pow_add, h, unity]

theorem units_factor : IsFinite factor ∧ units factor = unity := by
  have hmagnitude : factor.magnitude = 2 ^ 52 + 2 ^ 52 * 1022 := by decide +kernel
  have hnegative : factor.negative = false := by decide +kernel
  have hunits : units factor = scale factor.magnitude := by
    rw [units, hnegative]
    rfl
  have hscale := scale_mul_pow (m := 2 ^ 52) (k := 1022) (j := 52) (by omega) (by omega)
    places_eq.symm
  rw [← hmagnitude] at hscale
  rw [hunits]
  generalize scale factor.magnitude = n at hscale
  exact ⟨by decide +kernel, by omega⟩

theorem ofNat_eq {n : Nat} (hn : n < 2 ^ 53) :
    Binary64.ofNat n =
      ofParts (UnpackedFloat.normalize .binary64 n 0 .positive) * factor := by
  have hdefined : (UnpackedFloat.normalize .binary64 n 0 .positive).isNaN = false :=
    normalize_isNaN _ _ _
  have hword : n.toUInt64.toNat = n := by
    change n % 2 ^ 64 = n
    omega
  have hliteral : Float.ofNat n = n.toUInt64.toFloat * factor.toFloat := by
    change Float.ofScientific n false 0 = _
    rw [Float.ofScientific, dif_pos ⟨hn, Nat.zero_le _⟩]
    rfl
  have hparts : n.toUInt64.toFloat.toModel.unpack =
      parts (ofParts (UnpackedFloat.normalize .binary64 n 0 .positive)) := by
    rw [parts_ofParts hdefined]
    change (Float.Model.ofUInt64 n.toUInt64).unpack = _
    rw [Float.Model.ofUInt64, UnpackedFloat.ofUInt64, hword]
    rfl
  have hfactor : factor.isNaN = false := isNaN_of_isFinite units_factor.1
  rw [mul_eq (ofParts_isNaN hdefined) hfactor, ← hparts, ← unpack_toFloat hfactor,
    Binary64.ofNat, hliteral]
  rfl

theorem units_ofNat {n : Nat} (hn : n < 2 ^ 53) :
    IsFinite (Binary64.ofNat n) ∧ units (Binary64.ofNat n) = n * unity := by
  have hexact : rounded 0 ((n : Int) * 2 ^ places) = (n * unity : Nat) := by
    have hcast : (n : Int) * 2 ^ places = (n * 2 ^ places : Nat) := by push_cast; rfl
    rw [hcast, rounded_natCast, nearest_mul hn.le]
    rfl
  have hzero : (places : Int) - 1074 = 0 := by
    rw [places_eq]
    rfl
  have hamounts := amounts_normalize n places .positive
  rw [hexact, hzero] at hamounts
  obtain ⟨hdefined, hunits⟩ := units_ofParts hamounts
  have hlt : ((n * unity : Nat) : Int).natAbs < bound := natCast_mul_unity_lt (by omega)
  rw [clip_of_lt hlt] at hunits
  have hfinite : IsFinite (ofParts (UnpackedFloat.normalize .binary64 n 0 .positive)) :=
    isFinite_iff_units.mpr (by rw [hunits]; exact hlt)
  obtain ⟨-, hproduct⟩ := units_mul hfinite units_factor.1
  rw [← ofNat_eq hn, hunits, units_factor.2, rounded_mul_unity hamounts, clip_of_lt hlt] at hproduct
  rw [isFinite_iff_units, hproduct]
  exact ⟨hlt, Int.natCast_mul n unity⟩

theorem units_one : IsFinite (1 : Binary64) ∧ units (1 : Binary64) = unity := by
  obtain ⟨hfinite, hunits⟩ := units_ofNat (n := 1) (by decide)
  exact ⟨hfinite, hunits.trans (by rw [Int.natCast_one, Int.one_mul])⟩

theorem toInt_eq {n : Nat} {x : UnpackedFloat} (h : Amounts n x) (least greatest : Int) :
    x.toInt least greatest = (n / unity : Nat) := by
  cases x with
  | notANumber | infinity => exact h.elim
  | zero =>
      obtain rfl : n = 0 := Int.ofNat_eq_zero.mp h
      rw [Nat.zero_div]
      rfl
  | finite sign m e hm =>
      obtain ⟨k, rfl, -, -, hvalue⟩ := h
      cases sign with
      | negative =>
          have hpos := Nat.mul_pos hm (Nat.two_pow_pos k)
          have hneg : (n : Int) = -(m * 2 ^ k : Nat) := hvalue
          omega
      | positive =>
          obtain rfl : n = m * 2 ^ k := Int.ofNat_inj.mp hvalue
          have hplaces := places_eq
          rw [UnpackedFloat.toInt, roundToInt]
          simp only [decreaseExponent, shiftToExponent]
          rw [mantissa_shiftRight, mantissa_ofMantissaAndAccuracy, Nat.shiftLeft_eq, Sign.apply,
            unity]
          congr 1
          rcases Nat.le_total places k with hle | hle
          · have hleft : ((k : Int) - 1074 - 0).toNat = k - places := by omega
            have hright : (0 - ((k : Int) - 1074 - ↑(k - places))).toNat = 0 := by omega
            have hsplit : 2 ^ k = 2 ^ (k - places) * 2 ^ places := by
              rw [← Nat.pow_add, Nat.sub_add_cancel hle]
            rw [hleft, hright, hsplit, ← Nat.mul_assoc, Nat.mul_div_cancel _ (Nat.two_pow_pos _),
              Nat.pow_zero, Nat.div_one]
          · have hleft : ((k : Int) - 1074 - 0).toNat = 0 := by omega
            have hright : (0 - ((k : Int) - 1074 - ↑(0 : Nat))).toNat = places - k := by omega
            have hsplit : 2 ^ places = 2 ^ (places - k) * 2 ^ k := by
              rw [← Nat.pow_add, Nat.sub_add_cancel hle]
            rw [hleft, hright, hsplit, Nat.mul_div_mul_right _ _ (Nat.two_pow_pos k), Nat.pow_zero,
              Nat.mul_one]

theorem truncate_eq {x : Binary64} {n : Nat} (hfinite : IsFinite x) (hunits : units x = n)
    (hlt : n < 2 ^ 53 * unity) : x.truncate = n / unity := by
  have hsize : n / unity < UInt64.size := by
    have := (Nat.div_lt_iff_lt_mul unity_pos).mpr hlt
    have hsize : UInt64.size = 2 ^ 64 := rfl
    omega
  have hamounts := amounts_parts hfinite
  rw [hunits] at hamounts
  change (UInt64.ofNatClamp (x.toFloat.toModel.unpack.toInt 0 (UInt64.size - 1)).toNat).toNat = _
  rw [unpack_toFloat (isNaN_of_isFinite hfinite), toInt_eq hamounts, Int.toNat_natCast,
    UInt64.ofNatClamp, dif_pos hsize]
  rfl

theorem units_abs (x : Binary64) :
    units x.abs = scale x.magnitude ∧ x.abs.magnitude = x.magnitude := by
  have hbits : x.abs.bits.toNat = x.bits.toNat % 2 ^ 63 := rfl
  have hmagnitude : x.abs.magnitude = x.magnitude := Nat.mod_mod _ _
  have hnegative : x.abs.negative = false := by
    rw [← Bool.not_eq_true, negative_iff, hbits]
    omega
  rw [units, hnegative, hmagnitude]
  exact ⟨rfl, rfl⟩

theorem eq_of_units_eq {x y : Binary64} (hpos : 0 < units x) (h : units x = units y) : x = y := by
  have hpositive : ∀ {x : Binary64}, 0 < units x →
      x.bits.toNat = x.magnitude ∧ units x = scale x.magnitude := by
    intro x hx
    have hbits : x.magnitude = x.bits.toNat % 2 ^ 63 := rfl
    have hlt := x.bits.toNat_lt
    rw [units] at hx ⊢
    split_ifs at hx ⊢ with hnegative
    · omega
    · rw [negative_iff] at hnegative
      omega
  obtain ⟨hx, hscale⟩ := hpositive hpos
  obtain ⟨hy, hscale'⟩ := hpositive (h ▸ hpos)
  have hmagnitude : x.magnitude = y.magnitude := by
    rw [hscale, hscale', Int.ofNat_inj] at h
    exact scale_strictMono.injective h
  have hbits : x.bits = y.bits := UInt64.toNat.inj (by rw [hx, hy, hmagnitude])
  cases x
  cases y
  exact congrArg _ hbits

theorem allWhole_magnitude : Binary64.allWhole.magnitude = 1075 * 2 ^ 52 ∧
    Binary64.allWhole.isNaN = false ∧ Binary64.allWhole.negative = false := by
  decide +kernel

theorem allWhole_le_abs_iff {x : Binary64} (hx : x.isNaN = false) :
    Binary64.allWhole ≤ x.abs ↔ 1075 * 2 ^ 52 ≤ x.magnitude := by
  obtain ⟨hmagnitude, hdefined, hnegative⟩ := allWhole_magnitude
  obtain ⟨hunits, habs⟩ := units_abs x
  have hx' : x.abs.isNaN = false := by rw [Binary64.isNaN, habs, ← Binary64.isNaN, hx]
  rw [le_iff_units_le hdefined hx', hunits, units, hnegative, hmagnitude]
  exact Int.ofNat_le.trans scale_strictMono.le_iff_le

theorem unity_dvd_scale {magnitude : Nat} (h : 1075 * 2 ^ 52 ≤ magnitude) :
    unity ∣ scale magnitude := by
  obtain ⟨m, k, rfl, hm, hk⟩ := exists_mantissa magnitude
  have hplaces := places_eq
  rw [scale_eq hm.le hk]
  exact (Nat.pow_dvd_pow 2 (by omega)).mul_left m

theorem scale_lt {magnitude : Nat} (h : magnitude < 1075 * 2 ^ 52) :
    scale magnitude < 2 ^ 52 * unity := by
  have hplaces := places_eq
  have hscale : scale (2 ^ 52 + 2 ^ 52 * places) = 2 ^ 52 * 2 ^ places :=
    scale_eq (by omega) (by omega)
  rw [unity, ← hscale]
  exact scale_strictMono (by omega)

theorem floor_of_whole {x : Binary64} (hdefined : x.isNaN = false)
    (h : x.magnitude = 0 ∨ 1075 * 2 ^ 52 ≤ x.magnitude) : x.floor = x := by
  rw [Binary64.floor, hdefined, if_neg Bool.false_ne_true,
    if_pos (h.imp_right (allWhole_le_abs_iff hdefined).mpr)]

theorem floor_of_small {x : Binary64} (h : IsFinite x) (hne : x.magnitude ≠ 0)
    (hsmall : x.magnitude < 1075 * 2 ^ 52) :
    x.floor =
      if x.negative then
        if .ofNat (scale x.magnitude / unity) = x.abs then x
        else -.ofNat (scale x.magnitude / unity + 1)
      else .ofNat (scale x.magnitude / unity) := by
  have hdefined := isNaN_of_isFinite h
  obtain ⟨habs, hmagnitude⟩ := units_abs x
  have hfinite : IsFinite x.abs := by rwa [IsFinite, hmagnitude]
  have hlt := scale_lt hsmall
  have hnot : ¬(x.magnitude = 0 ∨ Binary64.allWhole ≤ x.abs) := by
    rw [allWhole_le_abs_iff hdefined]
    omega
  rw [Binary64.floor, hdefined, if_neg Bool.false_ne_true, if_neg hnot,
    truncate_eq hfinite habs (by omega)]
  exact ite_not ..

theorem units_floor {x : Binary64} (h : IsFinite x) :
    IsFinite x.floor ∧ units x.floor = units x / unity * unity := by
  by_cases hwhole : x.magnitude = 0 ∨ 1075 * 2 ^ 52 ≤ x.magnitude
  · rw [floor_of_whole (isNaN_of_isFinite h) hwhole]
    have hdvd : unity ∣ (units x).natAbs := by
      rw [natAbs_units]
      rcases hwhole with hzero | hlarge
      · rw [hzero, scale_zero]
        exact Nat.dvd_zero _
      · exact unity_dvd_scale hlarge
    exact ⟨h, (Int.ediv_mul_cancel (Int.natCast_dvd.mpr hdvd)).symm⟩
  · obtain ⟨hne, hsmall⟩ : x.magnitude ≠ 0 ∧ x.magnitude < 1075 * 2 ^ 52 := by omega
    have hle : scale x.magnitude / unity < 2 ^ 52 :=
      (Nat.div_lt_iff_lt_mul unity_pos).mpr (scale_lt hsmall)
    obtain ⟨hfloor, hunits⟩ := units_ofNat (n := scale x.magnitude / unity) (by omega)
    rw [floor_of_small h hne hsmall]
    split_ifs with hnegative hexact
    · have hx : units x = -(scale x.magnitude : Int) := if_pos hnegative
      rw [hexact, (units_abs x).1] at hunits
      rw [hx, hunits, ← Int.neg_mul, Int.mul_ediv_cancel _ (Int.natCast_ne_zero.mpr unity_pos.ne')]
      exact ⟨h, rfl⟩
    · have hx : units x = -(scale x.magnitude : Int) := if_pos hnegative
      obtain ⟨hnext, hunits'⟩ := units_ofNat (n := scale x.magnitude / unity + 1) (by omega)
      -- Otherwise the number would have been found to be the natural number.
      have hnot : ¬(unity : Int) ∣ scale x.magnitude := by
        intro hdvd
        have heq : units (Binary64.ofNat (scale x.magnitude / unity)) = units x.abs := by
          rw [hunits, (units_abs x).1, Int.natCast_ediv, Int.ediv_mul_cancel hdvd]
        have hpos : 0 < scale x.magnitude :=
          Nat.pos_of_ne_zero fun hzero => hne (scale_eq_zero_iff.mp hzero)
        refine hexact (eq_of_units_eq ?_ heq)
        rw [heq, (units_abs x).1]
        exact Int.natCast_pos.mpr hpos
      rw [isFinite_neg, (units_neg _).1, hunits', hx, Int.neg_ediv, if_neg hnot,
        Int.sign_eq_one_of_pos (Int.natCast_pos.mpr unity_pos)]
      refine ⟨hnext, ?_⟩
      push_cast
      ring
    · have hx : units x = scale x.magnitude := if_neg hnegative
      rw [hunits, hx, Int.natCast_ediv]
      exact ⟨hfloor, rfl⟩

theorem floor_isNaN {x : Binary64} (h : x.isNaN = true) : x.floor.isNaN = true := by
  rw [Binary64.floor, h, if_pos rfl]
  exact quieted_isNaN h

theorem isFinite_of_floor {x : Binary64} (h : IsFinite x.floor) : IsFinite x := by
  by_contra hnot
  cases hdefined : x.isNaN with
  | true =>
      have hundefined := floor_isNaN hdefined
      rw [isNaN_of_isFinite h] at hundefined
      contradiction
  | false =>
      rw [isFinite_iff, Nat.not_lt] at hnot
      rw [floor_of_whole hdefined (.inr (by omega))] at h
      exact hnot.not_gt h

section Whole

variable {x : Binary64} (h : IsFinite x)

include h

theorem units_floor_le : units x.floor ≤ units x := by
  rw [(units_floor h).2]
  exact Int.ediv_mul_le _ (Int.natCast_ne_zero.mpr unity_pos.ne')

theorem units_floor_nonneg (hnonneg : 0 ≤ units x) : 0 ≤ units x.floor := by
  rw [(units_floor h).2]
  exact Int.mul_nonneg (Int.ediv_nonneg hnonneg (Int.natCast_nonneg _)) (Int.natCast_nonneg _)

theorem unity_dvd_floor : (unity : Int) ∣ units x.floor := by
  rw [(units_floor h).2]
  exact Int.dvd_mul_left ..

/-- The smallest whole number that is not below a finite double. -/
theorem ceil_spec :
    IsFinite (Scalar.ceil x) ∧ units x ≤ units (Scalar.ceil x) ∧
      (unity : Int) ∣ units (Scalar.ceil x) := by
  have hneg : IsFinite (-x) := isFinite_neg.mpr h
  have hle := units_floor_le hneg
  have hdvd := unity_dvd_floor hneg
  have hceil : Scalar.ceil x = -(-x).floor := rfl
  rw [hceil, isFinite_neg, (units_neg _).1, Int.dvd_neg]
  rw [(units_neg x).1] at hle
  exact ⟨(units_floor hneg).1, by omega, hdvd⟩

theorem isWhole_of_dvd (hdvd : (unity : Int) ∣ units x) : Scalar.IsWhole x := by
  obtain ⟨hfinite, hfloor⟩ := units_floor h
  rw [Int.ediv_mul_cancel hdvd] at hfloor
  obtain ⟨hdefined, hrest⟩ := units_sub h hfinite
  rw [hfloor, Int.sub_self, rounded_zero, clip_zero] at hrest
  refine ⟨(le_iff_units_le hdefined units_zero.1).mpr ?_,
    (le_iff_units_le units_zero.1 hdefined).mpr ?_⟩
  · rw [units_zero.2]
    exact hrest.le
  · rw [units_zero.2]
    exact hrest.ge

end Whole

theorem ceil_isNaN {x : Binary64} (h : x.isNaN = true) : (Scalar.ceil x).isNaN = true := by
  have hneg : (-x).isNaN = true := (units_neg x).2.trans h
  exact (units_neg _).2.trans (floor_isNaN hneg)

theorem isFinite_of_ceil {x : Binary64} (h : IsFinite (Scalar.ceil x)) : IsFinite x := by
  have hfloor : IsFinite (-x).floor := isFinite_neg.mp h
  exact isFinite_neg.mp (isFinite_of_floor hfloor)

end Archipelago.Proofs.WholeNumbers
