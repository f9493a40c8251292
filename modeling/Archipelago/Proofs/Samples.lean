import Archipelago.Proofs.Infinities
import Archipelago.Proofs.WholeNumbers
import Archipelago.Sampling
import Mathlib.Tactic.Lift

namespace Archipelago.Proofs.Samples

open Arithmetic
open Infinities
open Magnitudes
open OrderedScalars
open Roundings
open Spacing
open WholeNumbers

/-- Bounds and a deviate that lead to a number between the bounds. -/
def Drawable (lower upper u : Binary64) : Prop :=
  IsFinite (upper - lower) ∨ IsFinite lower ∧ 0 < u

section Deviates

variable {u : Binary64} (hu : 0 ≤ u ∧ u < 1)

include hu

theorem isFinite_deviate : IsFinite u :=
  isFinite_of_mem isFinite_zero units_one.1 ⟨hu.1, Binary64.le_of_lt hu.2⟩

theorem units_deviate : 0 ≤ units u ∧ units u * 2 ^ 53 ≤ (2 ^ 53 - 1) * unity := by
  have hnonneg := zero_le_iff_units.mp hu.1
  refine ⟨hnonneg.2, ?_⟩
  have hone : (1 : Binary64).signed = 1023 * 2 ^ 52 := by decide +kernel
  have hsigned : 0 ≤ u.signed ∧ u.signed < 1023 * 2 ^ 52 := ⟨hu.1.2.2, hone ▸ hu.2.2.2⟩
  have hmagnitude : u.magnitude ≤ 2 ^ 53 - 1 + 2 ^ 52 * 1021 := by
    simp only [Binary64.signed] at hsigned
    split_ifs at hsigned <;> omega
  have hunits : units u = scale u.magnitude := by
    rw [← natAbs_units, Int.natAbs_of_nonneg hnonneg.2]
  have hscale := scale_mul_pow (m := 2 ^ 53 - 1) (k := 1021) (j := 53) (by omega) (by omega)
    places_eq.symm
  have hle := Nat.mul_le_mul_right (2 ^ 53) (scale_strictMono.monotone hmagnitude)
  rw [hunits]
  omega

theorem units_fraction {w : Binary64} (hw : IsFinite w) (hnonneg : 0 ≤ units w) :
    IsFinite (u * w) ∧ 0 ≤ units (u * w) ∧ units (u * w) ≤ units w ∧
      (unity ≤ units w → units (u * w) < units w) := by
  obtain ⟨hleast, hgreatest⟩ := units_deviate hu
  have hexact := rounded_mul_unity (amounts_parts hw)
  have hbound := isFinite_iff_units.mp hw
  rw [isFinite_iff_units, (units_mul (isFinite_deviate hu) hw).2]
  lift units u to Nat using hleast with n
  lift units w to Nat using hnonneg with m
  rw [← Int.natCast_mul, rounded_natCast] at *
  have hle : nearest places (n * m) ≤ m := by
    have hone : n ≤ unity := by omega
    calc
      nearest places (n * m) ≤ nearest places (m * unity) :=
        nearest_mono (by rw [Nat.mul_comm m]; exact Nat.mul_le_mul_right m hone)
      _ = m := Int.ofNat_inj.mp hexact
  have hclip : clip (nearest places (n * m) : Nat) = nearest places (n * m) :=
    clip_of_lt (by omega)
  rw [hclip]
  refine ⟨by omega, by omega, by omega, ?_⟩
  intro hm
  have hlt : n * 2 ^ 53 ≤ (2 ^ 53 - 1) * 2 ^ places := by
    rw [← unity]
    omega
  have hplaces := places_eq
  exact Int.ofNat_lt.mpr (nearest_mul_lt (by omega) hlt (Int.ofNat_le.mp hm))

end Deviates

section Between

variable {lower upper u : Binary64}

theorem units_eq_of_not_lt (hle : lower ≤ upper) (hnot : ¬lower < upper) :
    units upper = units lower := by
  rw [lt_iff_units_lt hle.1 hle.2.1, not_lt] at hnot
  rw [le_iff_units_le hle.1 hle.2.1] at hle
  exact Int.le_antisymm hnot hle

theorem width_nonneg (hle : lower ≤ upper) (hlower : IsFinite lower) : 0 ≤ upper - lower := by
  have hunits := (le_iff_units_le hle.1 hle.2.1).mp hle
  by_cases hupper : IsFinite upper
  · obtain ⟨hdefined, hwidth⟩ := units_sub hupper hlower
    have hrounded : rounded 0 0 ≤ rounded 0 (units upper - units lower) :=
      rounded_mono (Int.sub_nonneg_of_le hunits)
    rw [rounded_zero] at hrounded
    rw [zero_le_iff_units, hwidth, clip]
    exact ⟨hdefined, by omega⟩
  · have hzero : 0 ≤ upper := by
      rw [isFinite_iff_units] at hlower hupper
      exact zero_le_iff_units.mpr ⟨hle.2.1, by omega⟩
    rw [eq_infinity hzero hupper, sub_infinity_eq hlower]
    exact zero_le_infinity

theorem le_add {p : Binary64} (hlower : IsFinite lower) (hp : 0 ≤ p) : lower ≤ lower + p := by
  by_cases hfinite : IsFinite p
  · obtain ⟨hdefined, hsum⟩ := units_add hlower hfinite
    have hunits := (zero_le_iff_units.mp hp).2
    have hrounded := rounded_mono (d := 0) (Int.le_add_of_nonneg_right (a := units lower) hunits)
    rw [(amounts_parts hlower).rounded] at hrounded
    rw [isFinite_iff_units] at hlower
    rw [le_iff_units_le (isNaN_of_isFinite (isFinite_iff_units.mpr hlower)) hdefined, hsum, clip]
    omega
  · rw [eq_infinity hp hfinite, add_infinity_eq hlower]
    exact le_infinity (isNaN_of_isFinite hlower)

theorem between_of_finite (hle : lower ≤ upper) (hu : 0 ≤ u ∧ u < 1)
    (hwidth : IsFinite (upper - lower)) :
    lower ≤ Sampling.between lower upper u ∧ Sampling.between lower upper u ≤ upper := by
  obtain ⟨hupper, hlower⟩ := operands_of_sub hwidth
  have hnonneg := (zero_le_iff_units.mp (width_nonneg hle hlower)).2
  obtain ⟨hpart, hpart', hlt, -⟩ := units_fraction hu hwidth hnonneg
  have hsum : lower ≤ lower + u * (upper - lower) :=
    le_add hlower (zero_le_iff_units.mpr ⟨isNaN_of_isFinite hpart, hpart'⟩)
  rw [Sampling.between]
  split_ifs with hfold
  · exact ⟨le_self_iff.mpr hle.1, hle⟩
  · refine ⟨hsum, ?_⟩
    by_cases hstrict : lower < upper
    · exact le_of_not_lt hsum.2.1 hle.2.1 fun h => hfold ⟨Binary64.le_of_lt h, hstrict⟩
    · -- Between equal bounds there is nothing but the bound.
      have heq := units_eq_of_not_lt hle hstrict
      have hwidth' := (units_sub hupper hlower).2
      rw [heq, Int.sub_self, rounded_zero, clip_zero] at hwidth'
      obtain ⟨hdefined, hunits⟩ := units_add hlower hpart
      have hzero : units (u * (upper - lower)) = 0 := by omega
      rw [hzero, Int.add_zero, (amounts_parts hlower).rounded,
        clip_of_lt (isFinite_iff_units.mp hlower), ← heq] at hunits
      exact (le_iff_units_le hdefined hle.2.1).mpr hunits.le

theorem between_of_infinite (hle : lower ≤ upper) (hwidth : ¬IsFinite (upper - lower))
    (hlower : IsFinite lower) (hu : 0 < u) : Sampling.between lower upper u = lower := by
  have hinfinity := eq_infinity (width_nonneg hle hlower) hwidth
  have hstrict : lower < upper := by
    by_contra hnot
    have heq := units_eq_of_not_lt hle hnot
    have hupper : IsFinite upper := by rwa [isFinite_iff_units, heq, ← isFinite_iff_units]
    have hunits := (units_sub hupper hlower).2
    rw [heq, Int.sub_self, rounded_zero, clip_zero] at hunits
    rw [isFinite_iff_units, hunits] at hwidth
    exact hwidth bound_pos
  rw [Sampling.between, hinfinity, mul_infinity_eq hu, add_infinity_eq hlower]
  exact if_pos ⟨le_infinity hle.2.1, hstrict⟩

/-- A draw between two bounds is in range if one of the two conditions holds that make it
defined. -/
theorem between_mem (hle : lower ≤ upper) (hu : 0 ≤ u ∧ u < 1) (h : Drawable lower upper u) :
    lower ≤ Sampling.between lower upper u ∧ Sampling.between lower upper u ≤ upper := by
  by_cases hwidth : IsFinite (upper - lower)
  · exact between_of_finite hle hu hwidth
  · obtain ⟨hlower, hpos⟩ := h.resolve_left hwidth
    rw [between_of_infinite hle hwidth hlower hpos]
    exact ⟨le_self_iff.mpr hle.1, hle⟩

theorem between_isNaN (hle : lower ≤ upper) (hu : 0 ≤ u) (h : ¬Drawable lower upper u) :
    (Sampling.between lower upper u).isNaN = true := by
  obtain ⟨hwidth, hlower⟩ := not_or.mp h
  have hsum : (lower + u * (upper - lower)).isNaN = true := by
    by_contra hnot
    rw [Bool.not_eq_true] at hnot
    obtain ⟨-, hpart⟩ := defined_of_combine hnot
    obtain ⟨-, hdefined⟩ := defined_of_combine hpart
    obtain ⟨sign, hparts⟩ := exists_parts_infinity hdefined hwidth
    have hinfinite : ¬IsFinite lower := fun hfinite =>
      hlower ⟨hfinite, (parts_mul_infinity hu hparts hpart).2⟩
    obtain ⟨other, hother⟩ := exists_parts_infinity hle.1 hinfinite
    have hproduct := parts_mul_infinity hu (parts_sub_infinity hother hdefined) hpart
    rw [add_infinity_isNaN hother hproduct.1] at hnot
    contradiction
  have hfold : ¬(upper ≤ lower + u * (upper - lower) ∧ lower < upper) := by
    rintro ⟨hge, -⟩
    rw [hge.2.1] at hsum
    contradiction
  rw [Sampling.between, if_neg hfold]
  exact hsum

example : (Sampling.between (-1.7e308) 1.7e308 0 : Binary64).isNaN = true := by
  decide +kernel

end Between

theorem unity_dvd_rounded {value : Int} (h : (unity : Int) ∣ value) :
    (unity : Int) ∣ rounded 0 value := by
  rw [Int.natCast_dvd] at h
  rw [rounded]
  exact (Int.natCast_dvd_natCast.mpr (dvd_nearest h)).mul_left _

section Whole

variable {lower upper u : Binary64}

theorem units_succ {x : Binary64} (hx : IsFinite x) (hnonneg : 0 ≤ units x) :
    IsFinite (x + 1) ∧ units (x + 1) = rounded 0 (units x + unity) := by
  obtain ⟨hone, hunits⟩ := units_one
  obtain ⟨-, hsum⟩ := units_add hx hone
  have hscale := natAbs_units x
  have hlt := isFinite_iff_units.mp hx
  rw [isFinite_iff_units, hsum, hunits]
  lift units x to Nat using hnonneg with n
  rw [Int.natAbs_natCast] at hscale hlt
  have hbound : nearest 0 (n + unity) < bound :=
    nearest_add_lt_bound ⟨x.magnitude, hscale.symm⟩ hlt (by rw [unity])
  have hclip : clip (nearest 0 (n + unity) : Nat) = nearest 0 (n + unity) :=
    clip_of_lt (by rwa [Int.natAbs_natCast])
  rw [← Int.natCast_add, rounded_natCast, hclip, Int.natAbs_natCast]
  exact ⟨hbound, rfl⟩

/-- How many steps a deviate goes from the first of the whole numbers, if it is `count` steps to the
last one. -/
def picked (count u : Binary64) : Binary64 :=
  Scalar.floor (u * (count + 1))

section Steps

variable {count : Binary64} (hcount : IsFinite count) {n : Nat} (hunits : units count = rounded 0 n)
  (hu : 0 ≤ u ∧ u < 1)

include hcount hunits

theorem units_span :
    IsFinite (count + 1) ∧ units (count + 1) = nearest 0 (nearest 0 n + unity) ∧
      unity ≤ nearest 0 (nearest 0 n + unity) := by
  rw [rounded_natCast] at hunits
  obtain ⟨hspan, hspan'⟩ := units_succ hcount (by omega)
  rw [hunits, ← Int.natCast_add, rounded_natCast] at hspan'
  have hone : nearest 0 unity = unity := by
    have hexact := nearest_mul (h := 1) (s := places) (by decide)
    rwa [Nat.one_mul, ← unity] at hexact
  exact ⟨hspan, hspan', hone.symm.trans_le (nearest_mono (Nat.le_add_left _ _))⟩

include hu

theorem units_picked (hdvd : unity ∣ n) :
    IsFinite (picked count u) ∧ 0 ≤ units (picked count u) ∧ units (picked count u) ≤ n ∧
      (unity : Int) ∣ units (picked count u) := by
  obtain ⟨hspan, hspan', hleast⟩ := units_span hcount hunits
  obtain ⟨hpart, hpart', -, hlt⟩ := units_fraction hu hspan (by omega)
  have hfinite : IsFinite (picked count u) := (units_floor hpart).1
  have hnonneg : 0 ≤ units (picked count u) := units_floor_nonneg hpart hpart'
  have hle : units (picked count u) ≤ units (u * (count + 1)) := units_floor_le hpart
  have hwhole : (unity : Int) ∣ units (picked count u) := unity_dvd_floor hpart
  have hexact := (amounts_parts hfinite).rounded
  have hless := hlt (by omega)
  refine ⟨hfinite, hnonneg, ?_, hwhole⟩
  lift units (picked count u) to Nat using hnonneg with q
  rw [rounded_natCast, Int.ofNat_inj] at hexact
  rw [Int.natCast_dvd_natCast] at hwhole
  exact Int.ofNat_le.mpr (le_of_lt_nearest hdvd hwhole hexact (by rw [← unity]; omega))

theorem units_chosen (hdvd : unity ∣ n) {chosen : Binary64}
    (hchosen : chosen = Scalar.lesser (picked count u) (count + 1 - 1)) :
    IsFinite chosen ∧ 0 ≤ units chosen ∧ units chosen ≤ n ∧ (unity : Int) ∣ units chosen := by
  have hpicked := units_picked hcount hunits hu hdvd
  obtain ⟨hspan, hspan', hleast⟩ := units_span hcount hunits
  obtain ⟨hdefined, hlast⟩ := units_sub hspan units_one.1
  rw [hspan', units_one.2] at hlast
  -- Picks are in range already, so the last step has only to do no harm.
  rw [Scalar.lesser] at hchosen
  split_ifs at hchosen with hlt hself
  · rwa [hchosen]
  · have hle := le_of_not_lt hdefined (isNaN_of_isFinite hpicked.1) hlt
    have hunits' := (le_iff_units_le hdefined (isNaN_of_isFinite hpicked.1)).mp hle
    have hnonneg : 0 ≤ rounded 0 ((nearest 0 (nearest 0 n + unity) : Nat) - (unity : Int)) := by
      rw [← rounded_zero 0]
      exact rounded_mono (Int.sub_nonneg_of_le (Int.ofNat_le.mpr hleast))
    have hfinite := isFinite_of_mem isFinite_zero hpicked.1
      ⟨zero_le_iff_units.mpr ⟨hdefined, hlast ▸ clip_nonneg hnonneg⟩, hle⟩
    have hfinite' := isFinite_iff_units.mp hfinite
    rw [hlast] at hfinite'
    rw [eq_of_clip_lt hfinite'] at hlast
    have hwhole : unity ∣ nearest 0 (nearest 0 n + unity) :=
      dvd_nearest (Nat.dvd_add (dvd_nearest hdvd) dvd_rfl)
    rw [hchosen]
    refine ⟨hfinite, ?_, hunits'.trans hpicked.2.2.1, ?_⟩
    · rw [hlast]
      exact hnonneg
    · rw [hlast]
      exact unity_dvd_rounded (Int.dvd_sub (Int.natCast_dvd_natCast.mpr hwhole) dvd_rfl)
  · rwa [hchosen]

end Steps

/-- Rounding does not lead from one finite number past another one. -/
theorem units_add_mem {a b x : Binary64} (ha : IsFinite a) (hb : IsFinite b) (hx : IsFinite x)
    (hnonneg : 0 ≤ units x) (hle : units a + units x ≤ units b) :
    IsFinite (a + x) ∧ units a ≤ units (a + x) ∧ units (a + x) ≤ units b ∧
      units (a + x) = rounded 0 (units a + units x) := by
  have hleast : rounded 0 (units a) ≤ rounded 0 (units a + units x) := rounded_mono (by omega)
  have hgreatest : rounded 0 (units a + units x) ≤ rounded 0 (units b) := rounded_mono hle
  rw [(amounts_parts ha).rounded] at hleast
  rw [(amounts_parts hb).rounded] at hgreatest
  have hsum := (units_add ha hx).2
  rw [isFinite_iff_units] at ha hb
  have hlt : (rounded 0 (units a + units x)).natAbs < bound := by omega
  rw [isFinite_iff_units, hsum, clip_of_lt hlt]
  exact ⟨hlt, hleast, hgreatest, rfl⟩

theorem wholeBetween_mem (hroom : ¬Scalar.floor upper < Scalar.ceil lower)
    (hcount : IsFinite (Scalar.floor upper - Scalar.ceil lower)) (hu : 0 ≤ u ∧ u < 1) :
    (lower ≤ Sampling.wholeBetween lower upper u ∧ Sampling.wholeBetween lower upper u ≤ upper) ∧
      Scalar.IsWhole (Sampling.wholeBetween lower upper u) := by
  obtain ⟨hfloor, hceil⟩ := operands_of_sub hcount
  have hupper : IsFinite upper := isFinite_of_floor hfloor
  have hlower : IsFinite lower := isFinite_of_ceil hceil
  obtain ⟨-, hleast, hwhole⟩ := ceil_spec hlower
  have hgreatest : units (Scalar.floor upper) ≤ units upper := units_floor_le hupper
  have hwhole' : (unity : Int) ∣ units (Scalar.floor upper) := unity_dvd_floor hupper
  rw [lt_iff_units_lt (isNaN_of_isFinite hfloor) (isNaN_of_isFinite hceil), not_lt] at hroom
  obtain ⟨n, hn⟩ := Int.eq_ofNat_of_zero_le (Int.sub_nonneg_of_le hroom)
  have hunits := (units_sub hfloor hceil).2
  rw [hn] at hunits
  have hdvd : unity ∣ n := by
    rw [← Int.natCast_dvd_natCast, ← hn]
    exact Int.dvd_sub hwhole' hwhole
  have hfinite := isFinite_iff_units.mp hcount
  rw [hunits] at hfinite
  rw [eq_of_clip_lt hfinite] at hunits
  obtain ⟨hchosen, hnonneg, hle, hchosen'⟩ := units_chosen hcount hunits hu hdvd rfl
  have hdraw : Sampling.wholeBetween lower upper u = Scalar.ceil lower +
      Scalar.lesser (picked (Scalar.floor upper - Scalar.ceil lower) u)
        (Scalar.floor upper - Scalar.ceil lower + 1 - 1) := rfl
  rw [hdraw]
  generalize Scalar.lesser (picked (Scalar.floor upper - Scalar.ceil lower) u)
    (Scalar.floor upper - Scalar.ceil lower + 1 - 1) = chosen at *
  obtain ⟨hfinite, hge, hle', hsum⟩ := units_add_mem hceil hfloor hchosen hnonneg (by omega)
  have hdefined := isNaN_of_isFinite hfinite
  rw [le_iff_units_le (isNaN_of_isFinite hlower) hdefined,
    le_iff_units_le hdefined (isNaN_of_isFinite hupper)]
  refine ⟨⟨hleast.trans hge, hle'.trans hgreatest⟩, isWhole_of_dvd hfinite ?_⟩
  rw [hsum]
  exact unity_dvd_rounded (Int.dvd_add hwhole hchosen')

theorem wholeBetween_not_isWhole (hcount : ¬IsFinite (Scalar.floor upper - Scalar.ceil lower)) :
    ¬Scalar.IsWhole (Sampling.wholeBetween lower upper u) := by
  have hsum : ∀ {x : Binary64}, IsFinite (x + 1) → IsFinite x := fun h => (operands_of_add h).1
  intro hwhole
  have hchosen := (operands_of_add (isFinite_of_isWhole hwhole)).2
  rw [Scalar.lesser] at hchosen
  split_ifs at hchosen with hlt hself
  · exact hcount (hsum (operands_of_mul (isFinite_of_floor hchosen)).2)
  · exact hcount (hsum (operands_of_sub hchosen).1)
  · exact hcount (hsum (operands_of_mul (isFinite_of_floor hchosen)).2)

end Whole

end Archipelago.Proofs.Samples
