import Archipelago.Proofs.Quotients
import Archipelago.Proofs.RoundedArithmetic
import Mathlib.Data.Rat.Floor

namespace Archipelago.Proofs.RoundToNearest

open Arithmetic
open Magnitudes
open OrderedScalars
open Quotients
open RoundedArithmetic
open Roundings
open WholeNumbers

/-- The whole number with 53 binary digits or less that is next to a rational one. -/
def nearestUnits (q : ℚ) : ℤ :=
  q.num.sign * nearestQuotient q.num.natAbs q.den

theorem nearestUnits_eq (q : ℚ) {c : ℕ} (hc : 0 < c) :
    nearestUnits q = (q.num * c).sign * nearestQuotient (q.num * c).natAbs (q.den * c) := by
  rw [Int.sign_mul, Int.sign_eq_one_of_pos (Int.natCast_pos.mpr hc), Int.mul_one, Int.natAbs_mul,
    Int.natAbs_natCast, nearestQuotient_mul_mul hc, nearestUnits]

theorem nearestUnits_div (n : ℤ) {p : ℕ} (hp : 0 < p) :
    nearestUnits (n / p) = n.sign * nearestQuotient n.natAbs p := by
  obtain ⟨c, hnum, hden⟩ := Rat.exists_eq_mul_div_num_and_eq_mul_div_den n
    (Int.natCast_ne_zero.mpr hp.ne')
  rw [Int.cast_natCast, mul_comm] at hnum hden
  generalize (n / p : ℚ) = q at *
  have hc : 0 < c := by
    rw [← mul_pos_iff_of_pos_left (Int.natCast_pos.mpr q.den_pos), ← hden]
    exact Int.natCast_pos.mpr hp
  lift c to ℕ using hc.le
  obtain rfl : p = q.den * c := by exact_mod_cast hden
  rw [nearestUnits_eq q (Int.natCast_pos.mp hc), ← hnum]

theorem nearestUnits_mono : Monotone nearestUnits := by
  intro q r h
  rw [nearestUnits_eq q r.den_pos, nearestUnits_eq r q.den_pos, Nat.mul_comm r.den]
  exact sign_mul_mono (fun _ _ => nearestQuotient_mono _) ((Rat.le_iff _ _).mp h)

theorem nearestUnits_div_unity (n : ℤ) : nearestUnits (n / unity) = rounded places n := by
  rw [nearestUnits_div n unity_pos, unity, nearestQuotient_two_pow, rounded]

theorem nearestUnits_intCast (n : ℤ) : nearestUnits n = rounded 0 n := by
  have hdiv := nearestUnits_div n Nat.one_pos
  rwa [Nat.cast_one, div_one, ← Nat.pow_zero 2, nearestQuotient_two_pow] at hdiv

/-- The number that a double stands for. -/
def value (x : Binary64) : ℚ :=
  units x / unity

def roundToNearest (q : ℚ) : ℚ :=
  clip (nearestUnits (q * unity)) / unity

theorem unity_ne_zero : (unity : ℚ) ≠ 0 :=
  Nat.cast_ne_zero.mpr unity_pos.ne'

theorem roundToNearest_mono : Monotone roundToNearest := by
  intro q r h
  have hunits : nearestUnits (q * unity) ≤ nearestUnits (r * unity) :=
    nearestUnits_mono (mul_le_mul_of_nonneg_right h (Nat.cast_nonneg _))
  have hclip : clip (nearestUnits (q * unity)) ≤ clip (nearestUnits (r * unity)) := by
    rw [clip, clip]
    omega
  exact div_le_div_of_nonneg_right (Int.cast_le.mpr hclip) (Nat.cast_nonneg _)

theorem roundToNearest_units (n : ℤ) : roundToNearest (n / unity) = clip (rounded 0 n) / unity := by
  rw [roundToNearest, div_mul_cancel₀ _ unity_ne_zero, nearestUnits_intCast]

section Values

variable {x y : Binary64}

theorem value_le_iff : value x ≤ value y ↔ units x ≤ units y := by
  rw [value, value, div_le_div_iff_of_pos_right (Nat.cast_pos.mpr unity_pos), Int.cast_le]

theorem value_lt_iff : value x < value y ↔ units x < units y := by
  rw [← not_le, value_le_iff, not_le]

theorem exists_whole {n : ℤ} (hn : n.natAbs < 2 ^ 53) :
    ∃ x : Binary64, IsFinite x ∧ value x = n := by
  obtain ⟨hfinite, hunits⟩ := units_ofNat hn
  rcases Int.natAbs_eq n with hpos | hneg
  · refine ⟨Binary64.ofNat n.natAbs, hfinite, ?_⟩
    rw [value, hunits, Int.cast_mul, Int.cast_natCast unity, mul_div_cancel_right₀ _ unity_ne_zero,
      ← hpos]
  · refine ⟨-Binary64.ofNat n.natAbs, isFinite_neg.mpr hfinite, ?_⟩
    rw [value, (units_neg _).1, hunits, ← Int.neg_mul, Int.cast_mul, Int.cast_natCast unity,
      mul_div_cancel_right₀ _ unity_ne_zero, ← hneg]

end Values

def doubles : Format Binary64 where
  Defined x := x.isNaN = false
  IsFinite := IsFinite
  value := value
  defined := isNaN_of_isFinite
  le_iff {x y} := by
    rw [value_le_iff]
    exact ⟨fun h => ⟨h.1, h.2.1, (le_iff_units_le h.1 h.2.1).mp h⟩,
      fun h => (le_iff_units_le h.1 h.2.1).mpr h.2.2⟩
  lt_iff {x y} := by
    rw [value_lt_iff]
    exact ⟨fun h => ⟨h.1, h.2.1, (lt_iff_units_lt h.1 h.2.1).mp h⟩,
      fun h => (lt_iff_units_lt h.1 h.2.1).mpr h.2.2⟩
  isFinite_of_mem hx hz hxy hyz := isFinite_of_mem hx hz ⟨hxy, hyz⟩
  zero := by
    rw [value, units_zero.2, Int.cast_zero, zero_div]
    exact ⟨isFinite_zero, rfl⟩
  one := by
    rw [value, units_one.2, Int.cast_natCast, div_self unity_ne_zero]
    exact ⟨units_one.1, rfl⟩
  neg {x} hx := by
    rw [value, value, (units_neg x).1, Int.cast_neg, neg_div]
    exact ⟨isFinite_neg.mpr hx, rfl⟩
  floor {x} hx := by
    obtain ⟨hfinite, hunits⟩ := units_floor hx
    refine ⟨hfinite, ?_⟩
    change value x.floor = _
    rw [value, hunits, Int.cast_mul, Int.cast_natCast unity, mul_div_cancel_right₀ _ unity_ne_zero,
      value, Rat.floor_intCast_div_natCast]
  exists_whole n hn := exists_whole hn

/-- Doubles are rounded to the nearest, and to an even one of two that are equally near. -/
theorem rounds_doubles : Rounds doubles roundToNearest where
  mono := roundToNearest_mono
  exact {x} hx := by
    change roundToNearest (value x) = value x
    rw [value, roundToNearest_units, (amounts_parts hx).rounded,
      clip_of_lt (isFinite_iff_units.mp hx)]
  add {x y} hx hy := by
    obtain ⟨hdefined, hunits⟩ := units_add hx hy
    refine ⟨hdefined, ?_⟩
    change value (x + y) = roundToNearest (value x + value y)
    rw [value, value, value, hunits, ← add_div, ← Int.cast_add, roundToNearest_units]
  sub {x y} hx hy := by
    obtain ⟨hdefined, hunits⟩ := units_sub hx hy
    refine ⟨hdefined, ?_⟩
    change value (x - y) = roundToNearest (value x - value y)
    rw [value, value, value, hunits, ← sub_div, ← Int.cast_sub, roundToNearest_units]
  mul {x y} hx hy := by
    obtain ⟨hdefined, hunits⟩ := units_mul hx hy
    refine ⟨hdefined, ?_⟩
    change value (x * y) = roundToNearest (value x * value y)
    rw [value, value, value, hunits, roundToNearest, mul_assoc, div_mul_cancel₀ _ unity_ne_zero,
      div_mul_eq_mul_div, ← Int.cast_mul, nearestUnits_div_unity]

end Archipelago.Proofs.RoundToNearest
