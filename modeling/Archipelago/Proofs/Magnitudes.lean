import Archipelago.Proofs.Spacing
import Archipelago.Proofs.Steps
import Mathlib.Tactic.Ring

namespace Archipelago.Proofs.Magnitudes

open OrderedScalars
open Roundings
open Spacing

/-- Binary places of the unit that all finite doubles are multiples of. -/
@[irreducible]
def places : Nat :=
  1074

theorem places_eq : places = 1074 := by
  rw [places]

/-- The units of a double with some magnitude and the positive sign. -/
def scale (magnitude : Nat) : Nat :=
  (magnitude - 2 ^ 52 * (magnitude / 2 ^ 52 - 1)) * 2 ^ (magnitude / 2 ^ 52 - 1)

theorem scale_eq {m k : Nat} (hm : m ≤ 2 ^ 53) (hk : k = 0 ∨ 2 ^ 52 ≤ m) :
    scale (m + 2 ^ 52 * k) = m * 2 ^ k := by
  rcases hm.lt_or_eq with hlt | rfl
  · have hexponent : (m + 2 ^ 52 * k) / 2 ^ 52 - 1 = k := by omega
    rw [scale, hexponent, Nat.add_sub_cancel]
  · have hexponent : (2 ^ 53 + 2 ^ 52 * k) / 2 ^ 52 - 1 = k + 1 := by omega
    have hmantissa : 2 ^ 53 + 2 ^ 52 * k - 2 ^ 52 * (k + 1) = 2 ^ 52 := by omega
    rw [scale, hexponent, hmantissa, Nat.pow_succ']
    ring

theorem exists_mantissa (magnitude : Nat) :
    ∃ m k, magnitude = m + 2 ^ 52 * k ∧ m < 2 ^ 53 ∧ (k = 0 ∨ 2 ^ 52 ≤ m) :=
  ⟨magnitude - 2 ^ 52 * (magnitude / 2 ^ 52 - 1), magnitude / 2 ^ 52 - 1, by omega, by omega,
    by omega⟩

theorem scale_strictMono : StrictMono scale := by
  refine strictMono_nat_of_lt_succ fun magnitude => ?_
  obtain ⟨m, k, rfl, hm, hk⟩ := exists_mantissa magnitude
  rw [Nat.add_right_comm, scale_eq hm.le hk, scale_eq hm (by omega)]
  exact Nat.mul_lt_mul_of_pos_right (Nat.lt_succ_self m) (Nat.two_pow_pos k)

theorem scale_zero : scale 0 = 0 := by
  simp [scale]

theorem scale_eq_zero_iff {magnitude : Nat} : scale magnitude = 0 ↔ magnitude = 0 := by
  rw [← scale_zero, scale_strictMono.injective.eq_iff, scale_zero]

/-- The units of infinity. -/
def bound : Nat :=
  scale Binary64.infinity.magnitude

theorem bound_pos : 0 < bound := by
  rw [← scale_zero]
  exact scale_strictMono (by decide)

theorem nearest_add_lt_bound {n w : Nat} (hn : ∃ magnitude, scale magnitude = n) (hlt : n < bound)
    (hw : w ≤ 2 ^ places) : nearest 0 (n + w) < bound := by
  obtain ⟨magnitude, rfl⟩ := hn
  -- The exponent of the largest double.
  obtain ⟨k, hk⟩ : ∃ k, k = 2045 := ⟨2045, rfl⟩
  have hinfinity : Binary64.infinity.magnitude = 2047 * 2 ^ 52 := rfl
  have hplaces := places_eq
  have hlt' : magnitude < 2047 * 2 ^ 52 := scale_strictMono.lt_iff_lt.mp hlt
  have hlargest : scale (2 ^ 53 - 1 + 2 ^ 52 * k) = (2 ^ 53 - 1) * 2 ^ k :=
    scale_eq (by omega) (by omega)
  have hle : scale magnitude ≤ (2 ^ 53 - 1) * 2 ^ k := by
    rw [← hlargest]
    exact scale_strictMono.monotone (by omega)
  have hsmall : 2 * w < 2 ^ k := by
    calc
      2 * w ≤ 2 ^ (places + 1) := (Nat.mul_le_mul_left 2 hw).trans_eq (Nat.pow_succ' ..).symm
      _ < 2 ^ k := Nat.pow_lt_pow_right Nat.one_lt_two (by omega)
  calc
    nearest 0 (scale magnitude + w) ≤ nearest 0 ((2 ^ 53 - 1) * 2 ^ k + w) :=
      nearest_mono (Nat.add_le_add_right hle w)
    _ = scale (2 ^ 53 - 1 + 2 ^ 52 * k) := by
      rw [hlargest]
      exact nearest_add (by omega) (by omega) (.inl hsmall)
    _ < bound := scale_strictMono (by rw [hinfinity]; omega)

/-- A double as a whole number of units, where infinities count as the numbers that come next. -/
def units (x : Binary64) : Int :=
  if x.negative then -(scale x.magnitude : Int) else scale x.magnitude

theorem natAbs_units (x : Binary64) : (units x).natAbs = scale x.magnitude := by
  rw [units]
  split
  · exact Int.natAbs_neg _
  · rfl

theorem isFinite_zero : IsFinite 0 := by
  decide +kernel

theorem units_zero : (0 : Binary64).isNaN = false ∧ units 0 = 0 := by
  have hmagnitude : (0 : Binary64).magnitude = 0 := rfl
  refine ⟨rfl, ?_⟩
  rw [units, hmagnitude, scale_zero]
  rfl

theorem units_lt_iff {x y : Binary64} : units x < units y ↔ x.signed < y.signed := by
  have hlt := scale_strictMono.lt_iff_lt (a := x.magnitude) (b := y.magnitude)
  have hgt := scale_strictMono.lt_iff_lt (a := y.magnitude) (b := x.magnitude)
  have hx : scale x.magnitude = 0 ↔ x.magnitude = 0 := scale_eq_zero_iff
  have hy : scale y.magnitude = 0 ↔ y.magnitude = 0 := scale_eq_zero_iff
  rw [units, units, Binary64.signed, Binary64.signed]
  split_ifs <;> omega

section Order

variable {x y : Binary64} (hx : x.isNaN = false) (hy : y.isNaN = false)

include hx hy

theorem lt_iff_units_lt : x < y ↔ units x < units y := by
  rw [lt_iff, units_lt_iff]
  simp [hx, hy]

theorem le_iff_units_le : x ≤ y ↔ units x ≤ units y := by
  rw [le_iff, ← not_lt, ← not_lt, units_lt_iff]
  simp [hx, hy]

end Order

theorem zero_le_iff_units {x : Binary64} : 0 ≤ x ↔ x.isNaN = false ∧ 0 ≤ units x := by
  constructor
  · intro h
    refine ⟨h.2.1, ?_⟩
    rw [← units_zero.2]
    exact (le_iff_units_le units_zero.1 h.2.1).mp h
  · rintro ⟨hdefined, hunits⟩
    refine (le_iff_units_le units_zero.1 hdefined).mpr ?_
    rw [units_zero.2]
    exact hunits

theorem isFinite_iff_units {x : Binary64} : IsFinite x ↔ (units x).natAbs < bound := by
  rw [natAbs_units, bound, scale_strictMono.lt_iff_lt]
  rfl

theorem isNaN_of_isFinite {x : Binary64} (h : IsFinite x) : x.isNaN = false :=
  h.within_largest.isNaN

end Archipelago.Proofs.Magnitudes
