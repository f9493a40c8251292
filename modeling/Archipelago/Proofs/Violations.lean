import Archipelago.Dominance
import Archipelago.Proofs.Shares

namespace Archipelago.Proofs.Violations

open Arithmetic
open Infinities
open Magnitudes
open OrderedScalars
open Roundings
open Shares
open Sums

section Sums

variable {x y : Binary64}

/-- Rounding does not lose a positive sum, and overflowing keeps it positive. -/
theorem add_pos_iff (hx : 0 ≤ x) (hy : 0 ≤ y) : 0 < x + y ↔ 0 < x ∨ 0 < y := by
  have hinfinity : 0 < Binary64.infinity := by decide +kernel
  by_cases hfinite : IsFinite x
  · by_cases hfinite' : IsFinite y
    · obtain ⟨hdefined, hunits⟩ := units_add hfinite hfinite'
      have hleft := (zero_le_iff_units.mp hx).2
      have hright := (zero_le_iff_units.mp hy).2
      have hrounded := rounded_pos_iff 0 (units x + units y)
      have hbound := bound_pos
      rw [lt_iff_units_lt units_zero.1 hdefined, lt_iff_units_lt units_zero.1 hx.2.1,
        lt_iff_units_lt units_zero.1 hy.2.1, units_zero.2, hunits, clip]
      rw [pow_zero] at hrounded
      omega
    · obtain rfl := eq_infinity hy hfinite'
      rw [add_infinity_eq hfinite]
      exact iff_of_true hinfinity (.inr hinfinity)
  · obtain rfl := eq_infinity hx hfinite
    rw [infinity_add hy]
    exact iff_of_true hinfinity (.inl hinfinity)

theorem total_pos_iff {xs : List Binary64} (h : ∀ x ∈ xs, 0 ≤ x) :
    0 < Scalar.total xs ↔ ∃ x ∈ xs, 0 < x := by
  have hfold : ∀ start : Binary64, 0 ≤ start →
      (0 < xs.foldl (· + ·) start ↔ 0 < start ∨ ∃ x ∈ xs, 0 < x) := by
    induction xs with
    | nil => simp
    | cons x xs ih =>
        intro start hstart
        obtain ⟨hx, hxs⟩ := List.forall_mem_cons.mp h
        rw [List.foldl_cons, ih hxs _ (add_nonneg hstart hx), add_pos_iff hstart hx,
          List.exists_mem_cons_iff, or_assoc]
  have hstart : ¬(0 : Binary64) < -0 := by decide
  rw [Scalar.total, hfold (-0) (by decide), or_iff_right hstart]

end Sums

theorem le_zero_iff {x : Binary64} : x ≤ 0 ↔ x.isNaN = false ∧ ¬0 < x := by
  constructor
  · intro h
    exact ⟨h.1, Binary64.not_lt_of_le h⟩
  · rintro ⟨hdefined, hnot⟩
    exact le_of_not_lt hdefined rfl hnot

theorem excess_pos_iff {c : Binary64} : 0 < excess c ↔ 0 < c := by
  rw [excess]
  split
  case isTrue h => exact iff_of_true h h
  case isFalse h => exact iff_of_false (by decide) h

/-- Some violation of the constraints is measured. -/
def Measured (constraints : List Binary64) : Prop :=
  0 < totalViolation constraints

instance (constraints : List Binary64) : Decidable (Measured constraints) :=
  inferInstanceAs (Decidable (_ < _))

theorem measured_iff {constraints : List Binary64} :
    Measured constraints ↔ ∃ c ∈ constraints, 0 < c := by
  have hnonneg : ∀ x ∈ constraints.map excess, 0 ≤ x := by
    intro x hx
    obtain ⟨c, -, rfl⟩ := List.mem_map.mp hx
    exact excess_nonneg c
  rw [Measured, totalViolation, total_pos_iff hnonneg]
  simp only [List.mem_map, exists_exists_and_eq_and, excess_pos_iff]

theorem feasible_iff {constraints : List Binary64} :
    feasible constraints = true ↔
      ¬Measured constraints ∧ ∀ c ∈ constraints, c.isNaN = false := by
  simp only [feasible, List.all_eq_true, decide_eq_true_eq, le_zero_iff, measured_iff]
  grind

theorem constraintsPrecede_of_infeasible {a b : List Binary64} (ha : feasible a = false)
    (hb : feasible b = false) :
    constraintsPrecede a b = true ↔ totalViolation a < totalViolation b := by
  rw [constraintsPrecede, ha, hb, decide_eq_true_eq]

/-- A vector is feasible if no violation is measured and all of its values are defined.  An
infeasible one in which no violation is measured has an undefined value, and it comes before all
those with a measured violation. -/
theorem feasible_iff_defined_and_not_measured (a : List Binary64) :
    (feasible a = true ↔ ¬Measured a ∧ ∀ c ∈ a, c.isNaN = false) ∧
      (Measured a ↔ ∃ c ∈ a, 0 < c) ∧
      (feasible a = false → ¬Measured a →
        (∃ c ∈ a, c.isNaN = true) ∧
          ∀ b, feasible b = false → Measured b →
            constraintsPrecede a b = true ∧ constraintsPrecede b a = false) := by
  refine ⟨feasible_iff, measured_iff, ?_⟩
  intro ha hnone
  have hundefined : ∃ c ∈ a, c.isNaN = true := by
    by_contra hdefined
    push Not at hdefined
    have hfeasible := feasible_iff.mpr ⟨hnone, fun c hc => Bool.eq_false_iff.mpr (hdefined c hc)⟩
    rw [ha] at hfeasible
    contradiction
  refine ⟨hundefined, ?_⟩
  intro b hb hsome
  have hle : totalViolation a ≤ 0 := le_zero_iff.mpr ⟨totalViolation_isNaN a, hnone⟩
  have hlt : totalViolation a < totalViolation b := Binary64.lt_of_le_of_lt hle hsome
  refine ⟨(constraintsPrecede_of_infeasible ha hb).mpr hlt, ?_⟩
  rw [← Bool.not_eq_true, constraintsPrecede_of_infeasible hb ha]
  exact Binary64.not_lt_of_le (Binary64.le_of_lt hlt)

theorem undefined_feasible_iff :
    feasible [Binary64.invalid] = false ∧ ¬Measured [Binary64.invalid] ∧
      constraintsPrecede [Binary64.invalid] [1] = true := by
  have hinfeasible : feasible [Binary64.invalid] = false := by decide +kernel
  have hnone : ¬Measured [Binary64.invalid] := by decide +kernel
  obtain ⟨-, hprecede⟩ :=
    (feasible_iff_defined_and_not_measured [Binary64.invalid]).2.2 hinfeasible hnone
  have hviolated : feasible [(1 : Binary64)] = false := by decide +kernel
  have hsome : Measured [1] := by decide +kernel
  exact ⟨hinfeasible, hnone, (hprecede [1] hviolated hsome).1⟩

end Archipelago.Proofs.Violations
