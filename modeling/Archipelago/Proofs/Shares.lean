import Archipelago.Proofs.Samples

namespace Archipelago.Proofs.Shares

open Arithmetic
open Float.Model
open Infinities
open Magnitudes
open OrderedScalars
open Roundings
open Samples
open Spacing
open Steps
open Sums

theorem notBelowZero_quotient {x y : UnpackedFloat} (hx : NotBelowZero x) (hx' : x.isFinite = true)
    (hy : NotBelowZero y) (hy' : ∀ sign, y ≠ .zero sign) :
    NotBelowZero (UnpackedFloat.div .binary64 x y) := by
  cases y with
  | notANumber => exact hy.elim
  | zero sign => exact absurd rfl (hy' sign)
  | infinity sign =>
      cases x with
      | notANumber | infinity => contradiction
      | zero | finite => trivial
  | finite sign =>
      cases hy
      cases x with
      | notANumber | infinity => contradiction
      | zero => trivial
      | finite =>
          cases hx
          exact notBelowZero_roundWithAccuracy _ _ _ _

section Quotients

variable {x y : Binary64}

theorem div_nonneg (hx : 0 ≤ x) (hfinite : IsFinite x) (hy : 0 < y) : 0 ≤ x / y := by
  obtain ⟨hpositive, hzero⟩ := parts_of_pos hy
  rw [div_eq hx.2.1 hy.2.1]
  apply zero_le_ofFloat
  apply notBelowZero_pack
  exact notBelowZero_quotient (notBelowZero_unpack_iff.mpr hx) (parts_isFinite.mpr hfinite)
    hpositive hzero

theorem infinity_div_infinity : (Binary64.infinity / Binary64.infinity).isNaN = true := by
  decide +kernel

theorem infinity_add (hx : 0 ≤ x) : Binary64.infinity + x = Binary64.infinity := by
  have hpositive : NotBelowZero (parts x) := notBelowZero_unpack_iff.mpr hx
  rw [add_eq infinity_isNaN hx.2.1, parts_infinity]
  generalize parts x = p at hpositive
  cases p with
  | notANumber => exact hpositive.elim
  | infinity sign =>
      cases hpositive
      exact ofParts_infinity
  | zero | finite => exact ofParts_infinity

end Quotients

section Differences

variable {x y : Binary64}

theorem sub_pos (hx : IsFinite x) (hy : IsFinite y) (h : y < x) : 0 < x - y := by
  obtain ⟨hdefined, hunits⟩ := units_sub hx hy
  have hlt := (lt_iff_units_lt h.1 h.2.1).mp h
  have hrounded := rounded_pos_iff 0 (units x - units y)
  rw [pow_zero] at hrounded
  have hbound := bound_pos
  rw [lt_iff_units_lt units_zero.1 hdefined, units_zero.2, hunits, clip]
  omega

variable {low before after high : Binary64} (hlow : IsFinite low) (hhigh : IsFinite high)
  (hbefore : low ≤ before) (hle : before ≤ after) (hafter : after ≤ high)

include hlow hhigh hbefore hle hafter

theorem isFinite_between : IsFinite before ∧ IsFinite after :=
  ⟨isFinite_of_mem hlow hhigh ⟨hbefore, Binary64.le_trans hle hafter⟩,
    isFinite_of_mem hlow hhigh ⟨Binary64.le_trans hbefore hle, hafter⟩⟩

theorem units_gap_le : units (after - before) ≤ units (high - low) := by
  obtain ⟨hbefore', hafter'⟩ := isFinite_between hlow hhigh hbefore hle hafter
  have hbottom := (le_iff_units_le hbefore.1 hbefore.2.1).mp hbefore
  have htop := (le_iff_units_le hafter.1 hafter.2.1).mp hafter
  have hrounded : rounded 0 (units after - units before) ≤ rounded 0 (units high - units low) :=
    rounded_mono (by omega)
  rw [(units_sub hafter' hbefore').2, (units_sub hhigh hlow).2, clip, clip]
  omega

theorem gap_nonneg : 0 ≤ after - before :=
  width_nonneg hle (isFinite_between hlow hhigh hbefore hle hafter).1

theorem isFinite_gap (hspan : IsFinite (high - low)) : IsFinite (after - before) := by
  have hunits := units_gap_le hlow hhigh hbefore hle hafter
  have hnonneg := (zero_le_iff_units.mp (gap_nonneg hlow hhigh hbefore hle hafter)).2
  rw [isFinite_iff_units] at hspan ⊢
  omega

theorem share_nonneg (hgap : IsFinite (after - before)) (hspan : 0 < high - low) :
    0 ≤ (after - before) / (high - low) :=
  div_nonneg (gap_nonneg hlow hhigh hbefore hle hafter) hgap hspan

/-- Where a gap overflows, the span counts as positive, and the share is undefined. -/
theorem share_isNaN (hgap : ¬IsFinite (after - before)) :
    0 < high - low ∧ ((after - before) / (high - low)).isNaN = true := by
  have hnonneg := gap_nonneg hlow hhigh hbefore hle hafter
  have hspan : ¬IsFinite (high - low) := fun hspan =>
    hgap (isFinite_gap hlow hhigh hbefore hle hafter hspan)
  have hspan' : 0 ≤ high - low :=
    width_nonneg (Binary64.le_trans hbefore (Binary64.le_trans hle hafter)) hlow
  rw [eq_infinity hnonneg hgap, eq_infinity hspan' hspan]
  exact ⟨by decide +kernel, infinity_div_infinity⟩

end Differences

end Archipelago.Proofs.Shares
