import Archipelago.Proofs.Magnitudes

namespace Archipelago.Proofs.Infinities

open Float.Model
open Magnitudes
open Roundings
open Steps
open Sums

section Operands

variable {x y : Binary64}

theorem operands_of_add (h : IsFinite (x + y)) : IsFinite x ∧ IsFinite y := by
  obtain ⟨hx, hy⟩ := defined_of_combine (isNaN_of_isFinite h)
  rw [add_eq hx hy] at h
  rw [← parts_isFinite, ← parts_isFinite]
  exact isFinite_of_add (isFinite_of_ofParts h)

theorem operands_of_sub (h : IsFinite (x - y)) : IsFinite x ∧ IsFinite y := by
  obtain ⟨hx, hy⟩ := defined_of_combine (isNaN_of_isFinite h)
  exact isFinite_of_sub hx hy h

theorem isFinite_of_mul {x y : UnpackedFloat}
    (h : (UnpackedFloat.mul .binary64 x y).isFinite = true) :
    x.isFinite = true ∧ y.isFinite = true := by
  cases x with
  | notANumber => contradiction
  | infinity sign =>
      cases y with
      | notANumber | infinity | zero | finite => contradiction
  | zero | finite =>
      cases y with
      | notANumber | infinity => contradiction
      | zero | finite => exact ⟨rfl, rfl⟩

theorem operands_of_mul (h : IsFinite (x * y)) : IsFinite x ∧ IsFinite y := by
  obtain ⟨hx, hy⟩ := defined_of_combine (isNaN_of_isFinite h)
  rw [mul_eq hx hy] at h
  rw [← parts_isFinite, ← parts_isFinite]
  exact isFinite_of_mul (isFinite_of_ofParts h)

theorem isFinite_of_isWhole (h : Scalar.IsWhole x) : IsFinite x :=
  (operands_of_sub (isFinite_of_mem isFinite_zero isFinite_zero ⟨h.2, h.1⟩)).1

theorem eq_infinity (h : 0 ≤ x) (hinfinite : ¬IsFinite x) : x = Binary64.infinity := by
  obtain ⟨hdefined, hsign⟩ := zero_le_iff.mp h
  rw [isNaN_eq_false_iff] at hdefined
  rw [isFinite_iff] at hinfinite
  have hnegative : ¬2 ^ 63 ≤ x.bits.toNat := by
    rw [← negative_iff]
    intro hnegative
    have hzero := hsign hnegative
    omega
  have hmagnitude : x.magnitude = x.bits.toNat % 2 ^ 63 := rfl
  have hbits : x.bits = Binary64.infinity.bits := by
    apply UInt64.toNat.inj
    have hinfinity : Binary64.infinity.bits.toNat = 2047 * 2 ^ 52 := rfl
    omega
  cases x
  exact congrArg _ hbits

end Operands

theorem parts_infinity : parts Binary64.infinity = .infinity .positive :=
  rfl

theorem ofParts_infinity : ofParts (.infinity .positive) = Binary64.infinity := by
  decide +kernel

theorem infinity_isNaN : Binary64.infinity.isNaN = false :=
  rfl

theorem zero_le_infinity : 0 ≤ Binary64.infinity := by
  decide +kernel

theorem le_infinity {x : Binary64} (h : x.isNaN = false) : x ≤ Binary64.infinity := by
  have hinfinity : Binary64.infinity.signed = 2047 * 2 ^ 52 := by decide +kernel
  refine ⟨h, infinity_isNaN, ?_⟩
  rw [isNaN_eq_false_iff] at h
  rw [hinfinity, Binary64.signed]
  split <;> omega

section Infinities

variable {x y : Binary64} {sign : UnpackedFloat.Sign}

theorem exists_parts_infinity (hdefined : x.isNaN = false) (hinfinite : ¬IsFinite x) :
    ∃ sign, parts x = .infinity sign := by
  rw [← parts_isNaN] at hdefined
  rw [← parts_isFinite] at hinfinite
  generalize parts x = p at *
  cases p with
  | notANumber => contradiction
  | infinity sign => exact ⟨sign, rfl⟩
  | zero | finite => exact absurd rfl hinfinite

theorem parts_ofParts_infinity : parts (ofParts (.infinity sign)) = .infinity sign := by
  rw [parts_ofParts rfl]
  cases sign with
  | negative | positive => rfl

theorem parts_eq_zero_iff : (∃ sign, parts x = .zero sign) ↔ x.magnitude = 0 := by
  constructor
  · rintro ⟨sign, hparts⟩
    have hfinite : (parts x).isFinite = true := by
      rw [hparts]
      rfl
    have hencodes := encodes_parts (parts_isFinite.mp hfinite)
    rwa [hparts] at hencodes
  · intro hmagnitude
    have hencodes := encodes_parts (x := x) (isFinite_iff.mpr (by omega))
    rw [hmagnitude] at hencodes
    generalize parts x = p at hencodes
    cases p with
    | notANumber | infinity => exact hencodes.elim
    | zero sign => exact ⟨sign, rfl⟩
    | finite sign m e hm =>
        obtain ⟨k, -, hk, -⟩ := hencodes
        omega

theorem pos_iff (hx : 0 ≤ x) : 0 < x ↔ x.magnitude ≠ 0 := by
  have hsigned : 0 ≤ x.signed := hx.2.2
  have hpos : 0 < x ↔ 0 < x.signed := ⟨fun h => h.2.2, fun h => ⟨hx.1, hx.2.1, h⟩⟩
  rw [hpos]
  simp only [Binary64.signed] at hsigned ⊢
  split_ifs at hsigned ⊢ <;> omega

theorem parts_of_pos (hx : 0 < x) :
    NotBelowZero (parts x) ∧ ∀ sign, parts x ≠ .zero sign := by
  have hle := Binary64.le_of_lt hx
  refine ⟨notBelowZero_unpack_iff.mpr hle, fun sign hzero => ?_⟩
  exact (pos_iff hle).mp hx (parts_eq_zero_iff.mp ⟨sign, hzero⟩)

theorem parts_sub_infinity (hy : parts y = .infinity sign) (h : (x - y).isNaN = false) :
    parts (x - y) = .infinity (-sign) := by
  obtain ⟨hx, hy'⟩ := defined_of_combine h
  rw [sub_eq hx hy', hy] at h ⊢
  have hdefined := isNaN_of_ofParts h
  generalize parts x = p at *
  cases p with
  | notANumber => contradiction
  | zero | finite => exact parts_ofParts_infinity
  | infinity other =>
      rw [UnpackedFloat.sub] at hdefined ⊢
      split_ifs at hdefined ⊢ with heq
      · rw [LawfulBEq.eq_of_beq heq]
        exact parts_ofParts_infinity
      · contradiction

theorem parts_mul_infinity (hx : 0 ≤ x) (hy : parts y = .infinity sign)
    (h : (x * y).isNaN = false) : parts (x * y) = .infinity sign ∧ 0 < x := by
  obtain ⟨hx', hy'⟩ := defined_of_combine h
  have hpositive : NotBelowZero (parts x) := notBelowZero_unpack_iff.mpr hx
  rw [mul_eq hx' hy', hy] at h ⊢
  have hdefined := isNaN_of_ofParts h
  constructor
  · generalize parts x = p at hpositive hdefined ⊢
    cases p with
    | notANumber | zero => contradiction
    | infinity other | finite other =>
        cases hpositive
        cases sign with
        | negative | positive => exact parts_ofParts_infinity
  · rw [pos_iff hx, Ne, ← parts_eq_zero_iff]
    rintro ⟨other, hzero⟩
    rw [hzero] at hdefined
    contradiction

theorem add_infinity_isNaN (hx : parts x = .infinity sign) (hy : parts y = .infinity (-sign)) :
    (x + y).isNaN = true := by
  by_contra hnot
  rw [Bool.not_eq_true] at hnot
  obtain ⟨hx', hy'⟩ := defined_of_combine hnot
  rw [add_eq hx' hy', hx, hy] at hnot
  have hdefined := isNaN_of_ofParts hnot
  cases sign with
  | negative | positive => contradiction

theorem sub_infinity_eq (hx : IsFinite x) :
    Binary64.infinity - x = Binary64.infinity := by
  have hfinite := parts_isFinite.mpr hx
  rw [sub_eq infinity_isNaN (isNaN_of_isFinite hx), parts_infinity]
  generalize parts x = p at hfinite
  cases p with
  | notANumber | infinity => contradiction
  | zero | finite => exact ofParts_infinity

theorem add_infinity_eq (hx : IsFinite x) :
    x + Binary64.infinity = Binary64.infinity := by
  have hfinite := parts_isFinite.mpr hx
  rw [add_eq (isNaN_of_isFinite hx) infinity_isNaN, parts_infinity]
  generalize parts x = p at hfinite
  cases p with
  | notANumber | infinity => contradiction
  | zero | finite => exact ofParts_infinity

theorem mul_infinity_eq (hx : 0 < x) :
    x * Binary64.infinity = Binary64.infinity := by
  obtain ⟨hpositive, hzero⟩ := parts_of_pos hx
  rw [mul_eq hx.2.1 infinity_isNaN, parts_infinity]
  generalize parts x = p at hpositive hzero
  cases p with
  | notANumber => exact hpositive.elim
  | zero sign => exact absurd rfl (hzero sign)
  | infinity sign | finite sign =>
      cases hpositive
      exact ofParts_infinity

theorem infinity_div_eq (hx : 0 < x) (hfinite : IsFinite x) :
    Binary64.infinity / x = Binary64.infinity := by
  obtain ⟨hpositive, hzero⟩ := parts_of_pos hx
  have hfinite' := parts_isFinite.mpr hfinite
  rw [div_eq infinity_isNaN hx.2.1, parts_infinity]
  generalize parts x = p at hpositive hzero hfinite'
  cases p with
  | notANumber | infinity => contradiction
  | zero sign => exact absurd rfl (hzero sign)
  | finite sign =>
      cases hpositive
      exact ofParts_infinity

end Infinities

end Archipelago.Proofs.Infinities
