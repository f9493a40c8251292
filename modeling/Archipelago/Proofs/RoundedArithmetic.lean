import Archipelago.Scalar
import Mathlib.Data.Rat.Floor

/-!
Arithmetic that rounds its exact results in some way.  All that is known of the way is that it keeps
the order of numbers, and numbers that need no rounding.
-/

namespace Archipelago.Proofs.RoundedArithmetic

variable {α : Type} [Scalar α]

/-- What numbers stand for.  A result that has overflown is defined but not finite, and its value is
beyond that of all finite numbers.  Signs are changed and whole parts are taken without rounding. -/
structure Format (α : Type) [Scalar α] where
  Defined : α → Prop
  IsFinite : α → Prop
  value : α → ℚ
  defined : ∀ {x}, IsFinite x → Defined x
  le_iff : ∀ {x y}, x ≤ y ↔ Defined x ∧ Defined y ∧ value x ≤ value y
  lt_iff : ∀ {x y}, x < y ↔ Defined x ∧ Defined y ∧ value x < value y
  isFinite_of_mem : ∀ {x y z}, IsFinite x → IsFinite z → x ≤ y → y ≤ z → IsFinite y
  zero : IsFinite 0 ∧ value 0 = 0
  one : IsFinite 1 ∧ value 1 = 1
  neg : ∀ {x}, IsFinite x → IsFinite (-x) ∧ value (-x) = -value x
  floor : ∀ {x}, IsFinite x → IsFinite (Scalar.floor x) ∧ value (Scalar.floor x) = ⌊value x⌋
  exists_whole : ∀ n : ℤ, n.natAbs < 2 ^ 53 → ∃ x, IsFinite x ∧ value x = n

/-- Sums, differences and products of finite numbers are the exact ones, rounded. -/
structure Rounds (format : Format α) (round : ℚ → ℚ) : Prop where
  mono : Monotone round
  exact : ∀ {x}, format.IsFinite x → round (format.value x) = format.value x
  add : ∀ {x y}, format.IsFinite x → format.IsFinite y →
    format.Defined (x + y) ∧ format.value (x + y) = round (format.value x + format.value y)
  sub : ∀ {x y}, format.IsFinite x → format.IsFinite y →
    format.Defined (x - y) ∧ format.value (x - y) = round (format.value x - format.value y)
  mul : ∀ {x y}, format.IsFinite x → format.IsFinite y →
    format.Defined (x * y) ∧ format.value (x * y) = round (format.value x * format.value y)

/-- The number is finite, and its value is a whole number. -/
def Whole (format : Format α) (x : α) (n : ℤ) : Prop :=
  format.IsFinite x ∧ format.value x = n

section Formats

variable {format : Format α} {x y u : α} {m n : ℤ}

theorem le_self (hx : format.Defined x) : x ≤ x :=
  format.le_iff.mpr ⟨hx, hx, le_rfl⟩

theorem lt_of_not_le (hx : format.Defined x) (hy : format.Defined y) (h : ¬y ≤ x) : x < y := by
  refine format.lt_iff.mpr ⟨hx, hy, lt_of_not_ge fun hge => h ?_⟩
  exact format.le_iff.mpr ⟨hy, hx, hge⟩

theorem isFinite_of_value_eq (hx : format.IsFinite x) (hy : format.Defined y)
    (h : format.value y = format.value x) : format.IsFinite y :=
  format.isFinite_of_mem hx hx (format.le_iff.mpr ⟨format.defined hx, hy, h.ge⟩)
    (format.le_iff.mpr ⟨hy, format.defined hx, h.le⟩)

theorem isFinite_deviate (hu : 0 ≤ u ∧ u < 1) :
    format.IsFinite u ∧ 0 ≤ format.value u ∧ format.value u < 1 := by
  obtain ⟨hzero, hdefined, hleast⟩ := format.le_iff.mp hu.1
  obtain ⟨-, hone, hgreatest⟩ := format.lt_iff.mp hu.2
  have hle : u ≤ 1 := format.le_iff.mpr ⟨hdefined, hone, hgreatest.le⟩
  rw [format.zero.2] at hleast
  rw [format.one.2] at hgreatest
  exact ⟨format.isFinite_of_mem format.zero.1 format.one.1 hu.1 hle, hleast, hgreatest⟩

theorem whole_ceil (hx : format.IsFinite x) : Whole format (Scalar.ceil x) ⌈format.value x⌉ := by
  obtain ⟨hneg, hvalue⟩ := format.neg hx
  obtain ⟨hfloor, hvalue'⟩ := format.floor hneg
  obtain ⟨hceil, hvalue''⟩ := format.neg hfloor
  refine ⟨hceil, hvalue''.trans ?_⟩
  rw [hvalue', hvalue, Int.floor_neg, Int.cast_neg, neg_neg]

theorem whole_one : Whole format 1 1 :=
  ⟨format.one.1, format.one.2.trans Int.cast_one.symm⟩

theorem Whole.lesser (hx : Whole format x m) (hy : Whole format y n) :
    Whole format (Scalar.lesser x y) (min m n) := by
  have hlt := format.lt_iff (x := x) (y := y)
  rw [hx.2, hy.2, Int.cast_lt] at hlt
  rw [Scalar.lesser]
  split_ifs with hless hself
  · rwa [min_eq_left (hlt.mp hless).2.2.le]
  · have hge : n ≤ m :=
      not_lt.mp fun h => hless (hlt.mpr ⟨format.defined hx.1, format.defined hy.1, h⟩)
    rwa [min_eq_right hge]
  · exact absurd (le_self (format.defined hy.1)) hself

end Formats

section Rounding

variable {format : Format α} {round : ℚ → ℚ} (h : Rounds format round) {x y u : α} {m n : ℤ}

include h

theorem Rounds.zero : round 0 = 0 := by
  have hexact := h.exact format.zero.1
  rwa [format.zero.2] at hexact

theorem Rounds.nonneg {q : ℚ} (hq : 0 ≤ q) : 0 ≤ round q :=
  h.zero ▸ h.mono hq

theorem Rounds.whole (hn : n.natAbs < 2 ^ 53) (hx : format.Defined x)
    (hvalue : format.value x = round n) : Whole format x n := by
  obtain ⟨z, hz, hwhole⟩ := format.exists_whole n hn
  have hexact := h.exact hz
  rw [hwhole] at hexact
  exact ⟨isFinite_of_value_eq hz hx (by rw [hvalue, hexact, hwhole]), hvalue.trans hexact⟩

theorem Rounds.whole_add (hx : Whole format x m) (hy : Whole format y n)
    (hsmall : (m + n).natAbs < 2 ^ 53) : Whole format (x + y) (m + n) := by
  obtain ⟨hdefined, hvalue⟩ := h.add hx.1 hy.1
  rw [hx.2, hy.2, ← Int.cast_add] at hvalue
  exact h.whole hsmall hdefined hvalue

theorem Rounds.whole_sub (hx : Whole format x m) (hy : Whole format y n)
    (hsmall : (m - n).natAbs < 2 ^ 53) : Whole format (x - y) (m - n) := by
  obtain ⟨hdefined, hvalue⟩ := h.sub hx.1 hy.1
  rw [hx.2, hy.2, ← Int.cast_sub] at hvalue
  exact h.whole hsmall hdefined hvalue

/-- What is not below zero does not lead below a number, even if it leads out of range. -/
theorem Rounds.le_add (hx : format.IsFinite x) (hy : format.IsFinite y)
    (hnonneg : 0 ≤ format.value y) : x ≤ x + y := by
  obtain ⟨hdefined, hvalue⟩ := h.add hx hy
  refine format.le_iff.mpr ⟨format.defined hx, hdefined, ?_⟩
  calc
    format.value x = round (format.value x) := (h.exact hx).symm
    _ ≤ round (format.value x + format.value y) := h.mono (le_add_of_nonneg_right hnonneg)
    _ = format.value (x + y) := hvalue.symm

theorem Rounds.fraction (hu : 0 ≤ u ∧ u < 1) (hx : format.IsFinite x)
    (hnonneg : 0 ≤ format.value x) :
    format.IsFinite (u * x) ∧ 0 ≤ format.value (u * x) ∧
      format.value (u * x) ≤ format.value x := by
  obtain ⟨hfinite, hleast, hgreatest⟩ :
      format.IsFinite u ∧ 0 ≤ format.value u ∧ format.value u < 1 := isFinite_deviate hu
  obtain ⟨hdefined, hvalue⟩ := h.mul hfinite hx
  have hlow : 0 ≤ format.value (u * x) := hvalue ▸ h.nonneg (mul_nonneg hleast hnonneg)
  have hhigh : format.value (u * x) ≤ format.value x := by
    calc
      format.value (u * x) = round (format.value u * format.value x) := hvalue
      _ ≤ round (format.value x) := h.mono (mul_le_of_le_one_left hnonneg hgreatest.le)
      _ = format.value x := h.exact hx
  refine ⟨format.isFinite_of_mem format.zero.1 hx ?_ ?_, hlow, hhigh⟩
  · exact format.le_iff.mpr ⟨format.defined format.zero.1, hdefined, format.zero.2.symm ▸ hlow⟩
  · exact format.le_iff.mpr ⟨hdefined, format.defined hx, hhigh⟩

end Rounding

end Archipelago.Proofs.RoundedArithmetic
