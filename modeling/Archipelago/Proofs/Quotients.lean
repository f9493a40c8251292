import Archipelago.Proofs.WholeNumbers
import Mathlib.Tactic.Ring

namespace Archipelago.Proofs.Quotients

open Arithmetic
open Float.Model
open Float.Model.UnpackedFloat
open Magnitudes
open Roundings
open Spacing
open WholeNumbers

/-- The quotient `n / p` to the nearest number that has 53 binary digits or less. -/
def nearestQuotient (n p : Nat) : Nat :=
  halfEven n (p * 2 ^ lost 0 (n / p)) * 2 ^ lost 0 (n / p)

section Nearest

variable {n m p : Nat}

theorem nearestQuotient_zero (p : Nat) : nearestQuotient 0 p = 0 := by
  simp [nearestQuotient, halfEven]

theorem halfEven_quotient_le (n p : Nat) : halfEven n (p * 2 ^ lost 0 (n / p)) ≤ 2 ^ 53 := by
  refine (halfEven_le_succ n _).trans ?_
  rw [← Nat.div_div_eq_div_mul]
  exact (Nat.div_lt_iff_lt_mul (Nat.two_pow_pos _)).mpr (lt_of_lost 0 (n / p))

theorem le_halfEven_quotient (h : 0 < lost 0 (n / p)) :
    2 ^ 52 ≤ halfEven n (p * 2 ^ lost 0 (n / p)) := by
  refine le_trans ?_ (div_le_halfEven n _)
  rw [← Nat.div_div_eq_div_mul]
  exact (Nat.le_div_iff_mul_le (Nat.two_pow_pos _)).mpr (le_of_lost h)

theorem nearestQuotient_mono (p : Nat) (h : n ≤ m) : nearestQuotient n p ≤ nearestQuotient m p := by
  have hdiv : n / p ≤ m / p := Nat.div_le_div_right h
  have hlost : lost 0 (n / p) ≤ lost 0 (m / p) := by
    rcases Nat.eq_zero_or_pos (n / p) with hzero | hpos
    · simp [lost, hzero]
    · have hlog : (n / p).log2 ≤ (m / p).log2 :=
        (Nat.le_log2 (by omega)).mpr ((Nat.log2_self_le hpos.ne').trans hdiv)
      rw [lost, lost]
      omega
  rcases hlost.lt_or_eq with hlt | heq
  · calc
      nearestQuotient n p ≤ 2 ^ 53 * 2 ^ lost 0 (n / p) :=
        Nat.mul_le_mul_right _ (halfEven_quotient_le n p)
      _ = 2 ^ 52 * 2 ^ (lost 0 (n / p) + 1) := by rw [Nat.pow_succ']; ring
      _ ≤ 2 ^ 52 * 2 ^ lost 0 (m / p) :=
        Nat.mul_le_mul_left _ (Nat.pow_le_pow_right Nat.two_pos hlt)
      _ ≤ nearestQuotient m p := Nat.mul_le_mul_right _ (le_halfEven_quotient (by omega))
  · rw [nearestQuotient, nearestQuotient, heq]
    exact Nat.mul_le_mul_right _ (halfEven_mono h)

theorem nearestQuotient_mul (hp : 0 < p) (h : Nat) : nearestQuotient (p * h) p = nearest 0 h := by
  rw [nearestQuotient, Nat.mul_div_cancel_left h hp, nearest_zero, Nat.mul_comm p h,
    Nat.mul_comm p, halfEven_mul_mul hp]

theorem nearestQuotient_mul_mul {c : Nat} (hc : 0 < c) :
    nearestQuotient (n * c) (p * c) = nearestQuotient n p := by
  rw [nearestQuotient, Nat.mul_div_mul_right _ _ hc, Nat.mul_right_comm, halfEven_mul_mul hc]
  rfl

theorem nearestQuotient_two_pow (n d : Nat) : nearestQuotient n (2 ^ d) = nearest d n := by
  have hpos := Nat.two_pow_pos d
  have hlost : lost d n = lost 0 (n / 2 ^ d) + d := by
    refine lost_eq ?_ ?_
    · rw [Nat.pow_add, ← Nat.mul_assoc, ← Nat.div_lt_iff_lt_mul hpos]
      exact lt_of_lost 0 _
    · rcases Nat.eq_zero_or_pos (lost 0 (n / 2 ^ d)) with hzero | hlt
      · omega
      · rw [Nat.pow_add, ← Nat.mul_assoc, ← Nat.le_div_iff_mul_le hpos]
        exact .inr ⟨by omega, le_of_lost hlt⟩
  rw [nearestQuotient, nearest, hlost, Nat.add_sub_cancel, Nat.pow_add, Nat.mul_comm (2 ^ d)]

end Nearest

theorem le_quotient {m n k l s sh : Nat} {e : Int} (hm : 0 < m)
    (he : e = min ((k : Int) - l) (max (m.log2 + 1 + k - (n.log2 + 1 + l) - 53) (-1074)))
    (hsh : sh = ((k : Int) - l - e).toNat)
    (hs : s = (max (↑(m * 2 ^ sh / n).log2 + 1 + e - 53) (-1074) - e).toNat)
    (hexponent : -1074 < e + s) : 2 ^ 52 * (n * 2 ^ s) ≤ m * 2 ^ sh := by
  rcases Nat.eq_zero_or_pos s with rfl | hpos
  · -- the numerator has been shifted far enough to the left
    rw [Nat.pow_zero, Nat.mul_one]
    calc
      2 ^ 52 * n ≤ 2 ^ 52 * 2 ^ (n.log2 + 1) := Nat.mul_le_mul_left _ Nat.lt_log2_self.le
      _ = 2 ^ (52 + (n.log2 + 1)) := (Nat.pow_add ..).symm
      _ ≤ 2 ^ (m.log2 + sh) := Nat.pow_le_pow_right Nat.two_pos (by omega)
      _ = 2 ^ m.log2 * 2 ^ sh := Nat.pow_add ..
      _ ≤ m * 2 ^ sh := Nat.mul_le_mul_right _ (Nat.log2_self_le hm.ne')
  · have hlog : 52 + s ≤ (m * 2 ^ sh / n).log2 := by omega
    have hne : m * 2 ^ sh / n ≠ 0 := by
      intro hzero
      rw [hzero, Nat.log2_zero] at hlog
      omega
    have hle := (Nat.le_log2 hne).mp hlog
    calc
      2 ^ 52 * (n * 2 ^ s) = 2 ^ (52 + s) * n := by rw [Nat.pow_add]; ring
      _ ≤ m * 2 ^ sh / n * n := Nat.mul_le_mul_right n hle
      _ ≤ m * 2 ^ sh := Nat.div_mul_le_self _ _

/-- The digits that a quotient loses, and what becomes of the others. -/
theorem nearestQuotient_eq {n p m q s k c : Nat} (hp : 0 < p) (hc : 0 < c)
    (hnumerator : n = m * c) (hdenominator : p * 2 ^ k = q * 2 ^ s * c)
    (hlt : m < 2 ^ 53 * (q * 2 ^ s)) (hle : k = 0 ∨ 2 ^ 52 * (q * 2 ^ s) ≤ m) :
    nearestQuotient n p = halfEven m (q * 2 ^ s) * 2 ^ k := by
  have hlost : lost 0 (n / p) = k := by
    refine lost_eq ?_ (hle.imp_right fun hle => ⟨Nat.zero_le k, ?_⟩)
    · rw [Nat.div_lt_iff_lt_mul hp, Nat.mul_assoc, Nat.mul_comm _ p, hdenominator, hnumerator,
        ← Nat.mul_assoc]
      exact Nat.mul_lt_mul_of_pos_right hlt hc
    · rw [Nat.le_div_iff_mul_le hp, Nat.mul_assoc, Nat.mul_comm _ p, hdenominator, hnumerator,
        ← Nat.mul_assoc]
      exact Nat.mul_le_mul_right c hle
  rw [nearestQuotient, hlost, hdenominator, hnumerator, halfEven_mul_mul hc]

theorem amounts_divCore {m n : Nat} (hm : 0 < m) (hn : 0 < n) (k l : Nat) :
    let (quotient, exponent, accuracy) := divCore .binary64 m (k - 1074) n (l - 1074)
    Amounts (nearestQuotient (m * 2 ^ k * unity) (n * 2 ^ l) : Nat)
      (roundWithAccuracy .binary64 .positive quotient exponent accuracy) := by
  -- the exponent of the quotient before it is rounded, and the shifts before and after
  obtain ⟨e, he⟩ : ∃ e : Int, e = min ((k : Int) - l)
    (max (m.log2 + 1 + k - (n.log2 + 1 + l) - 53) (-1074)) := ⟨_, rfl⟩
  obtain ⟨sh, hsh⟩ : ∃ sh, sh = ((k : Int) - l - e).toNat := ⟨_, rfl⟩
  obtain ⟨s, hs⟩ : ∃ s, s = (max (↑(m * 2 ^ sh / n).log2 + 1 + e - 53) (-1074) - e).toNat :=
    ⟨_, rfl⟩
  obtain ⟨r, hr⟩ : ∃ r : Nat, e + s = r - 1074 := ⟨(e + s + 1074).toNat, by omega⟩
  obtain ⟨c, hc⟩ : ∃ c : Nat, (c : Int) = l + 1074 + e := ⟨(l + 1074 + e).toNat, by omega⟩
  have hplaces := places_eq
  have hle : r = 0 ∨ 2 ^ 52 * (n * 2 ^ s) ≤ m * 2 ^ sh :=
    (Nat.eq_zero_or_pos r).imp_right fun hpos => le_quotient hm he hsh hs (by omega)
  have hlt : m * 2 ^ sh < 2 ^ 53 * (n * 2 ^ s) := by
    have hdiv : m * 2 ^ sh / n < 2 ^ 53 * 2 ^ s := by
      rw [← Nat.pow_add]
      exact Nat.lt_log2_self.trans_le (Nat.pow_le_pow_right Nat.two_pos (by omega))
    rw [Nat.div_lt_iff_lt_mul hn] at hdiv
    rwa [Nat.mul_comm n, ← Nat.mul_assoc]
  have hnumerator : m * 2 ^ k * unity = m * 2 ^ sh * 2 ^ c := by
    rw [unity, Nat.mul_assoc, Nat.mul_assoc, ← Nat.pow_add, ← Nat.pow_add]
    congr 2
    omega
  have hdenominator : n * 2 ^ l * 2 ^ r = n * 2 ^ s * 2 ^ c := by
    rw [Nat.mul_assoc, Nat.mul_assoc, ← Nat.pow_add, ← Nat.pow_add]
    congr 2
    omega
  have hexponents : (k : Int) - 1074 - (l - 1074) = k - l := by omega
  have htarget : Format.binary64.targetExponent
      (totalExponent m (k - 1074) - totalExponent n (l - 1074)) =
        max ((m.log2 : Int) + 1 + k - (n.log2 + 1 + l) - 53) (-1074) := by
    change max ((m.log2 : Int) + 1 + (k - 1074) - (n.log2 + 1 + (l - 1074)) - 53) (-1074) = _
    omega
  rw [nearestQuotient_eq (Nat.mul_pos hn (Nat.two_pow_pos l)) (Nat.two_pow_pos c) hnumerator
    hdenominator hlt hle, divCore]
  dsimp only
  rw [htarget, hexponents, ← he, ← hsh, Nat.shiftLeft_eq]
  exact amounts_quotient .positive hn hs hr hle

theorem apply_nonneg {sign : Sign} {n value : Nat} (hn : 0 < n)
    (h : (value : Int) = sign.apply n) : sign = .positive ∧ value = n := by
  cases sign with
  | negative =>
      rw [Sign.apply] at h
      omega
  | positive => exact ⟨rfl, Int.ofNat_inj.mp h⟩

theorem amounts_div {n p : Nat} {x y : UnpackedFloat} (hx : Amounts n x) (hy : Amounts p y)
    (hp : 0 < p) :
    Amounts (nearestQuotient (n * unity) p : Nat) (UnpackedFloat.div .binary64 x y) := by
  cases y with
  | notANumber | infinity => exact hy.elim
  | zero =>
      obtain rfl : p = 0 := Int.ofNat_inj.mp hy
      contradiction
  | finite other q f hq =>
      obtain ⟨l, rfl, -, -, hvalue⟩ := hy
      obtain ⟨rfl, rfl⟩ := apply_nonneg (Nat.mul_pos hq (Nat.two_pow_pos l)) hvalue
      cases x with
      | notANumber | infinity => exact hx.elim
      | zero =>
          obtain rfl : n = 0 := Int.ofNat_inj.mp hx
          rw [Nat.zero_mul, nearestQuotient_zero]
          exact rfl
      | finite sign m e hm =>
          obtain ⟨k, rfl, -, -, hvalue'⟩ := hx
          obtain ⟨rfl, rfl⟩ := apply_nonneg (Nat.mul_pos hm (Nat.two_pow_pos k)) hvalue'
          exact amounts_divCore hm hq k l

section Doubles

variable {x y : Binary64}

theorem units_div (hx : 0 ≤ x) (hfinite : IsFinite x) (hy : 0 < y) (hfinite' : IsFinite y) :
    (x / y).isNaN = false ∧
      units (x / y) = clip (nearestQuotient ((units x).toNat * unity) (units y).toNat : Nat) := by
  have hx' := (zero_le_iff_units.mp hx).2
  have hy' := (lt_iff_units_lt units_zero.1 hy.2.1).mp hy
  rw [units_zero.2] at hy'
  have hamounts : Amounts (units x).toNat (parts x) := by
    rw [Int.toNat_of_nonneg hx']
    exact amounts_parts hfinite
  have hamounts' : Amounts (units y).toNat (parts y) := by
    rw [Int.toNat_of_nonneg hy'.le]
    exact amounts_parts hfinite'
  rw [div_eq hx.2.1 hy.2.1]
  exact units_ofParts (amounts_div hamounts hamounts' (by omega))

theorem div_le_one (hx : 0 ≤ x) (hle : x ≤ y) (hy : 0 < y) (hfinite : IsFinite y) : x / y ≤ 1 := by
  obtain ⟨hdefined, hunits⟩ :=
    units_div hx (isFinite_of_mem isFinite_zero hfinite ⟨hx, hle⟩) hy hfinite
  have hx' := (zero_le_iff_units.mp hx).2
  have hle' := (le_iff_units_le hle.1 hle.2.1).mp hle
  have hy' := (lt_iff_units_lt units_zero.1 hy.2.1).mp hy
  rw [units_zero.2] at hy'
  have hunity : nearest 0 unity = unity := by
    have h := nearest_mul (h := 1) (s := places) (by decide)
    rwa [Nat.one_mul] at h
  have hquotient : nearestQuotient ((units x).toNat * unity) (units y).toNat ≤ unity := by
    calc
      nearestQuotient ((units x).toNat * unity) (units y).toNat ≤
          nearestQuotient ((units y).toNat * unity) (units y).toNat :=
        nearestQuotient_mono _ (Nat.mul_le_mul_right _ (by omega))
      _ = unity := by rw [nearestQuotient_mul (by omega), hunity]
  rw [le_iff_units_le hdefined (isNaN_of_isFinite units_one.1), hunits, units_one.2, clip]
  generalize nearestQuotient ((units x).toNat * unity) (units y).toNat = q at hquotient
  generalize unity = n at hquotient
  omega

theorem div_pos (hx : 0 < x) (hfinite : IsFinite x) (hy : 0 < y) (hfinite' : IsFinite y)
    (hle : units y ≤ units x * unity) : 0 < x / y := by
  have hx' := (lt_iff_units_lt units_zero.1 hx.2.1).mp hx
  have hy' := (lt_iff_units_lt units_zero.1 hy.2.1).mp hy
  rw [units_zero.2] at hx' hy'
  obtain ⟨hdefined, hunits⟩ := units_div (Binary64.le_of_lt hx) hfinite hy hfinite'
  have hone : nearest 0 1 = 1 := nearest_mul (h := 1) (s := 0) (by decide)
  have hnumerator : (units y).toNat * 1 ≤ (units x).toNat * unity := by
    have hcast : ((units x).toNat * unity : Nat) = units x * unity := by
      rw [Nat.cast_mul, Int.toNat_of_nonneg hx'.le]
    generalize (units x).toNat * unity = n at hcast
    omega
  have hquotient : 1 ≤ nearestQuotient ((units x).toNat * unity) (units y).toNat := by
    calc
      1 = nearestQuotient ((units y).toNat * 1) (units y).toNat := by
        rw [nearestQuotient_mul (by omega), hone]
      _ ≤ nearestQuotient ((units x).toNat * unity) (units y).toNat :=
        nearestQuotient_mono _ hnumerator
  have hbound := bound_pos
  rw [lt_iff_units_lt units_zero.1 hdefined, units_zero.2, hunits, clip]
  generalize nearestQuotient ((units x).toNat * unity) (units y).toNat = q at hquotient
  omega

end Doubles

theorem ofScientific_eq {n : Nat} (hn : 0 < n) :
    UnpackedFloat.ofScientific .binary64 n (Int.ofNat 0) =
      roundWithAccuracy .binary64 .positive (n <<< 53 * 10 ^ 0) (-53 + 0) .exact := by
  have hzero : Int.ofNat 0 = 0 := rfl
  have hrange : (0 : Int) ≤ 2 ^ Format.binary64.exponentBits := by decide
  rw [hzero, UnpackedFloat.ofScientific, dif_neg hn.ne', if_neg (by omega), if_neg (by omega),
    if_pos (Int.le_refl 0)]
  rfl

theorem amounts_ofScientific {n : Nat} (hn : 0 < n) :
    Amounts (nearest 0 (n * unity) : Nat)
      (UnpackedFloat.ofScientific .binary64 n (Int.ofNat 0)) := by
  obtain ⟨j, hj⟩ : ∃ j, j = 1021 := ⟨1021, rfl⟩
  have hpos : 0 < n <<< 53 * 10 ^ 0 := by
    rw [Nat.shiftLeft_eq]
    omega
  have hplaces := places_eq
  have hvalue : n <<< 53 * 10 ^ 0 * 2 ^ j = n * unity := by
    rw [Nat.shiftLeft_eq, Nat.pow_zero, Nat.mul_one, Nat.mul_assoc, ← Nat.pow_add, unity]
    congr 2
    omega
  have hlog : 52 ≤ (n <<< 53 * 10 ^ 0).log2 := by
    rw [Nat.le_log2 hpos.ne', Nat.shiftLeft_eq]
    omega
  have hexponent : (j : Int) - 1074 - (0 : Nat) = -53 + 0 := by omega
  have hamounts := amounts_roundWithAccuracy .positive (d := 0) (j := j) hpos (.inr hlog)
  rwa [rounded_apply, hvalue, hexponent, ← ofScientific_eq hn] at hamounts

theorem units_ofNat_of_ge {n : Nat} (hn : 2 ^ 53 ≤ n) :
    (Binary64.ofNat n).isNaN = false ∧
      units (Binary64.ofNat n) = clip (nearest 0 (n * unity) : Nat) := by
  have hliteral : Binary64.ofNat n =
      ofParts (UnpackedFloat.ofScientific .binary64 n (Int.ofNat 0)) := by
    change Binary64.ofFloat (Float.ofScientific n false 0) = _
    rw [Float.ofScientific, dif_neg (by omega)]
    rfl
  rw [hliteral]
  exact units_ofParts (amounts_ofScientific (by omega))

theorem units_natCast {n : Nat} (hn : 0 < n) (hle : n ≤ 2 ^ 64) :
    IsFinite (n : Binary64) ∧ 0 < units (n : Binary64) ∧
      units (n : Binary64) ≤ (2 ^ 64 * unity : Nat) := by
  have hpow : nearest 0 (2 ^ 64 * unity) = 2 ^ 64 * unity := by
    have h := nearest_mul (h := 1) (s := 64 + places) (by decide)
    rwa [Nat.one_mul, Nat.pow_add] at h
  have hlower : 1 ≤ nearest 0 (n * unity) := by
    calc
      1 = nearest 0 1 := (nearest_mul (h := 1) (s := 0) (by decide)).symm
      _ ≤ nearest 0 (n * unity) := nearest_mono (Nat.mul_pos hn unity_pos)
  have hupper : nearest 0 (n * unity) ≤ 2 ^ 64 * unity :=
    (nearest_mono (Nat.mul_le_mul_right _ hle)).trans_eq hpow
  have hunits : units (n : Binary64) = clip (nearest 0 (n * unity) : Nat) := by
    rcases Nat.lt_or_ge n (2 ^ 53) with hlt | hge
    · have hexact : nearest 0 (n * unity) = n * unity := nearest_mul hlt.le
      have hsmall : ((n * unity : Nat) : Int).natAbs < bound := natCast_mul_unity_lt hle
      rw [hexact, clip_of_lt hsmall, Nat.cast_mul]
      exact (units_ofNat hlt).2
    · exact (units_ofNat_of_ge hge).2
  have hlt : ((nearest 0 (n * unity) : Nat) : Int).natAbs < bound := by
    rw [Int.natAbs_natCast]
    exact hupper.trans_lt (natCast_mul_unity_lt le_rfl)
  rw [clip_of_lt hlt] at hunits
  rw [isFinite_iff_units, hunits]
  exact ⟨hlt, Int.natCast_pos.mpr hlower, Int.ofNat_le.mpr hupper⟩

theorem reciprocal_pos {n : Nat} (hn : 0 < n) (hle : n ≤ 2 ^ 64) : 0 < 1 / (n : Binary64) := by
  obtain ⟨hfinite, hpos, hunits⟩ := units_natCast hn hle
  have hdefined := isNaN_of_isFinite hfinite
  have hunity : 2 ^ 64 ≤ unity := by
    rw [unity]
    exact Nat.pow_le_pow_right Nat.two_pos (by rw [places_eq]; decide)
  have hone : (0 : Binary64) < 1 := by decide +kernel
  have hpos' : 0 < (n : Binary64) := by
    rwa [lt_iff_units_lt units_zero.1 hdefined, units_zero.2]
  refine div_pos hone units_one.1 hpos' hfinite ?_
  rw [units_one.2, ← Nat.cast_mul]
  exact hunits.trans (Int.ofNat_le.mpr (Nat.mul_le_mul_right _ hunity))

end Archipelago.Proofs.Quotients
