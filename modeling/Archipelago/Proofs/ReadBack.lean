import Archipelago.Binary64.Text
import Archipelago.Proofs.Numerals
import Archipelago.Proofs.WholeNumbers
import Mathlib.Data.Rat.Cast.Order
import Mathlib.Tactic.FieldSimp
import Mathlib.Tactic.NormNum
import Mathlib.Tactic.Positivity
import Mathlib.Tactic.Ring

/-!
The shortest digits of a double are read back as this double: they lie between the points half way
to its neighbours, and a number on such a point is read as the even one of two.  Hence different
doubles have different texts.
-/

namespace Archipelago.Proofs.ReadBack

open Binary64
open Magnitudes
open Numerals
open Roundings

/-- The number half way between a magnitude and the next one. -/
def halfway (magnitude : Nat) : ℚ :=
  (scale magnitude + scale (magnitude + 1) : Nat) / 2 ^ (places + 1)

theorem halfway_strictMono : StrictMono halfway := by
  refine strictMono_nat_of_lt_succ fun magnitude => ?_
  have hfirst := scale_strictMono (Nat.lt_add_one magnitude)
  have hsecond := scale_strictMono (Nat.lt_add_one (magnitude + 1))
  have hlt : scale magnitude + scale (magnitude + 1) <
      scale (magnitude + 1) + scale (magnitude + 1 + 1) := by omega
  rw [halfway, halfway]
  exact div_lt_div_of_pos_right (Nat.cast_lt.mpr hlt) (by positivity)

/-- A positive magnitude is the nearest one to a number, or the even one of two that are equally
near. -/
def ReadAs (number : ℚ) (magnitude : Nat) : Prop :=
  if magnitude % 2 = 0 then halfway (magnitude - 1) ≤ number ∧ number ≤ halfway magnitude
  else halfway (magnitude - 1) < number ∧ number < halfway magnitude

section ReadAs

variable {number : ℚ} {magnitude : Nat}

theorem ReadAs.of_lt (hlow : halfway (magnitude - 1) < number)
    (hhigh : number < halfway magnitude) : ReadAs number magnitude := by
  rw [ReadAs]
  split_ifs
  · exact ⟨hlow.le, hhigh.le⟩
  · exact ⟨hlow, hhigh⟩

theorem ReadAs.mem (h : ReadAs number magnitude) :
    halfway (magnitude - 1) ≤ number ∧ number ≤ halfway magnitude := by
  rw [ReadAs] at h
  split_ifs at h
  · exact h
  · exact ⟨h.1.le, h.2.le⟩

theorem ReadAs.even (h : ReadAs number magnitude)
    (hend : number = halfway (magnitude - 1) ∨ number = halfway magnitude) :
    magnitude % 2 = 0 := by
  by_contra hodd
  rw [ReadAs, if_neg hodd] at h
  exact hend.elim h.1.ne' h.2.ne

theorem ReadAs.le {other : Nat} (h : ReadAs number magnitude) (h' : ReadAs number other) :
    other ≤ magnitude := by
  by_contra hlt
  rw [not_le] at hlt
  have hle : halfway (other - 1) ≤ halfway magnitude := h'.mem.1.trans h.mem.2
  have hnext : other = magnitude + 1 := by
    have := halfway_strictMono.le_iff_le.mp hle
    omega
  subst hnext
  -- Two neighbours share the point between them, but one of them is odd.
  have hend : number = halfway magnitude := le_antisymm h.mem.2 h'.mem.1
  have heven := h.even (.inr hend)
  have heven' := h'.even (.inl hend)
  omega

theorem ReadAs.unique {other : Nat} (h : ReadAs number magnitude) (h' : ReadAs number other) :
    magnitude = other :=
  le_antisymm (h'.le h) (h.le h')

theorem ReadAs.pos (h : ReadAs number magnitude) : 0 < number := by
  have hscale := scale_strictMono (Nat.lt_add_one (magnitude - 1))
  refine lt_of_lt_of_le ?_ h.mem.1
  rw [halfway]
  exact div_pos (Nat.cast_pos.mpr (by omega)) (by positivity)

end ReadAs

/-- What the exact magnitude of a double says about its word. -/
structure Describes (x : Exact) (magnitude k : Nat) : Prop where
  exponent_eq : x.exponent = k - places
  magnitude_eq : magnitude = x.mantissa + 2 ^ 52 * k
  lt : x.mantissa < 2 ^ 53
  normal : k = 0 ∨ 2 ^ 52 ≤ x.mantissa
  evenGap_iff : x.evenGap = true ↔ x.mantissa ≠ 2 ^ 52 ∨ k = 0

theorem exists_describes (x : Binary64) : ∃ k, Describes x.exact x.magnitude k := by
  have hfield : x.exponentField = x.magnitude / 2 ^ 52 := rfl
  have hfraction : x.fraction = x.magnitude % 2 ^ 52 := rfl
  have hpow : Nat.pow 2 52 = 2 ^ 52 := rfl
  have hplaces := places_eq
  rw [exact]
  split
  case isTrue hzero =>
    refine ⟨0, ?_, ?_, ?_, .inl rfl, iff_of_true rfl (.inr rfl)⟩
    · change (-1074 : Int) = _
      omega
    · change x.magnitude = x.fraction + _
      omega
    · change x.fraction < _
      omega
  case isFalse hne =>
    refine ⟨x.exponentField - 1, ?_, ?_, ?_, .inr ?_, ?_⟩
    · change (x.exponentField : Int) - 1075 = _
      omega
    · change x.magnitude = Nat.pow 2 52 + x.fraction + _
      omega
    · change Nat.pow 2 52 + x.fraction < _
      omega
    · exact Nat.le_add_right _ _
    · change decide (x.fraction ≠ 0 ∨ x.exponentField = 1) = true ↔
        Nat.pow 2 52 + x.fraction ≠ _ ∨ _
      rw [decide_eq_true_iff]
      omega

section Describes

variable {x : Exact} {magnitude k : Nat} (h : Describes x magnitude k)

include h

theorem Describes.scale_eq : scale magnitude = x.mantissa * 2 ^ k := by
  rw [h.magnitude_eq]
  exact Magnitudes.scale_eq h.lt.le h.normal

theorem Describes.high_eq : x.high * 2 ^ k = 2 * (scale magnitude + scale (magnitude + 1)) := by
  have hnormal := h.normal
  have hnext : scale (magnitude + 1) = (x.mantissa + 1) * 2 ^ k := by
    rw [h.magnitude_eq, Nat.add_right_comm]
    exact Magnitudes.scale_eq h.lt (by omega)
  rw [h.scale_eq, hnext, Exact.high]
  ring

theorem Describes.low_eq (hpos : 0 < x.mantissa) :
    x.low * 2 ^ k = 2 * (scale (magnitude - 1) + scale magnitude) := by
  have hlt := h.lt
  have hnormal := h.normal
  have hmagnitude := h.magnitude_eq
  rw [h.scale_eq, Exact.low]
  -- below a power of two the numbers are twice as close
  cases heven : x.evenGap with
  | true =>
      have hgap := h.evenGap_iff.mp heven
      obtain ⟨m, hm⟩ : ∃ m, x.mantissa = m + 1 := ⟨x.mantissa - 1, by omega⟩
      have hprevious : scale (magnitude - 1) = m * 2 ^ k := by
        rw [hmagnitude, hm, Nat.add_right_comm, Nat.add_sub_cancel]
        exact Magnitudes.scale_eq (by omega) (by omega)
      have hlow : 4 * (m + 1) - 2 = 4 * m + 2 := by omega
      rw [hprevious, hm, if_pos rfl, hlow]
      ring
  | false =>
      have hgap := h.evenGap_iff.not.mp (by rw [heven]; exact Bool.false_ne_true)
      rw [not_or, not_not] at hgap
      obtain ⟨j, rfl⟩ : ∃ j, k = j + 1 := ⟨k - 1, by omega⟩
      have hpow : 2 ^ (j + 1) = 2 * 2 ^ j := Nat.pow_succ'
      have hprevious : scale (magnitude - 1) = (2 ^ 53 - 1) * 2 ^ j := by
        have hword : magnitude - 1 = 2 ^ 53 - 1 + 2 ^ 52 * j := by omega
        rw [hword]
        exact Magnitudes.scale_eq (by omega) (by omega)
      rw [hprevious, hgap.1, if_neg Bool.false_ne_true, hpow]
      ring

end Describes

theorem scales_eq (x : Exact) (grid : Int) :
    ((x.scales grid).1 : ℚ) * 10 ^ grid = (x.scales grid).2 * 2 ^ (x.exponent - 2) := by
  have hpow : ∀ (base : ℚ) (e : Int), base ≠ 0 →
      base ^ (-e).toNat * base ^ e = base ^ e.toNat := by
    intro base e hbase
    rw [← zpow_natCast, ← zpow_natCast, ← zpow_add₀ hbase]
    congr 1
    omega
  have htwo := hpow 2 (x.exponent - 2) two_ne_zero
  have hten := hpow 10 grid (by norm_num)
  rw [neg_sub] at htwo
  change ((2 ^ (x.exponent - 2).toNat * 10 ^ (-grid).toNat : Nat) : ℚ) * 10 ^ grid =
    ((10 ^ grid.toNat * 2 ^ (2 - x.exponent).toNat : Nat) : ℚ) * 2 ^ (x.exponent - 2)
  push_cast
  rw [mul_assoc, hten, ← htwo]
  ring

section Grids

variable {x : Exact} {magnitude k : Nat} (h : Describes x magnitude k)

include h

theorem Describes.quarter_eq : (2 : ℚ) ^ (x.exponent - 2) = 2 ^ k / (2 * 2 ^ (places + 1)) := by
  rw [h.exponent_eq, ← pow_succ', ← zpow_natCast, ← zpow_natCast, ← zpow_sub₀ two_ne_zero]
  congr 1
  push_cast
  ring

theorem Describes.high_mul : (x.high : ℚ) * 2 ^ (x.exponent - 2) = halfway magnitude := by
  have hhigh : (x.high : ℚ) * 2 ^ k = 2 * (scale magnitude + scale (magnitude + 1) : Nat) := by
    exact_mod_cast h.high_eq
  rw [h.quarter_eq, ← mul_div_assoc, hhigh, mul_div_mul_left _ _ two_ne_zero, halfway]

theorem Describes.low_mul (hpos : 0 < magnitude) :
    (x.low : ℚ) * 2 ^ (x.exponent - 2) = halfway (magnitude - 1) := by
  have hmantissa : 0 < x.mantissa := by
    have hmagnitude := h.magnitude_eq
    have hnormal := h.normal
    omega
  have hlow : (x.low : ℚ) * 2 ^ k = 2 * (scale (magnitude - 1) + scale magnitude : Nat) := by
    exact_mod_cast h.low_eq hmantissa
  rw [h.quarter_eq, ← mul_div_assoc, hlow, mul_div_mul_left _ _ two_ne_zero, halfway,
    Nat.sub_add_cancel hpos]

theorem Describes.readAs_self (hpos : 0 < magnitude) :
    ReadAs (x.mantissa * 2 ^ x.exponent) magnitude := by
  have hexact : (x.mantissa : ℚ) * 2 ^ x.exponent =
      (2 * scale magnitude : Nat) / 2 ^ (places + 1) := by
    rw [h.scale_eq, h.exponent_eq, zpow_sub₀ two_ne_zero, zpow_natCast, zpow_natCast, pow_succ']
    push_cast
    rw [mul_div_mul_left _ _ two_ne_zero, mul_div_assoc]
  have hbelow := scale_strictMono (Nat.sub_one_lt hpos.ne')
  have habove := scale_strictMono (Nat.lt_add_one magnitude)
  rw [hexact]
  apply ReadAs.of_lt
  · rw [halfway, Nat.sub_add_cancel hpos]
    exact div_lt_div_of_pos_right (Nat.cast_lt.mpr (by omega)) (by positivity)
  · rw [halfway]
    exact div_lt_div_of_pos_right (Nat.cast_lt.mpr (by omega)) (by positivity)

theorem Describes.contains_iff (hpos : 0 < magnitude) (grid : Int) (digits : Nat) :
    x.contains grid digits = true ↔ ReadAs (value { digits, exponent := grid }) magnitude := by
  have hscales := scales_eq x grid
  have hparity : x.mantissa % 2 = magnitude % 2 := by
    have hmagnitude := h.magnitude_eq
    omega
  rw [ReadAs, ← h.low_mul hpos, ← h.high_mul, value, Exact.contains, hparity]
  have hquarter : 0 < (x.scales grid).1 :=
    Nat.mul_pos (Nat.two_pow_pos _) (Nat.pow_pos (by decide))
  generalize x.scales grid = scales at *
  obtain ⟨quarter, power⟩ := scales
  dsimp only at hscales hquarter ⊢
  generalize (10 : ℚ) ^ grid = step at hscales ⊢
  generalize hunit : (2 : ℚ) ^ (x.exponent - 2) = unit at hscales ⊢
  have hunit' : 0 < unit := hunit ▸ zpow_pos two_pos _
  have hquarter' : (0 : ℚ) < quarter := Nat.cast_pos.mpr hquarter
  have hside : ∀ ends : Nat, (digits * step * quarter : ℚ) = digits * power * unit ∧
      (ends * unit * quarter : ℚ) = ends * quarter * unit := by
    intro ends
    constructor
    · rw [mul_assoc, mul_comm step, hscales, mul_assoc]
    · rw [mul_assoc, mul_comm unit, mul_assoc]
  have hle : ∀ ends : Nat, ends * quarter ≤ digits * power ↔ (ends * unit : ℚ) ≤ digits * step := by
    intro ends
    rw [← mul_le_mul_iff_left₀ hquarter', (hside ends).1, (hside ends).2,
      mul_le_mul_iff_left₀ hunit']
    norm_cast
  have hge : ∀ ends : Nat, digits * power ≤ ends * quarter ↔ (digits * step : ℚ) ≤ ends * unit := by
    intro ends
    rw [← mul_le_mul_iff_left₀ hquarter', (hside ends).1, (hside ends).2,
      mul_le_mul_iff_left₀ hunit']
    norm_cast
  split_ifs
  · rw [Bool.and_eq_true, decide_eq_true_iff, decide_eq_true_iff, hle, hge]
  · rw [Bool.and_eq_true, decide_eq_true_iff, decide_eq_true_iff, ← not_le, ← not_le, hle, hge,
      not_le, not_le]

omit h in
theorem contains_of_nearest? {grid : Int} {digits : Nat} (hfound : x.nearest? grid = some digits) :
    x.contains grid digits = true := by
  rw [Exact.nearest?] at hfound
  dsimp only at hfound
  split at hfound
  case h_1 hbelow habove =>
    split_ifs at hfound
    · cases hfound
      exact hbelow
    · cases hfound
      exact habove
  case h_2 hbelow _ =>
    cases hfound
    exact hbelow
  case h_3 _ habove =>
    cases hfound
    exact habove
  case h_4 => contradiction

omit h in
theorem value_expansion (x : Exact) : value x.expansion = x.mantissa * 2 ^ x.exponent := by
  rw [Exact.expansion]
  split
  case h_1 e he =>
    rw [he, value]
    change ((x.mantissa * 2 ^ e : Nat) : ℚ) * 10 ^ (0 : Int) = _ * 2 ^ (e : Int)
    rw [zpow_zero, mul_one, zpow_natCast]
    push_cast
    rfl
  case h_2 e he =>
    rw [he, value]
    change ((x.mantissa * 5 ^ (e + 1) : Nat) : ℚ) * 10 ^ (Int.negSucc e) = _
    have hten : (10 : ℚ) ^ (e + 1) = 5 ^ (e + 1) * 2 ^ (e + 1) := by
      rw [← mul_pow]
      norm_num
    rw [zpow_negSucc, zpow_negSucc, hten]
    push_cast
    field_simp

theorem Describes.readAs_scan (hpos : 0 < magnitude) (steps : Nat) (grid : Int) :
    ReadAs (value (x.scan steps grid)) magnitude := by
  induction steps generalizing grid with
  | zero =>
      rw [Exact.scan, value_expansion]
      exact h.readAs_self hpos
  | succ steps ih =>
      rw [Exact.scan]
      split
      case h_1 digits hfound =>
        exact (h.contains_iff hpos grid digits).mp (contains_of_nearest? hfound)
      case h_2 => exact ih _

/-- The shortest digits are read back as the double that they are taken from. -/
theorem Describes.readAs_shortest (hpos : 0 < magnitude) :
    ReadAs (value x.shortest) magnitude :=
  h.readAs_scan hpos 24 _

end Grids

theorem value_digitsOf_injective {x y : Binary64}
    (h : value (digitsOf x.exact) = value (digitsOf y.exact)) : x.magnitude = y.magnitude := by
  have hread : ∀ z : Binary64, (z.magnitude = 0 ∧ value (digitsOf z.exact) = 0) ∨
      0 < value (digitsOf z.exact) ∧ ReadAs (value (digitsOf z.exact)) z.magnitude := by
    intro z
    obtain ⟨k, hz⟩ := exists_describes z
    have hmagnitude := hz.magnitude_eq
    have hnormal := hz.normal
    rw [digitsOf]
    split_ifs with hzero
    · refine .inl ⟨by omega, ?_⟩
      rw [value, Nat.cast_zero, zero_mul]
    · have hpos : 0 < z.magnitude := by omega
      have hshortest := hz.readAs_shortest hpos
      exact .inr ⟨hshortest.pos, hshortest⟩
  rcases hread x with ⟨hx, hzero⟩ | ⟨hpos, hx⟩
  · rcases hread y with ⟨hy, -⟩ | ⟨hpos', -⟩
    · rw [hx, hy]
    · rw [← h, hzero] at hpos'
      exact absurd hpos' (lt_irrefl 0)
  · rcases hread y with ⟨-, hzero'⟩ | ⟨-, hy⟩
    · rw [h, hzero'] at hpos
      exact absurd hpos (lt_irrefl 0)
    · rw [h] at hx
      exact hx.unique hy

/-- The text of a double without its sign. -/
def unsignedText (x : Binary64) : List Char :=
  if x.abs = infinity then "inf".toList else plain x.exact

theorem not_mem_unsignedText {x : Binary64} {c : Char} (hdigit : c.isDigit = false)
    (hother : c ∉ ['.', 'i', 'n', 'f']) : c ∉ unsignedText x := by
  simp only [List.mem_cons, List.not_mem_nil, or_false, not_or] at hother
  rw [unsignedText]
  split_ifs
  · simp [hother]
  · exact not_mem_positional hdigit hother.1

theorem magnitude_eq_of_unsignedText_eq {x y : Binary64} (h : unsignedText x = unsignedText y) :
    x.magnitude = y.magnitude := by
  have hletter : ∀ z : Binary64, plain z.exact ≠ "inf".toList := by
    intro z hinf
    have hmem : 'i' ∉ plain z.exact := not_mem_positional (by decide) (by decide)
    rw [hinf] at hmem
    exact hmem (by decide)
  have hmagnitude : ∀ z : Binary64, z.abs = infinity → z.magnitude = infinity.magnitude := by
    intro z hz
    rw [← hz, (WholeNumbers.units_abs z).2]
  rw [unsignedText, unsignedText] at h
  split_ifs at h with hx hy hy
  · rw [hmagnitude x hx, hmagnitude y hy]
  · exact absurd h.symm (hletter y)
  · exact absurd h (hletter x)
  · exact value_digitsOf_injective (value_eq_of_positional_eq h)

theorem toList_plain {x : Binary64} (h : x.isNaN = false) :
    (Numeral.plain x).toList = (if x.negative then ['-'] else []) ++ unsignedText x := by
  change (write plain x).toList = _
  rw [write, h, if_neg Bool.false_ne_true, String.toList_ofList, unsignedText]

theorem not_mem_plain {x : Binary64} (h : x.isNaN = false) {c : Char} (hdigit : c.isDigit = false)
    (hother : c ∉ ['-', '.', 'i', 'n', 'f']) : c ∉ (Numeral.plain x).toList := by
  rw [List.mem_cons, not_or] at hother
  have hrest := not_mem_unsignedText (x := x) hdigit hother.2
  rw [toList_plain h, List.mem_append, not_or]
  refine ⟨?_, hrest⟩
  split_ifs
  · simpa using hother.1
  · exact List.not_mem_nil

theorem eq_of_magnitude_eq {x y : Binary64} (hsign : x.negative = y.negative)
    (hmagnitude : x.magnitude = y.magnitude) : x = y := by
  have hbits : ∀ z : Binary64, z.magnitude = z.bits.toNat % 2 ^ 63 := fun _ => rfl
  have hnegative := Sums.negative_iff (x := x)
  have hnegative' := Sums.negative_iff (x := y)
  rw [hbits, hbits] at hmagnitude
  rw [hsign] at hnegative
  have hlt := x.bits.toNat_lt
  have hlt' := y.bits.toNat_lt
  have hiff := hnegative.symm.trans hnegative'
  obtain ⟨bits⟩ := x
  obtain ⟨bits'⟩ := y
  exact congrArg _ (UInt64.toNat.inj (by dsimp only at *; omega))

theorem eq_of_signed_eq {sign sign' : Bool} {text text' : List Char} (hnot : '-' ∉ text)
    (hnot' : '-' ∉ text')
    (h : (if sign then ['-'] else []) ++ text = (if sign' then ['-'] else []) ++ text') :
    sign = sign' ∧ text = text' := by
  cases sign with
  | true =>
      cases sign' with
      | true => exact ⟨rfl, List.append_cancel_left h⟩
      | false =>
          change '-' :: text = text' at h
          rw [← h] at hnot'
          exact absurd List.mem_cons_self hnot'
  | false =>
      cases sign' with
      | true =>
          change text = '-' :: text' at h
          rw [h] at hnot
          exact absurd List.mem_cons_self hnot
      | false => exact ⟨rfl, h⟩

/-- Doubles that are not undefined are told apart by their texts, the two zeros included. -/
theorem eq_of_plain_eq {x y : Binary64} (hx : x.isNaN = false) (hy : y.isNaN = false)
    (h : Numeral.plain x = Numeral.plain y) : x = y := by
  have hsign : ∀ z : Binary64, '-' ∉ unsignedText z :=
    fun z => not_mem_unsignedText (by decide) (by decide)
  have htext := congrArg String.toList h
  rw [toList_plain hx, toList_plain hy] at htext
  obtain ⟨hnegative, hunsigned⟩ := eq_of_signed_eq (hsign x) (hsign y) htext
  exact eq_of_magnitude_eq hnegative (magnitude_eq_of_unsignedText_eq hunsigned)

end Archipelago.Proofs.ReadBack
