import Archipelago.Decimal
import Mathlib.Data.List.Basic
import Mathlib.Tactic.Ring

namespace Archipelago.Proofs.Numerals

open Decimal

theorem numeral_injective : Function.Injective numeral := by
  intro n m h
  have hread := congrArg (fun digits => Nat.ofDigitChars 10 digits 0) h
  simpa only [numeral, Nat.ofDigitChars_ten_toDigits] using hread

theorem isDigit_of_mem_numeral {n : Nat} {c : Char} (h : c ∈ numeral n) : c.isDigit = true :=
  Nat.isDigit_of_mem_toDigits (by decide) le_rfl h

theorem ofDigitChars_padded (width n : Nat) : Nat.ofDigitChars 10 (padded width n) 0 = n := by
  rw [padded, Nat.ofDigitChars_append, Nat.ofDigitChars_replicate_zero, Nat.mul_zero]
  exact Nat.ofDigitChars_ten_toDigits

theorem isDigit_of_mem_padded {width n : Nat} {c : Char} (h : c ∈ padded width n) :
    c.isDigit = true := by
  rcases List.mem_append.mp h with hzero | hdigit
  · rw [List.eq_of_mem_replicate hzero]
    rfl
  · exact isDigit_of_mem_numeral hdigit

theorem le_length_padded (width n : Nat) : width ≤ (padded width n).length := by
  rw [padded, List.length_append, List.length_replicate]
  omega

/-- The number that a decimal stands for. -/
def value (d : Decimal) : ℚ :=
  d.digits * 10 ^ d.exponent

/-- The number that is written with some digits before and some digits after the point. -/
def reading (text : List Char × List Char) : ℚ :=
  Nat.ofDigitChars 10 (text.1 ++ text.2) 0 / 10 ^ text.2.length

theorem isDigit_of_mem_split {d : Decimal} {c : Char} (h : c ∈ d.split.1 ++ d.split.2) :
    c.isDigit = true := by
  rw [split] at h
  split at h
  · rcases List.mem_append.mp h with hwhole | hfraction
    · rcases List.mem_append.mp hwhole with hdigit | hzero
      · exact isDigit_of_mem_numeral hdigit
      · rw [List.eq_of_mem_replicate hzero]
        rfl
    · contradiction
  · rw [List.take_append_drop] at h
    exact isDigit_of_mem_padded h

theorem reading_split (d : Decimal) : reading d.split = value d := by
  obtain ⟨digits, exponent⟩ := d
  cases exponent with
  | ofNat zeros =>
      have hread : Nat.ofDigitChars 10 ((numeral digits ++ List.replicate zeros '0') ++ []) 0 =
          10 ^ zeros * digits := by
        rw [List.append_nil, Nat.ofDigitChars_append, Nat.ofDigitChars_replicate_zero, numeral,
          Nat.ofDigitChars_ten_toDigits]
      change (Nat.ofDigitChars 10 ((numeral digits ++ List.replicate zeros '0') ++ []) 0 : ℚ) /
        10 ^ 0 = digits * 10 ^ (zeros : Int)
      rw [hread, zpow_natCast]
      push_cast
      ring
  | negSucc below =>
      have hlength := le_length_padded (below + 1 + 1) digits
      have hread := ofDigitChars_padded (below + 1 + 1) digits
      generalize htext : padded (below + 1 + 1) digits = text at hlength hread
      have hsplit : split { digits, exponent := .negSucc below } =
          (text.take (text.length - (below + 1)), text.drop (text.length - (below + 1))) := by
        rw [← htext]
        rfl
      rw [hsplit, reading, List.take_append_drop, hread, List.length_drop, value, zpow_negSucc,
        ← div_eq_mul_inv]
      congr 2
      omega

theorem not_mem_split_of_not_isDigit {d : Decimal} {c : Char} (h : c.isDigit = false) :
    c ∉ d.split.1 ∧ c ∉ d.split.2 := by
  have hnot : c ∉ d.split.1 ++ d.split.2 := by
    intro hmem
    rw [isDigit_of_mem_split hmem] at h
    contradiction
  exact ⟨fun hmem => hnot (List.mem_append_left _ hmem),
    fun hmem => hnot (List.mem_append_right _ hmem)⟩

theorem positional_eq (d : Decimal) :
    d.positional = if d.split.2 = [] then d.split.1 else d.split.1 ++ '.' :: d.split.2 := by
  rw [positional]
  split
  case h_1 whole hsplit => rw [hsplit, if_pos rfl]
  case h_2 whole fraction hne hsplit => rw [hsplit, if_neg hne]

theorem not_mem_positional {d : Decimal} {c : Char} (hdigit : c.isDigit = false)
    (hpoint : c ≠ '.') : c ∉ d.positional := by
  obtain ⟨hwhole, hfraction⟩ := not_mem_split_of_not_isDigit (d := d) hdigit
  rw [positional_eq]
  split_ifs
  · exact hwhole
  · rw [List.mem_append, List.mem_cons, not_or, not_or]
    exact ⟨hwhole, hpoint, hfraction⟩

theorem split_eq_of_positional_eq {d e : Decimal} (h : d.positional = e.positional) :
    d.split = e.split := by
  have hpoint : ('.' : Char).isDigit = false := by decide
  have hd := not_mem_split_of_not_isDigit (d := d) hpoint
  have he := not_mem_split_of_not_isDigit (d := e) hpoint
  rw [positional_eq, positional_eq] at h
  split_ifs at h with hnone hnone' hnone'
  · exact Prod.ext h (hnone.trans hnone'.symm)
  · rw [h] at hd
    exact absurd List.mem_append_cons_self hd.1
  · rw [← h] at he
    exact absurd List.mem_append_cons_self he.1
  · obtain ⟨hwhole, -, hfraction⟩ := (List.append_cons_inj_of_notMem hd.1 hd.2).mp h
    exact Prod.ext hwhole hfraction

theorem value_eq_of_positional_eq {d e : Decimal} (h : d.positional = e.positional) :
    value d = value e := by
  rw [← reading_split, ← reading_split, split_eq_of_positional_eq h]

end Archipelago.Proofs.Numerals
