import Archipelago.Proofs.Roundings
import Mathlib.Algebra.Order.Ring.Nat
import Mathlib.Tactic.GCongr
import Mathlib.Tactic.Ring

/-!
Rounding to 53 binary digits, for natural numbers in units of `2 ^ -1074`.  It is monotone, and it
keeps what it can represent.
-/

namespace Archipelago.Proofs.Spacing

open Float.Model.UnpackedFloat

/-- The quotient `n / p` to the nearest natural number, and to the even one of a tie. -/
def halfEven (n p : Nat) : Nat :=
  if 2 * (n % p) < p ∨ 2 * (n % p) = p ∧ n / p % 2 = 0 then n / p else n / p + 1

section Quotients

variable {n p : Nat} (hp : 0 < p)

theorem div_le_halfEven (n p : Nat) : n / p ≤ halfEven n p := by
  rw [halfEven]
  split
  · rfl
  · exact Nat.le_succ _

theorem halfEven_le_succ (n p : Nat) : halfEven n p ≤ n / p + 1 := by
  rw [halfEven]
  split
  · exact Nat.le_succ _
  · rfl

theorem halfEven_mono {m : Nat} (h : n ≤ m) : halfEven n p ≤ halfEven m p := by
  rcases (Nat.div_le_div_right h (c := p)).lt_or_eq with hlt | heq
  · exact (halfEven_le_succ n p).trans ((Nat.succ_le_of_lt hlt).trans (div_le_halfEven m p))
  · have hn := Nat.div_add_mod n p
    have hm := Nat.div_add_mod m p
    rw [heq] at hn
    rw [halfEven, halfEven, heq]
    split_ifs <;> omega

theorem halfEven_mul_mul {c : Nat} (hc : 0 < c) : halfEven (n * c) (p * c) = halfEven n p := by
  have hiff : 2 * (n % p * c) < p * c ↔ 2 * (n % p) < p := by
    rw [← Nat.mul_assoc, Nat.mul_lt_mul_right hc]
  have hiff' : 2 * (n % p * c) = p * c ↔ 2 * (n % p) = p := by
    rw [← Nat.mul_assoc, Nat.mul_left_inj hc.ne']
  simp only [halfEven, Nat.mul_mod_mul_right, Nat.mul_div_mul_right _ _ hc, hiff, hiff']

include hp

theorem halfEven_add {h w : Nat} (hw : 2 * w < p ∨ 2 * w = p ∧ h % 2 = 0) :
    halfEven (h * p + w) p = h := by
  have hlt : w < p := by omega
  have hdiv : (h * p + w) / p = h := by
    rw [Nat.mul_comm, Nat.mul_add_div hp, Nat.div_eq_of_lt hlt, Nat.add_zero]
  have hmod : (h * p + w) % p = w := by
    rw [Nat.mul_comm, Nat.mul_add_mod, Nat.mod_eq_of_lt hlt]
  rw [halfEven, hdiv, hmod, if_pos hw]

theorem halfEven_mul (h : Nat) : halfEven (h * p) p = h :=
  halfEven_add hp (w := 0) (.inl hp)

theorem halfEven_mul_le :
    2 * (halfEven n p * p) ≤ 2 * n + p ∧
      (2 * (halfEven n p * p) = 2 * n + p → halfEven n p % 2 = 0) := by
  have hsplit := Nat.div_add_mod n p
  have hlt := Nat.mod_lt n hp
  rw [Nat.mul_comm p] at hsplit
  rw [halfEven]
  split
  case isTrue => omega
  case isFalse h =>
    rw [Nat.add_mul, Nat.one_mul]
    omega

end Quotients

/-- The residual bits of a mantissa that has lost digits say how the quotient `n / p`, of which it
is the whole part, has to be rounded. -/
structure Residual (n p : Nat) (extended : ExtendedMantissa) : Prop where
  mantissa_eq : extended.mantissa = n / p
  roundBit_iff : extended.roundBit = true ↔ p ≤ 2 * (n % p)
  stickyBit_iff : extended.stickyBit = true ↔ 2 * (n % p) ≠ 0 ∧ 2 * (n % p) ≠ p

section Residuals

variable {n p : Nat} {extended : ExtendedMantissa} (hp : 0 < p)

include hp

theorem Residual.shiftRightOne (h : Residual n p extended) :
    Residual n (p * 2) extended.shiftRightOne := by
  have hlt := Nat.mod_lt n hp
  have hmod : n % (p * 2) = n % p + p * (n / p % 2) := Nat.mod_mul
  constructor
  · change extended.mantissa / 2 = _
    rw [h.mantissa_eq, Nat.div_div_eq_div_mul]
  · change (extended.mantissa % 2 != 0) = true ↔ _
    rw [bne_iff_ne, h.mantissa_eq, hmod]
    rcases Nat.mod_two_eq_zero_or_one (n / p) with heven | hodd
    · rw [heven]
      omega
    · rw [hodd]
      omega
  · change (extended.roundBit || extended.stickyBit) = true ↔ _
    rw [Bool.or_eq_true, h.roundBit_iff, h.stickyBit_iff, hmod]
    rcases Nat.mod_two_eq_zero_or_one (n / p) with heven | hodd
    · rw [heven]
      omega
    · rw [hodd]
      omega

theorem Residual.shiftRight (h : Residual n p extended) (s : Nat) :
    Residual n (p * 2 ^ s) (extended >>> s) := by
  induction s with
  | zero =>
      rw [Nat.pow_zero, Nat.mul_one]
      exact h
  | succ s ih =>
      rw [Nat.pow_succ, ← Nat.mul_assoc]
      exact ih.shiftRightOne (Nat.mul_pos hp (Nat.two_pow_pos s))

theorem Residual.roundedMantissa (h : Residual n p extended) :
    extended.roundedMantissa = halfEven n p := by
  obtain ⟨mantissa, roundBit, stickyBit⟩ := extended
  obtain ⟨rfl, hround, hsticky⟩ := h
  have hlt := Nat.mod_lt n hp
  rw [ExtendedMantissa.roundedMantissa, halfEven]
  cases roundBit <;> cases stickyBit <;>
    simp only [ExtendedMantissa.accuracy, Accuracy.roundToNearestEven, Bool.false_eq_true,
      false_iff, true_iff] at hround hsticky ⊢
  · rw [if_pos (by omega)]
  · rw [if_pos (by omega)]
  · split_ifs <;> omega
  · rw [if_neg (by omega)]

/-- What a division leaves over says how its quotient has to be rounded. -/
theorem residual_division (n : Nat) :
    Residual n p
      (ExtendedMantissa.ofMantissaAndAccuracy (n / p) (accuracyOfFraction (n % p) p)) := by
  have hlt := Nat.mod_lt n hp
  rw [accuracyOfFraction]
  split
  case isTrue hzero =>
    rw [ExtendedMantissa.ofMantissaAndAccuracy]
    exact ⟨rfl, by simp; omega, by simp; omega⟩
  case isFalse hne =>
    cases horder : compare (2 * (n % p)) p with
    | lt =>
        have hbelow := Nat.compare_eq_lt.mp horder
        exact ⟨rfl, iff_of_false Bool.false_ne_true (by omega), iff_of_true rfl (by omega)⟩
    | eq =>
        have htie := Nat.compare_eq_eq.mp horder
        exact ⟨rfl, iff_of_true rfl (by omega), iff_of_false Bool.false_ne_true (by omega)⟩
    | gt =>
        have habove := Nat.compare_eq_gt.mp horder
        exact ⟨rfl, iff_of_true rfl (by omega), iff_of_true rfl (by omega)⟩

end Residuals

/-- Digits that a number loses when it is rounded, of which there are at least `d`. -/
def lost (d n : Nat) : Nat :=
  max (n.log2 - 52) d

/-- The number `n / 2 ^ d` to the nearest one that has 53 binary digits or less. -/
def nearest (d n : Nat) : Nat :=
  halfEven n (2 ^ lost d n) * 2 ^ (lost d n - d)

section Nearest

variable {d n m : Nat}

theorem lt_of_lost (d n : Nat) : n < 2 ^ 53 * 2 ^ lost d n := by
  rw [← Nat.pow_add]
  have hlog : n.log2 + 1 ≤ 53 + lost d n := by
    rw [lost]
    omega
  exact Nat.lt_log2_self.trans_le (Nat.pow_le_pow_right Nat.two_pos hlog)

theorem le_of_lost (h : d < lost d n) : 2 ^ 52 * 2 ^ lost d n ≤ n := by
  have hlost : 52 + lost d n ≤ n.log2 := by
    rw [lost] at h ⊢
    omega
  have hne : n ≠ 0 := by
    rintro rfl
    simp at hlost
  rw [← Nat.pow_add]
  exact (Nat.le_log2 hne).mp hlost

theorem lost_eq {s : Nat} (hlt : n < 2 ^ 53 * 2 ^ s) (hle : s = d ∨ d ≤ s ∧ 2 ^ 52 * 2 ^ s ≤ n) :
    lost d n = s := by
  rcases Nat.eq_zero_or_pos n with rfl | hpos
  · rcases hle with rfl | ⟨-, hle⟩
    · simp [lost]
    · have := Nat.two_pow_pos s
      omega
  · rw [← Nat.pow_add] at hlt
    have hlog := (Nat.log2_lt hpos.ne').mpr hlt
    rw [lost]
    rcases hle with rfl | ⟨hd, hle⟩
    · omega
    · rw [← Nat.pow_add] at hle
      have := (Nat.le_log2 hpos.ne').mpr hle
      omega

theorem halfEven_lost_le (d n : Nat) : halfEven n (2 ^ lost d n) ≤ 2 ^ 53 := by
  have h := halfEven_le_succ n (2 ^ lost d n)
  have hdiv := (Nat.div_lt_iff_lt_mul (Nat.two_pow_pos (lost d n))).mpr (lt_of_lost d n)
  omega

theorem le_halfEven_lost (h : d < lost d n) : 2 ^ 52 ≤ halfEven n (2 ^ lost d n) :=
  ((Nat.le_div_iff_mul_le (Nat.two_pow_pos _)).mpr (le_of_lost h)).trans (div_le_halfEven _ _)

theorem nearest_zero (n : Nat) : nearest 0 n = halfEven n (2 ^ lost 0 n) * 2 ^ lost 0 n := by
  rw [nearest, Nat.sub_zero]

theorem nearest_mul_pow (d n : Nat) : nearest d (n * 2 ^ d) = nearest 0 n := by
  have hlost : lost d (n * 2 ^ d) = lost 0 n + d := by
    refine lost_eq ?_ ?_
    · rw [Nat.pow_add, ← Nat.mul_assoc]
      exact Nat.mul_lt_mul_of_pos_right (lt_of_lost 0 n) (Nat.two_pow_pos d)
    · rcases Nat.eq_zero_or_pos (lost 0 n) with hzero | hpos
      · omega
      · refine .inr ⟨by omega, ?_⟩
        rw [Nat.pow_add, ← Nat.mul_assoc]
        exact Nat.mul_le_mul_right _ (le_of_lost hpos)
  rw [nearest, hlost, Nat.add_sub_cancel, Nat.pow_add,
    halfEven_mul_mul (Nat.two_pow_pos d)]
  rfl

/-- Half of the smallest positive number is rounded to zero, and more than that is not. -/
theorem nearest_pos_iff : 0 < nearest d n ↔ 2 ^ d < 2 * n := by
  have hpos := Nat.two_pow_pos d
  have hlost : d ≤ lost d n := le_max_right _ _
  rcases hlost.eq_or_lt with heq | hlt
  · rw [nearest, ← heq, Nat.sub_self, Nat.pow_zero, Nat.mul_one]
    rcases Nat.lt_or_ge n (2 ^ d) with hlt | hge
    · rw [halfEven, Nat.div_eq_of_lt hlt, Nat.mod_eq_of_lt hlt]
      split_ifs <;> omega
    · have hone : 1 ≤ n / 2 ^ d := (Nat.le_div_iff_mul_le hpos).mpr (by omega)
      exact iff_of_true (hone.trans (div_le_halfEven n _)) (by omega)
  · have hdigits : 0 < halfEven n (2 ^ lost d n) :=
      (Nat.two_pow_pos 52).trans_le (le_halfEven_lost hlt)
    have hle : 2 ^ 52 * 2 ^ d ≤ n :=
      (Nat.mul_le_mul_left _ (Nat.pow_le_pow_right Nat.two_pos hlt.le)).trans (le_of_lost hlt)
    exact iff_of_true (Nat.mul_pos hdigits (Nat.two_pow_pos _)) (by omega)

theorem nearest_add {h s w : Nat} (hlt : h < 2 ^ 53) (hle : s = 0 ∨ 2 ^ 52 ≤ h)
    (hw : 2 * w < 2 ^ s ∨ 2 * w = 2 ^ s ∧ h % 2 = 0) : nearest 0 (h * 2 ^ s + w) = h * 2 ^ s := by
  have hpos := Nat.two_pow_pos s
  have hlost : lost 0 (h * 2 ^ s + w) = s := by
    refine lost_eq ?_ ?_
    · calc
        h * 2 ^ s + w < h * 2 ^ s + 2 ^ s := by omega
        _ = (h + 1) * 2 ^ s := by rw [Nat.add_mul, Nat.one_mul]
        _ ≤ 2 ^ 53 * 2 ^ s := Nat.mul_le_mul_right _ hlt
    · refine hle.imp_right fun hle => ⟨Nat.zero_le s, ?_⟩
      exact (Nat.mul_le_mul_right _ hle).trans (Nat.le_add_right _ _)
  rw [nearest_zero, hlost, halfEven_add hpos hw]

theorem nearest_exact {h s : Nat} (hlt : h < 2 ^ 53) (hle : s = 0 ∨ 2 ^ 52 ≤ h) :
    nearest 0 (h * 2 ^ s) = h * 2 ^ s := by
  have hsum := nearest_add (w := 0) hlt hle (.inl (Nat.two_pow_pos s))
  rwa [Nat.add_zero] at hsum

theorem nearest_mul {h s : Nat} (hle : h ≤ 2 ^ 53) : nearest 0 (h * 2 ^ s) = h * 2 ^ s := by
  rcases hle.lt_or_eq with hlt | rfl
  · -- A number that has fewer digits may have been written with zeros at its end.
    induction s generalizing h with
    | zero => exact nearest_exact hlt (.inl rfl)
    | succ s ih =>
        rcases Nat.lt_or_ge h (2 ^ 52) with hsmall | hlarge
        · rw [Nat.pow_succ', ← Nat.mul_assoc]
          exact ih (by omega) (by omega)
        · exact nearest_exact hlt (.inr hlarge)
  · have hpow : 2 ^ 53 * 2 ^ s = 2 ^ 52 * 2 ^ (s + 1) := by
      rw [Nat.pow_succ']
      ring
    rw [hpow]
    exact nearest_exact (by decide) (.inr le_rfl)

theorem nearest_mono (h : n ≤ m) : nearest d n ≤ nearest d m := by
  have hlost : lost d n ≤ lost d m := by
    rcases Nat.eq_zero_or_pos n with rfl | hpos
    · simp [lost]
    · have hlog : n.log2 ≤ m.log2 :=
        (Nat.le_log2 (by omega)).mpr ((Nat.log2_self_le hpos.ne').trans h)
      rw [lost, lost]
      omega
  rcases hlost.lt_or_eq with hlt | heq
  · have hd : d ≤ lost d n := le_max_right _ _
    calc
      nearest d n ≤ 2 ^ 53 * 2 ^ (lost d n - d) := Nat.mul_le_mul_right _ (halfEven_lost_le d n)
      _ = 2 ^ 52 * 2 ^ (lost d n - d + 1) := by rw [Nat.pow_succ']; ring
      _ ≤ 2 ^ 52 * 2 ^ (lost d m - d) :=
        Nat.mul_le_mul_left _ (Nat.pow_le_pow_right Nat.two_pos (by omega))
      _ ≤ nearest d m := Nat.mul_le_mul_right _ (le_halfEven_lost (hd.trans_lt hlt))
  · rw [nearest, nearest, heq]
    exact Nat.mul_le_mul_right _ (halfEven_mono h)

theorem dvd_nearest {k : Nat} (h : 2 ^ k ∣ n) : 2 ^ k ∣ nearest 0 n := by
  rcases Nat.lt_or_ge (lost 0 n) k with hlt | hge
  · obtain ⟨q, hq⟩ := (Nat.pow_dvd_pow 2 hlt.le).trans h
    rw [nearest_zero]
    generalize lost 0 n = s at hq
    have hexact : halfEven n (2 ^ s) * 2 ^ s = n := by
      rw [hq, Nat.mul_comm (2 ^ s) q, halfEven_mul (Nat.two_pow_pos s)]
    rw [hexact]
    exact h
  · rw [nearest_zero]
    exact (Nat.pow_dvd_pow 2 hge).mul_left _

/-- What has been rounded up past `n + w` does not get any further by another `w`. -/
theorem nearest_absorbs {w : Nat} (h : n + w ≤ nearest 0 n) :
    nearest 0 (nearest 0 n + w) = nearest 0 n := by
  have hpos := Nat.two_pow_pos (lost 0 n)
  obtain ⟨hoff, htie⟩ := halfEven_mul_le (n := n) hpos
  have hle := halfEven_lost_le 0 n
  have hge : lost 0 n = 0 ∨ 2 ^ 52 ≤ halfEven n (2 ^ lost 0 n) :=
    (Nat.eq_zero_or_pos _).imp_right le_halfEven_lost
  rw [nearest_zero n] at h ⊢
  generalize lost 0 n = s at *
  generalize halfEven n (2 ^ s) = q at *
  have hw : 2 * w < 2 ^ s ∨ 2 * w = 2 ^ s ∧ q % 2 = 0 := by
    rcases Nat.lt_or_ge (2 * w) (2 ^ s) with hlt | hge
    · exact .inl hlt
    · exact .inr ⟨by omega, htie (by omega)⟩
  rcases hle.lt_or_eq with hlt | rfl
  · exact nearest_add hlt hge hw
  · have hpow : 2 ^ 53 * 2 ^ s = 2 ^ 52 * 2 ^ (s + 1) := by rw [Nat.pow_succ']; ring
    rw [hpow]
    refine nearest_add (by decide) (.inr le_rfl) (.inl ?_)
    rw [Nat.pow_succ]
    omega

/-- The multiples of `2 ^ k` below the rounded number of steps up to `n` are those up to `n`. -/
theorem le_of_lt_nearest {k q : Nat} (hn : 2 ^ k ∣ n) (hq : 2 ^ k ∣ q) (hexact : nearest 0 q = q)
    (hlt : q < nearest 0 (nearest 0 n + 2 ^ k)) : q ≤ n := by
  by_contra hgt
  rw [not_le] at hgt
  have hnext : ∀ {a : Nat}, 2 ^ k ∣ a → a < q → a + 2 ^ k ≤ q := by
    intro a ha haq
    have := Nat.le_of_dvd (Nat.sub_pos_of_lt haq) (Nat.dvd_sub hq ha)
    omega
  have hle : nearest 0 n ≤ q := (nearest_mono hgt.le).trans_eq hexact
  rcases hle.lt_or_eq with hbelow | heq
  · have hmono := nearest_mono (d := 0) (hnext (dvd_nearest hn) hbelow)
    omega
  · rw [nearest_absorbs ((hnext hn hgt).trans_eq heq.symm), heq] at hlt
    exact lt_irrefl q hlt

theorem relative_error {rounded spacing : Nat} (hoff : 2 * rounded ≤ 2 * n + spacing)
    (hspacing : 2 ^ 52 * spacing ≤ n) : rounded * 2 ^ 53 ≤ n * (2 ^ 53 + 1) := by
  omega

theorem nearest_mul_lt (hd : 53 < d) (hn : n * 2 ^ 53 ≤ (2 ^ 53 - 1) * 2 ^ d) (hm : 2 ^ d ≤ m) :
    nearest d (n * m) < m := by
  have hpos := Nat.two_pow_pos (lost d (n * m))
  have hle : d ≤ lost d (n * m) := le_max_right _ _
  rcases hle.eq_or_lt with heq | hlt
  · have hbound := halfEven_lost_le d (n * m)
    rw [nearest, ← heq, Nat.sub_self, Nat.pow_zero, Nat.mul_one]
    rw [← heq] at hbound
    exact (hbound.trans_lt (Nat.pow_lt_pow_right Nat.one_lt_two hd)).trans_le hm
  · have hleast := le_of_lost hlt
    have hoff := (halfEven_mul_le (n := n * m) hpos).1
    have hsplit : 2 ^ lost d (n * m) = 2 ^ (lost d (n * m) - d) * 2 ^ d := by
      rw [← Nat.pow_add, Nat.sub_add_cancel hle]
    have hnearest : nearest d (n * m) * 2 ^ d = halfEven (n * m) (2 ^ lost d (n * m)) *
        2 ^ lost d (n * m) := by
      rw [nearest, Nat.mul_assoc, ← hsplit]
    rw [← hnearest] at hoff
    have hscaled := relative_error hoff hleast
    by_contra hge
    rw [not_lt] at hge
    -- The factor is smaller by more than what rounding adds.
    have hlower : m * 2 ^ d * 2 ^ 53 * 2 ^ 53 ≤ nearest d (n * m) * 2 ^ d * 2 ^ 53 * 2 ^ 53 := by
      gcongr
    have hupper : n * m * (2 ^ 53 + 1) * 2 ^ 53 ≤ (2 ^ 53 - 1) * (2 ^ 53 + 1) * (m * 2 ^ d) := by
      calc
        n * m * (2 ^ 53 + 1) * 2 ^ 53 = n * 2 ^ 53 * (m * (2 ^ 53 + 1)) := by ring
        _ ≤ (2 ^ 53 - 1) * 2 ^ d * (m * (2 ^ 53 + 1)) := Nat.mul_le_mul_right _ hn
        _ = (2 ^ 53 - 1) * (2 ^ 53 + 1) * (m * 2 ^ d) := by ring
    have hmd : 0 < m * 2 ^ d :=
      Nat.mul_pos ((Nat.two_pow_pos d).trans_le hm) (Nat.two_pow_pos d)
    have := hlower.trans ((Nat.mul_le_mul_right _ hscaled).trans hupper)
    omega

end Nearest

end Archipelago.Proofs.Spacing
