import Archipelago.Proofs.Isolation
import Mathlib.Data.List.GetD
import Mathlib.Tactic.Tauto

namespace Archipelago.Proofs.Overflows

open CrowdingDistances
open Infinities
open Isolation
open Magnitudes
open Neighbours
open Roundings
open Samples
open Shares
open Sums

/-- There is no slot on one side of this one. -/
def AtEnd (vectors : List (List Binary64)) (objective slot : Nat) : Prop :=
  First vectors (objective + 1) slot ∨ Last vectors (objective + 1) slot

/-- The slots next to this one are farther apart than doubles reach. -/
def Gapes (vectors : List (List Binary64)) (objective slot : Nat) : Prop :=
  ∃ before after, Follows vectors (objective + 1) before slot ∧
    Follows vectors (objective + 1) slot after ∧
      ¬IsFinite (value vectors objective after - value vectors objective before)

/-- A gap is out of range, and no later objective has the slot at an end. -/
def Overflown (vectors : List (List Binary64)) (objectives slot : Nat) : Prop :=
  ∃ k < objectives, Gapes vectors k slot ∧ ∀ j < objectives, k < j → ¬AtEnd vectors j slot

section Gaps

variable {vectors : List (List Binary64)} {k slot before after : Nat}

theorem not_atEnd (hbefore : Follows vectors (k + 1) before slot)
    (hafter : Follows vectors (k + 1) slot after) : ¬AtEnd vectors k slot := by
  rintro (hfirst | hlast)
  · exact hbefore.not_first hfirst
  · exact hafter.not_last hlast

theorem Gapes.not_atEnd (h : Gapes vectors k slot) : ¬AtEnd vectors k slot := by
  obtain ⟨before, after, hbefore, hafter, -⟩ := h
  exact Overflows.not_atEnd hbefore hafter

theorem gapes_iff (hbefore : Follows vectors (k + 1) before slot)
    (hafter : Follows vectors (k + 1) slot after) :
    Gapes vectors k slot ↔ ¬IsFinite (value vectors k after - value vectors k before) := by
  constructor
  · rintro ⟨before', after', hbefore', hafter', hgap⟩
    rwa [hbefore.left_unique hbefore', hafter.right_unique hafter']
  · exact fun hgap => ⟨before, after, hbefore, hafter, hgap⟩

theorem overflown_succ_iff :
    Overflown vectors (k + 1) slot ↔
      Gapes vectors k slot ∨ Overflown vectors k slot ∧ ¬AtEnd vectors k slot := by
  constructor
  · rintro ⟨j, hj, hgapes, hlater⟩
    rcases Nat.lt_succ_iff_lt_or_eq.mp hj with hlt | rfl
    · refine .inr ⟨⟨j, hlt, hgapes, fun i hi hij => ?_⟩, hlater k k.lt_succ_self hlt⟩
      exact hlater i (hi.trans k.lt_succ_self) hij
    · exact .inl hgapes
  · rintro (hgapes | ⟨⟨j, hj, hgapes, hlater⟩, hnot⟩)
    · exact ⟨k, k.lt_succ_self, hgapes, fun j hj hkj => absurd hj (by omega)⟩
    · refine ⟨j, hj.trans k.lt_succ_self, hgapes, fun i hi hij => ?_⟩
      rcases Nat.lt_succ_iff_lt_or_eq.mp hi with hlt | rfl
      · exact hlater i hlt hij
      · exact hnot

theorem Overflown.two_lt (h : Overflown vectors k slot) : 2 < vectors.length := by
  obtain ⟨_, -, ⟨_, _, hbefore, hafter, -⟩, -⟩ := h
  exact hbefore.two_lt hafter

end Gaps

section Finite

variable {vectors : List (List Binary64)} (hfinite : ∀ vector ∈ vectors, ∀ x ∈ vector, IsFinite x)

include hfinite

theorem isFinite_value (k slot : Nat) : IsFinite (value vectors k slot) := by
  have hgetD : ∀ vector : List Binary64, (∀ x ∈ vector, IsFinite x) →
      IsFinite (vector.getD k 0) := by
    intro vector hvector
    rcases Nat.lt_or_ge k vector.length with hlt | hge
    · rw [List.getD_eq_getElem _ _ hlt]
      exact hvector _ (List.getElem_mem hlt)
    · rw [List.getD_eq_default _ _ hge]
      exact isFinite_zero
  rcases Nat.lt_or_ge slot vectors.length with hlt | hge
  · rw [value, List.getD_eq_getElem _ _ hlt]
    exact hgetD _ (hfinite _ (List.getElem_mem hlt))
  · rw [value, List.getD_eq_default _ _ hge]
    exact hgetD [] (by simp)

theorem value_le {k a b : Nat} (h : ¬Precedes vectors (k + 1) b a) :
    value vectors k a ≤ value vectors k b :=
  value_le_of_not_precedes (isNaN_of_isFinite (isFinite_value hfinite k a))
    (isNaN_of_isFinite (isFinite_value hfinite k b)) h

/-- A slot between two others gets a share that is not below zero, or nothing, if the gap is in
range, and its distance gets lost if it is not. -/
theorem between_cases {d : Binary64} {k slot before after low high : Nat}
    (hbefore : Follows vectors (k + 1) before slot) (hafter : Follows vectors (k + 1) slot after)
    (hlow : First vectors (k + 1) low) (hhigh : Last vectors (k + 1) high) {d' : Binary64}
    (hd' : (if 0 < value vectors k high - value vectors k low then
        d + (value vectors k after - value vectors k before) /
          (value vectors k high - value vectors k low)
      else d) = d') :
    (Gapes vectors k slot ∧ d'.isNaN = true) ∨
      (¬Gapes vectors k slot ∧ (d' = d ∨ ∃ share, 0 ≤ share ∧ d' = d + share)) := by
  have hbottom := value_le hfinite (hlow.2 before hbefore.left)
  have hgap := value_le hfinite (hbefore.precedes.trans hafter.precedes).asymm
  have htop := value_le hfinite (hhigh.2 after hafter.right)
  have hlow' := isFinite_value hfinite k low
  have hhigh' := isFinite_value hfinite k high
  rw [gapes_iff hbefore hafter]
  by_cases hrange : IsFinite (value vectors k after - value vectors k before)
  · refine .inr ⟨not_not.mpr hrange, ?_⟩
    split_ifs at hd' with hspan
    · exact .inr ⟨_, share_nonneg hlow' hhigh' hbottom hgap htop hrange hspan, hd'.symm⟩
    · exact .inl hd'.symm
  · obtain ⟨hspan, hshare⟩ := share_isNaN hlow' hhigh' hbottom hgap htop hrange
    rw [if_pos hspan] at hd'
    exact .inl ⟨hrange, hd' ▸ combine_isNaN (.inr hshare)⟩

end Finite

/-- What is known of the distance of a slot after some objectives. -/
structure Tracked (vectors : List (List Binary64)) (slot objectives : Nat) (d : Binary64) :
    Prop where
  undefined_iff : d.isNaN = true ↔ Overflown vectors objectives slot
  nonneg : d.isNaN = true ∨ 0 ≤ d
  extreme : ∀ k < objectives, AtEnd vectors k slot → d.isNaN = true ∨ d = Binary64.infinity

theorem tracked_infinity {vectors : List (List Binary64)} {slot m : Nat}
    (h : ¬Overflown vectors m slot) : Tracked vectors slot m Binary64.infinity where
  undefined_iff := iff_of_false (by simp [infinity_isNaN]) h
  nonneg := .inr zero_le_infinity
  extreme _ _ _ := .inr rfl

theorem Tracked.add {vectors : List (List Binary64)} {slot k : Nat} {d share : Binary64}
    (h : Tracked vectors slot k d) (hshare : 0 ≤ share) : Tracked vectors slot k (d + share) := by
  rcases h.nonneg with hundefined | hnonneg
  · have hsum : (d + share).isNaN = true := combine_isNaN (.inl hundefined)
    exact ⟨iff_of_true hsum (h.undefined_iff.mp hundefined), .inl hsum, fun _ _ _ => .inl hsum⟩
  · have hsum := add_nonneg hnonneg hshare
    refine ⟨iff_of_false (by simp [hsum.2.1]) ?_, .inr hsum, fun j hj hend => .inr ?_⟩
    · rw [← h.undefined_iff, hnonneg.2.1]
      exact Bool.false_ne_true
    · have hinfinity := (h.extreme j hj hend).resolve_left (by simp [hnonneg.2.1])
      rw [hinfinity, infinity_add hshare]

theorem Tracked.next {vectors : List (List Binary64)} {slot k : Nat} {d : Binary64}
    (h : Tracked vectors slot k d) (hgapes : ¬Gapes vectors k slot)
    (hinner : ¬AtEnd vectors k slot) : Tracked vectors slot (k + 1) d where
  undefined_iff := by
    rw [overflown_succ_iff, h.undefined_iff]
    tauto
  nonneg := h.nonneg
  extreme j hj hend := by
    rcases Nat.lt_succ_iff_lt_or_eq.mp hj with hlt | rfl
    · exact h.extreme j hlt hend
    · exact absurd hend hinner

theorem tracked_of_widened {vectors : List (List Binary64)}
    (hfinite : ∀ vector ∈ vectors, ∀ x ∈ vector, IsFinite x) {slot k : Nat} {d : Binary64}
    (h : Widened vectors slot k d) : Tracked vectors slot k d := by
  induction h with
  | zero =>
      refine ⟨iff_of_false (by decide) ?_, .inr (by decide), fun k hk => absurd hk k.not_lt_zero⟩
      rintro ⟨k, hk, -⟩
      exact k.not_lt_zero hk
  | @succ k d d' h hstep ih =>
      rcases hstep with ⟨_, hend⟩ | ⟨_, hbefore, hafter, hlow, hhigh⟩
      · refine tracked_infinity fun hoverflown => ?_
        rcases overflown_succ_iff.mp hoverflown with hgapes | ⟨-, hinner⟩
        · exact hgapes.not_atEnd hend
        · exact hinner hend
      · rcases between_cases hfinite hbefore hafter hlow hhigh rfl with
          ⟨hgapes, hundefined⟩ | ⟨hgapes, hsame | ⟨share, hshare, hsum⟩⟩
        · exact ⟨iff_of_true hundefined (overflown_succ_iff.mpr (.inl hgapes)), .inl hundefined,
            fun _ _ _ => .inl hundefined⟩
        · rw [hsame]
          exact ih.next hgapes (not_atEnd hbefore hafter)
        · rw [hsum]
          exact (ih.add hshare).next hgapes (not_atEnd hbefore hafter)

/-- All distances are numbers, and for each objective there are vectors with the lowest and the
highest value that are infinitely far away. -/
structure Usable (vectors : List (List Binary64)) (m : Nat) : Prop where
  nonneg : ∀ d ∈ Crowding.distance vectors, 0 ≤ d
  lowest : ∀ k < m, ∃ slot : Nat, Lowest (column vectors k) (value vectors k slot) ∧
    (Crowding.distance vectors)[slot]? = some Binary64.infinity
  highest : ∀ k < m, ∃ slot : Nat, Highest (column vectors k) (value vectors k slot) ∧
    (Crowding.distance vectors)[slot]? = some Binary64.infinity

/-- Distances are undefined for the slots with a gap out of range only. -/
structure UsableUnlessOverflown (vectors : List (List Binary64)) (m : Nat) : Prop where
  length : (Crowding.distance vectors).length = vectors.length
  nonneg : ∀ d ∈ Crowding.distance vectors, d.isNaN = true ∨ 0 ≤ d
  undefined_iff : ∀ (slot : Nat) (d : Binary64), (Crowding.distance vectors)[slot]? = some d →
    (d.isNaN = true ↔ Overflown vectors m slot)
  lowest : vectors ≠ [] → ∀ k < m, ∃ (slot : Nat) (d : Binary64),
    Lowest (column vectors k) (value vectors k slot) ∧
      (Crowding.distance vectors)[slot]? = some d ∧ (d.isNaN = true ∨ d = Binary64.infinity)
  highest : vectors ≠ [] → ∀ k < m, ∃ (slot : Nat) (d : Binary64),
    Highest (column vectors k) (value vectors k slot) ∧
      (Crowding.distance vectors)[slot]? = some d ∧ (d.isNaN = true ∨ d = Binary64.infinity)
  usable : vectors ≠ [] → (∀ k < m, ∀ low high, Lowest (column vectors k) low →
    Highest (column vectors k) high → IsFinite (high - low)) → Usable vectors m

section Distances

variable {vectors : List (List Binary64)} {m : Nat}
  (hlength : ∀ vector ∈ vectors, vector.length = m)
  (hfinite : ∀ vector ∈ vectors, ∀ x ∈ vector, IsFinite x)

include hfinite

theorem column_defined (k : Nat) : ∀ x ∈ column vectors k, x.isNaN = false := by
  intro x hx
  obtain ⟨slot, -, rfl⟩ := exists_value hx
  exact isNaN_of_isFinite (isFinite_value hfinite k slot)

theorem not_overflown (hne : vectors ≠ []) {slot : Nat}
    (hspan : ∀ k < m, ∀ low high, Lowest (column vectors k) low →
      Highest (column vectors k) high → IsFinite (high - low)) : ¬Overflown vectors m slot := by
  rintro ⟨k, hk, ⟨before, after, hbefore, hafter, hgap⟩, -⟩
  obtain ⟨low, hlow⟩ := exists_first (k + 1) hne
  obtain ⟨high, hhigh⟩ := exists_last (k + 1) hne
  have hdefined := column_defined hfinite k
  refine hgap (isFinite_gap (isFinite_value hfinite k low) (isFinite_value hfinite k high)
    (value_le hfinite (hlow.2 before hbefore.left))
    (value_le hfinite (hbefore.precedes.trans hafter.precedes).asymm)
    (value_le hfinite (hhigh.2 after hafter.right)) ?_)
  exact hspan k hk _ _ (lowest_of_first hdefined hlow) (highest_of_last hdefined hhigh)

include hlength

theorem exists_tracked {slot : Nat} (hslot : slot < vectors.length) :
    ∃ d, (Crowding.distance vectors)[slot]? = some d ∧ Tracked vectors slot m d := by
  rcases Nat.lt_or_ge 2 vectors.length with hlarge | hsmall
  · have hhead : (vectors.headD []).length = m := by
      match vectors with
      | vector :: rest => exact hlength vector List.mem_cons_self
    obtain ⟨d, hd, hwidened⟩ := exists_widened hlarge hslot
    exact ⟨d, hd, hhead ▸ tracked_of_widened hfinite hwidened⟩
  · refine ⟨_, ofFront_small hsmall hslot, tracked_infinity fun h => ?_⟩
    exact Nat.not_lt.mpr hsmall h.two_lt

theorem tracked_of_mem {slot : Nat} {d : Binary64}
    (hd : (Crowding.distance vectors)[slot]? = some d) : Tracked vectors slot m d := by
  have hslot : slot < vectors.length := by
    rw [← ofFront_length vectors]
    exact (List.getElem?_eq_some_iff.mp hd).1
  obtain ⟨d', hd', htracked⟩ := exists_tracked hlength hfinite hslot
  rw [hd, Option.some.injEq] at hd'
  exact hd' ▸ htracked

theorem exists_lowest (hne : vectors ≠ []) {k : Nat} (hk : k < m) :
    ∃ (slot : Nat) (d : Binary64), Lowest (column vectors k) (value vectors k slot) ∧
      (Crowding.distance vectors)[slot]? = some d ∧ (d.isNaN = true ∨ d = Binary64.infinity) := by
  obtain ⟨slot, hfirst⟩ := exists_first (k + 1) hne
  obtain ⟨d, hd, htracked⟩ := exists_tracked hlength hfinite hfirst.1
  exact ⟨slot, d, lowest_of_first (column_defined hfinite k) hfirst, hd,
    htracked.extreme k hk (.inl hfirst)⟩

theorem exists_highest (hne : vectors ≠ []) {k : Nat} (hk : k < m) :
    ∃ (slot : Nat) (d : Binary64), Highest (column vectors k) (value vectors k slot) ∧
      (Crowding.distance vectors)[slot]? = some d ∧ (d.isNaN = true ∨ d = Binary64.infinity) := by
  obtain ⟨slot, hlast⟩ := exists_last (k + 1) hne
  obtain ⟨d, hd, htracked⟩ := exists_tracked hlength hfinite hlast.1
  exact ⟨slot, d, highest_of_last (column_defined hfinite k) hlast, hd,
    htracked.extreme k hk (.inr hlast)⟩

theorem usable_of_spans (hne : vectors ≠ []) (hspan : ∀ k < m, ∀ low high,
    Lowest (column vectors k) low → Highest (column vectors k) high → IsFinite (high - low)) :
    Usable vectors m := by
  have hdefined : ∀ {slot : Nat} {d : Binary64},
      (Crowding.distance vectors)[slot]? = some d → ¬d.isNaN = true := fun hd =>
    (tracked_of_mem hlength hfinite hd).undefined_iff.not.mpr (not_overflown hfinite hne hspan)
  refine ⟨fun d hd => ?_, fun k hk => ?_, fun k hk => ?_⟩
  · obtain ⟨slot, hslot⟩ := List.getElem?_of_mem hd
    exact (tracked_of_mem hlength hfinite hslot).nonneg.resolve_left (hdefined hslot)
  · obtain ⟨slot, d, hlowest, hd, hinfinity⟩ := exists_lowest hlength hfinite hne hk
    exact ⟨slot, hlowest, hinfinity.resolve_left (hdefined hd) ▸ hd⟩
  · obtain ⟨slot, d, hhighest, hd, hinfinity⟩ := exists_highest hlength hfinite hne hk
    exact ⟨slot, hhighest, hinfinity.resolve_left (hdefined hd) ▸ hd⟩

theorem distances_usable_unless_overflown : UsableUnlessOverflown vectors m where
  length := ofFront_length vectors
  nonneg d hd := by
    obtain ⟨slot, hslot⟩ := List.getElem?_of_mem hd
    exact (tracked_of_mem hlength hfinite hslot).nonneg
  undefined_iff slot d hd := (tracked_of_mem hlength hfinite hd).undefined_iff
  lowest hne k hk := exists_lowest hlength hfinite hne hk
  highest hne k hk := exists_highest hlength hfinite hne hk
  usable hne hspan := usable_of_spans hlength hfinite hne hspan

end Distances

/-- Three vectors, of which the second one has the lowest value of one objective, and is between
values of the other that are too far apart. -/
def farApart : List (List Binary64) :=
  [[1, ⟨0xffefffffffffffff⟩], [0, 0], [.ofNat 6, ⟨0x7fefffffffffffff⟩]]

theorem farApart_undefined :
    ∃ d, (Crowding.distance farApart)[1]? = some d ∧ d.isNaN = true ∧
      Lowest (column farApart 0) (value farApart 0 1) := by
  have hlength : ∀ vector ∈ farApart, vector.length = 2 := by decide
  have hfinite : ∀ vector ∈ farApart, ∀ x ∈ vector, IsFinite x := by decide +kernel
  have husable := distances_usable_unless_overflown hlength hfinite
  have hlt : 1 < (Crowding.distance farApart).length := by
    rw [husable.length]
    decide
  have hgapes : Gapes farApart 1 1 := ⟨0, 2, by decide +kernel⟩
  have hoverflown : Overflown farApart 2 1 := by
    refine ⟨1, by decide, hgapes, fun j hj hlt => ?_⟩
    omega
  refine ⟨_, List.getElem?_eq_getElem hlt, ?_, by decide +kernel⟩
  exact (husable.undefined_iff 1 _ (List.getElem?_eq_getElem hlt)).mpr hoverflown

end Archipelago.Proofs.Overflows
