import Archipelago.Individual
import Archipelago.Proofs.OrderedScalars
import Mathlib.Data.List.Basic

namespace Archipelago.Proofs.StrictPreference

open OrderedScalars

variable {α : Type} [Scalar α]

theorem winsSomewhere_iff {a b : List α} :
    winsSomewhere a b = true ↔ ∃ (i : Nat) (x y : α), a[i]? = some x ∧ b[i]? = some y ∧ x < y := by
  simp only [winsSomewhere, List.any_eq_true, decide_eq_true_eq]
  constructor
  · rintro ⟨pair, hpair, hlt⟩
    obtain ⟨i, hi⟩ := List.mem_iff_getElem?.mp hpair
    obtain ⟨hx, hy⟩ := List.getElem?_zip_eq_some.mp hi
    exact ⟨i, pair.1, pair.2, hx, hy, hlt⟩
  · rintro ⟨i, x, y, hx, hy, hlt⟩
    exact ⟨(x, y), List.mem_iff_getElem?.mpr ⟨i, List.getElem?_zip_eq_some.mpr ⟨hx, hy⟩⟩, hlt⟩

theorem dominates_iff {a b : List α} :
    dominates a b = true ↔ winsSomewhere a b = true ∧ winsSomewhere b a = false := by
  rw [dominates, dominance]
  split
  · simp_all
  · simp_all
  · simp_all

theorem dominates_irrefl (a : List α) : dominates a a = false := by
  rw [Bool.eq_false_iff, Ne, dominates_iff]
  rintro ⟨h, hnot⟩
  simp [h] at hnot

/-- A fitness vector of length `d` that can be ranked: a single number, or several that are all
defined. -/
def Rankable (d : Nat) (fitness : List α) : Prop :=
  fitness.length = d ∧ (d = 1 ∨ AllDefined fitness)

variable [OrderedScalar α]

/-- A vector that wins somewhere against another one wins there against any third one that is
defined, or the third one wins there. -/
theorem winsSomewhere_or {a b middle : List α} (hlength : a.length = middle.length)
    (hdefined : AllDefined middle) (h : winsSomewhere a b = true) :
    winsSomewhere a middle = true ∨ winsSomewhere middle b = true := by
  obtain ⟨i, x, y, hx, hy, hlt⟩ := winsSomewhere_iff.mp h
  have hi : i < middle.length := hlength ▸ (List.getElem?_eq_some_iff.mp hx).1
  have hz : middle[i]? = some middle[i] := List.getElem?_eq_getElem hi
  rcases OrderedScalar.lt_or_lt (hdefined middle[i] (List.getElem_mem hi)) hlt with hlt | hlt
  · exact .inl (winsSomewhere_iff.mpr ⟨i, x, middle[i], hx, hz, hlt⟩)
  · exact .inr (winsSomewhere_iff.mpr ⟨i, middle[i], y, hz, hy, hlt⟩)

theorem dominates_trans {a b c : List α} (hlength : a.length = b.length)
    (hlength' : b.length = c.length) (hb : AllDefined b) (hc : AllDefined c)
    (hab : dominates a b = true) (hbc : dominates b c = true) : dominates a c = true := by
  rw [dominates_iff, Bool.eq_false_iff] at *
  constructor
  · rcases winsSomewhere_or (hlength.trans hlength') hc hab.1 with h | h
    · exact h
    · exact absurd h hbc.2
  · intro hca
    rcases winsSomewhere_or hlength'.symm hb hca with h | h
    · exact hbc.2 h
    · exact hab.2 h

theorem fitnessPrecedes_irrefl (a : List α) : fitnessPrecedes a a = false := by
  rcases a with _ | ⟨x, _ | ⟨y, a⟩⟩
  · exact dominates_irrefl _
  · simpa [fitnessPrecedes] using OrderedScalar.lt_irrefl x
  · exact dominates_irrefl _

omit [OrderedScalar α] in
theorem fitnessPrecedes_of_length_ne_one {a b : List α} (h : a.length ≠ 1) :
    fitnessPrecedes a b = dominates a b := by
  rcases a with _ | ⟨x, _ | ⟨y, a⟩⟩
  · rfl
  · simp at h
  · rfl

theorem fitnessPrecedes_trans {d : Nat} {a b c : List α} (ha : Rankable d a) (hb : Rankable d b)
    (hc : Rankable d c) (hab : fitnessPrecedes a b = true) (hbc : fitnessPrecedes b c = true) :
    fitnessPrecedes a c = true := by
  by_cases hd : d = 1
  · subst hd
    obtain ⟨x, rfl⟩ := List.length_eq_one_iff.mp ha.1
    obtain ⟨y, rfl⟩ := List.length_eq_one_iff.mp hb.1
    obtain ⟨z, rfl⟩ := List.length_eq_one_iff.mp hc.1
    simp only [fitnessPrecedes, decide_eq_true_eq] at *
    exact OrderedScalar.lt_trans hab hbc
  · rw [fitnessPrecedes_of_length_ne_one (by rw [ha.1]; exact hd)] at hab ⊢
    rw [fitnessPrecedes_of_length_ne_one (by rw [hb.1]; exact hd)] at hbc
    exact dominates_trans (ha.1.trans hb.1.symm) (hb.1.trans hc.1.symm) (hb.2.resolve_left hd)
      (hc.2.resolve_left hd) hab hbc

omit [OrderedScalar α] in
/-- Fitness decides between feasible results, feasible results come before infeasible ones, and
among these the smaller violation comes first. -/
theorem standard_solutions_iff {fa ca fb cb : List α} :
    (Preference.standard : Archipelago.Preference α).solutions fa ca fb cb = true ↔
      feasible ca = true ∧ feasible cb = true ∧ fitnessPrecedes fa fb = true ∨
      feasible ca = true ∧ feasible cb = false ∨
      feasible ca = false ∧ feasible cb = false ∧ totalViolation ca < totalViolation cb := by
  simp only [Preference.standard, Preference.feasibleFirst, constraintsPrecede]
  cases feasible ca <;> cases feasible cb <;> simp

theorem standard_solutions_irrefl (f c : List α) :
    (Preference.standard : Archipelago.Preference α).solutions f c f c = false := by
  rw [Bool.eq_false_iff, Ne, standard_solutions_iff]
  rintro (⟨-, -, h⟩ | ⟨h, hnot⟩ | ⟨-, -, h⟩)
  · rw [fitnessPrecedes_irrefl] at h
    contradiction
  · rw [h] at hnot
    contradiction
  · exact OrderedScalar.lt_irrefl _ h

theorem standard_solutions_trans {d : Nat} {fa ca fb cb fc cc : List α} (ha : Rankable d fa)
    (hb : Rankable d fb) (hc : Rankable d fc)
    (hab : (Preference.standard : Archipelago.Preference α).solutions fa ca fb cb = true)
    (hbc : (Preference.standard : Archipelago.Preference α).solutions fb cb fc cc = true) :
    (Preference.standard : Archipelago.Preference α).solutions fa ca fc cc = true := by
  rw [standard_solutions_iff] at *
  rcases hab with ⟨hfa, hfb, hab⟩ | ⟨hfa, hfb⟩ | ⟨hfa, hfb, hab⟩
  · rcases hbc with ⟨-, hfc, hbc⟩ | ⟨-, hfc⟩ | ⟨hfb', -, -⟩
    · exact .inl ⟨hfa, hfc, fitnessPrecedes_trans ha hb hc hab hbc⟩
    · exact .inr (.inl ⟨hfa, hfc⟩)
    · simp [hfb] at hfb'
  · rcases hbc with ⟨hfb', -, -⟩ | ⟨hfb', -⟩ | ⟨-, hfc, -⟩
    · simp [hfb] at hfb'
    · simp [hfb] at hfb'
    · exact .inr (.inl ⟨hfa, hfc⟩)
  · rcases hbc with ⟨hfb', -, -⟩ | ⟨hfb', -⟩ | ⟨-, hfc, hbc⟩
    · simp [hfb] at hfb'
    · simp [hfb] at hfb'
    · exact .inr (.inr ⟨hfa, hfc, OrderedScalar.lt_trans hab hbc⟩)

theorem standard_solutions_or {fa ca fb cb fc cc : List α} (ha : fa.length = 1)
    (hb : fb.length = 1) (hc : fc.length = 1) (hdefined : AllDefined fb)
    (hviolation : totalViolation cb ≤ totalViolation cb)
    (hac : (Preference.standard : Archipelago.Preference α).solutions fa ca fc cc = true) :
    (Preference.standard : Archipelago.Preference α).solutions fa ca fb cb = true ∨
      (Preference.standard : Archipelago.Preference α).solutions fb cb fc cc = true := by
  obtain ⟨x, rfl⟩ := List.length_eq_one_iff.mp ha
  obtain ⟨y, rfl⟩ := List.length_eq_one_iff.mp hb
  obtain ⟨z, rfl⟩ := List.length_eq_one_iff.mp hc
  simp only [standard_solutions_iff, fitnessPrecedes, decide_eq_true_eq] at *
  cases hfb : feasible cb with
  | true =>
      rcases hac with ⟨hfa, hfc, hac⟩ | ⟨hfa, hfc⟩ | ⟨hfa, hfc, -⟩
      · rcases OrderedScalar.lt_or_lt (hdefined y (List.mem_singleton_self y)) hac with h | h
        · exact .inl (.inl ⟨hfa, rfl, h⟩)
        · exact .inr (.inl ⟨rfl, hfc, h⟩)
      · exact .inr (.inr (.inl ⟨rfl, hfc⟩))
      · exact .inr (.inr (.inl ⟨rfl, hfc⟩))
  | false =>
      rcases hac with ⟨hfa, -, -⟩ | ⟨hfa, -⟩ | ⟨hfa, hfc, hac⟩
      · exact .inl (.inr (.inl ⟨hfa, rfl⟩))
      · exact .inl (.inr (.inl ⟨hfa, rfl⟩))
      · rcases OrderedScalar.lt_or_lt hviolation hac with h | h
        · exact .inl (.inr (.inr ⟨hfa, rfl, h⟩))
        · exact .inr (.inr (.inr ⟨rfl, hfc, h⟩))

section Problems

variable {problem : Problem α} (hstandard : problem.preference = .standard)

include hstandard

theorem isPreferredOver_irrefl (individual : Individual α) :
    individual.isPreferredOver problem individual = false := by
  rw [Individual.isPreferredOver, hstandard]
  exact standard_solutions_irrefl individual.fitness individual.constraints

theorem isPreferredOver_trans {a b c : Individual α}
    (ha : Rankable problem.fitnessDimension a.fitness)
    (hb : Rankable problem.fitnessDimension b.fitness)
    (hc : Rankable problem.fitnessDimension c.fitness) (hab : a.isPreferredOver problem b = true)
    (hbc : b.isPreferredOver problem c = true) : a.isPreferredOver problem c = true := by
  rw [Individual.isPreferredOver, hstandard] at *
  exact standard_solutions_trans ha hb hc hab hbc

end Problems

end Archipelago.Proofs.StrictPreference
