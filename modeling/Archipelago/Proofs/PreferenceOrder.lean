import Archipelago.Proofs.StrictPreference
import Archipelago.Proofs.Sums

namespace Archipelago.Proofs.PreferenceOrder

open OrderedScalars
open StrictPreference
open Sums

/-- Fitness and constraint values of a candidate. -/
structure Outcome where
  fitness : List Binary64
  constraints : List Binary64

namespace Outcome

/-- The first outcome is preferred over the second one by default. -/
def Beats (a b : Outcome) : Prop :=
  (Preference.standard : Archipelago.Preference Binary64).solutions a.fitness a.constraints
    b.fitness b.constraints = true

instance (a b : Outcome) : Decidable (a.Beats b) :=
  inferInstanceAs (Decidable (_ = _))

def Incomparable (a b : Outcome) : Prop :=
  ¬a.Beats b ∧ ¬b.Beats a

/-- There are `d` fitness values.  None of them is undefined, unless there is just one. -/
def Ranked (d : Nat) (a : Outcome) : Prop :=
  a.fitness.length = d ∧ (d = 1 ∨ ∀ x ∈ a.fitness, x.isNaN = false)

/-- There is one fitness value, and it is not undefined. -/
def Single (a : Outcome) : Prop :=
  a.fitness.length = 1 ∧ ∀ x ∈ a.fitness, x.isNaN = false

theorem Ranked.rankable {d : Nat} {a : Outcome} (h : a.Ranked d) : Rankable d a.fitness :=
  ⟨h.1, h.2.imp_right allDefined_iff.mpr⟩

theorem not_beats_self (a : Outcome) : ¬a.Beats a := by
  rw [Beats, standard_solutions_irrefl]
  decide

theorem Beats.trans {d : Nat} {a b c : Outcome} (ha : a.Ranked d) (hb : b.Ranked d)
    (hc : c.Ranked d) (hab : a.Beats b) (hbc : b.Beats c) : a.Beats c :=
  standard_solutions_trans ha.rankable hb.rankable hc.rankable hab hbc

theorem not_beats_feasible {a b : Outcome} (ha : feasible a.constraints = false)
    (hb : feasible b.constraints = true) : ¬a.Beats b := by
  rw [Beats, standard_solutions_iff, ha, hb]
  simp

theorem Beats.or {a b c : Outcome} (ha : a.Single) (hb : b.Single) (hc : c.Single)
    (hac : a.Beats c) : a.Beats b ∨ b.Beats c :=
  standard_solutions_or ha.1 hb.1 hc.1 (allDefined_iff.mpr hb.2)
    (le_self_iff.mpr (totalViolation_isNaN b.constraints)) hac

/-- What is incomparable with an outcome is not preferred over anything else that is. -/
theorem not_beats_of_incomparable {a b c : Outcome} (ha : a.Single) (hb : b.Single) (hc : c.Single)
    (hab : ¬a.Beats b) (hbc : ¬b.Beats c) : ¬a.Beats c := by
  intro hac
  rcases hac.or ha hb hc with h | h
  · exact hab h
  · exact hbc h

end Outcome

open Outcome

/-- The default preference is irreflexive, asymmetric and transitive on outcomes whose fitness can
be ranked, with any constraint values, and it puts nothing infeasible before anything feasible.  On
outcomes with a single defined fitness value incomparability is transitive too. -/
theorem default_preference_is_strict_order (d : Nat) :
    (∀ a : Outcome, a.Ranked d → ¬a.Beats a) ∧
    (∀ a b : Outcome, a.Ranked d → b.Ranked d → a.Beats b → ¬b.Beats a) ∧
    (∀ a b c : Outcome, a.Ranked d → b.Ranked d → c.Ranked d →
      a.Beats b → b.Beats c → a.Beats c) ∧
    (∀ a b : Outcome, feasible a.constraints = false → feasible b.constraints = true →
      ¬a.Beats b) ∧
    (∀ a b c : Outcome, a.Single → b.Single → c.Single →
      a.Incomparable b → b.Incomparable c → a.Incomparable c) := by
  refine ⟨fun a _ => not_beats_self a, ?_, ?_, ?_, ?_⟩
  · intro a b ha hb hab hba
    exact not_beats_self a (hab.trans ha hb ha hba)
  · intro a b c ha hb hc hab hbc
    exact hab.trans ha hb hc hbc
  · intro a b ha hb
    exact not_beats_feasible ha hb
  · intro a b c ha hb hc hab hbc
    exact ⟨not_beats_of_incomparable ha hb hc hab.1 hbc.1,
      not_beats_of_incomparable hc hb ha hbc.2 hab.2⟩

theorem undefined_between_feasible_and_violated :
    Beats ⟨[.invalid], [0]⟩ ⟨[0], [.invalid]⟩ ∧ Beats ⟨[0], [.invalid]⟩ ⟨[-1], [1]⟩ ∧
      Beats ⟨[.invalid], [0]⟩ ⟨[-1], [1]⟩ ∧ ¬Beats ⟨[-1], [1]⟩ ⟨[.invalid], [0]⟩ := by
  obtain ⟨-, hasymm, htrans, -, -⟩ := default_preference_is_strict_order 1
  have hfeasible : Ranked 1 ⟨[.invalid], [0]⟩ := ⟨rfl, .inl rfl⟩
  have hundefined : Ranked 1 ⟨[0], [.invalid]⟩ := ⟨rfl, .inl rfl⟩
  have hviolated : Ranked 1 ⟨[-1], [1]⟩ := ⟨rfl, .inl rfl⟩
  have hfirst : Beats ⟨[.invalid], [0]⟩ ⟨[0], [.invalid]⟩ := by decide +kernel
  have hsecond : Beats ⟨[0], [.invalid]⟩ ⟨[-1], [1]⟩ := by decide +kernel
  have hboth := htrans _ _ _ hfeasible hundefined hviolated hfirst hsecond
  exact ⟨hfirst, hsecond, hboth, hasymm _ _ hfeasible hviolated hboth⟩

end Archipelago.Proofs.PreferenceOrder
