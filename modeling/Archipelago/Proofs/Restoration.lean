import Archipelago.Proofs.Extraction
import Archipelago.Proofs.Operations
import Archipelago.Proofs.Settlement

namespace Archipelago.Proofs.Restoration

open Actions
open Extraction
open Independence
open Operations
open OrderedScalars
open Relation
open Runs
open Settlement
open StrictPreference

variable {σ α : Type} [Scalar α]

section Copies

variable {n : Nat} {population edited : Population α} {deme : Deme α}

theorem length_individuals (h : Sampled n population deme) :
    deme.individuals.length = deme.picks.length := by
  have hlength := congrArg List.length h.individuals_eq
  rwa [List.length_map, List.length_map] at hlength

theorem picks_of_arrivals (h : Sampled n population deme) :
    deme.arrivals.map Prod.snd = deme.picks :=
  List.map_snd_zip (length_individuals h).ge

theorem occupant_of_arrival (h : Sampled n population deme) {arrival : Individual α × Nat}
    (harrival : arrival ∈ deme.arrivals) :
    population.individuals[arrival.2]? = some arrival.1 := by
  obtain ⟨i, hi⟩ := List.mem_iff_getElem?.mp harrival
  obtain ⟨hindividual, hslot⟩ := List.getElem?_zip_eq_some.mp hi
  obtain ⟨pick, hpick, hoccupant⟩ := pick_of_occupant h.individuals_eq hindividual
  obtain rfl := Option.some.inj (hslot.symm.trans hpick)
  exact hoccupant

theorem check_sampled (h : Sampled n population deme)
    (hshapes : ∀ individual ∈ population.individuals,
      individual.checkShape population.problem = .ok ()) :
    deme.check population = .ok () := by
  rw [check_eq_ok_iff_arrivals (length_individuals h), picks_of_arrivals h]
  refine ⟨h.picks_mem.2.1, fun arrival harrival => ?_⟩
  have hoccupant := occupant_of_arrival h harrival
  exact ⟨(List.getElem?_eq_some_iff.mp hoccupant).1, hshapes _ (List.mem_of_getElem? hoccupant)⟩

/-- A population that differs from the one before in the slots of a deme only is settled by going
back to it. -/
theorem settled_back (h : Sampled n population deme)
    (hagree : AgreeOn {pick | pick ∈ deme.picks}ᶜ population edited) :
    Settled (fun incomer _ => incomer) deme.arrivals edited population where
  problem_eq := hagree.problem_eq
  size_eq := hagree.size_eq
  picked arrival harrival := by
    have hoccupant := occupant_of_arrival h harrival
    have hslot : arrival.2 < edited.size :=
      hagree.size_eq ▸ (List.getElem?_eq_some_iff.mp hoccupant).1
    exact ⟨edited.individuals[arrival.2], List.getElem?_eq_getElem hslot, hoccupant⟩
  others slot hslot := by
    rw [picks_of_arrivals h] at hslot
    exact hagree.slot_eq slot hslot

theorem overwrite_back (h : Sampled n population deme) (hcheck : deme.check population = .ok ())
    (hagree : AgreeOn {pick | pick ∈ deme.picks}ᶜ population edited) :
    edited.overwrite deme.arrivals = population := by
  rw [hagree.check_eq] at hcheck
  exact (overwrite_settled_of_check hcheck).unique (settled_back h hagree) fun _ => Iff.rfl

theorem survivor_self (problem : Problem α) (individual : Individual α) :
    survivor problem individual individual = individual :=
  ite_self individual

theorem merge_back [OrderedScalar α] (h : Sampled n population deme)
    (hcheck : deme.check population = .ok ())
    (hstandard : population.problem.preference = .standard) :
    population.merge deme.arrivals = (population, 0) := by
  obtain ⟨hsettled, hcount⟩ := merge_settled_of_check hcheck
  have hself : Settled (survivor population.problem) deme.arrivals population population := by
    refine ⟨rfl, rfl, fun arrival harrival => ?_, fun _ _ => rfl⟩
    have hoccupant := occupant_of_arrival h harrival
    exact ⟨arrival.1, hoccupant, by rw [survivor_self]; exact hoccupant⟩
  refine Prod.ext (hsettled.unique hself fun _ => Iff.rfl) ?_
  rw [hcount, List.countP_eq_zero]
  intro arrival harrival
  rw [takesSlot, Population.get?, occupant_of_arrival h harrival, Option.any_some,
    isPreferredOver_irrefl hstandard]
  exact Bool.false_ne_true

end Copies

section Edits

variable {slots : Set Nat} {before next : Population α}

/-- Operations that write a single slot, which is one of those given. -/
def EditsOne (slots : Set Nat) : Operation α → Prop
  | .substitute index _ => index ∈ slots
  | .setDecision index _ => index ∈ slots
  | .setVelocity index _ => index ∈ slots
  | _ => False

variable [Elementary α] [Extended α]

/-- One edit of some slots, which may also fail. -/
def Edit (slots : Set Nat) (before next : Population α) : Prop :=
  ∃ operation : Operation α, EditsOne slots operation ∧ operation.Leads before next

theorem agreeOn_of_edit (h : Edit slots before next) : AgreeOn slotsᶜ before next := by
  obtain ⟨operation, hedits, hleads⟩ := h
  cases effect_of_leads hleads with
  | unchanged => exact AgreeOn.refl _ _
  | substitute | setDecision | setVelocity =>
      exact agreeOn_set_right (not_not.mpr hedits) before _
  | _ => exact hedits.elim

theorem agreeOn_of_edits (h : ReflTransGen (Edit slots) before next) :
    AgreeOn slotsᶜ before next := by
  induction h with
  | refl => exact AgreeOn.refl _ _
  | tail _ hedit ih => exact ih.trans (agreeOn_of_edit hedit)

end Edits

/-- Putting back a deme that has been extracted changes nothing.  If every migrant takes its slot,
it also undoes all edits of the slots that are picked. -/
theorem extracted_deme_restores [OrderedScalar α] [Elementary α] [Extended α] [Source σ α] {n : Nat}
    {island : Island σ α} (hstandard : island.population.problem.preference = .standard)
    (hshapes : ∀ individual ∈ island.population.individuals,
      individual.checkShape island.population.problem = .ok ())
    (hn : n ≤ island.population.size) :
    ∃ deme next, Island.extractDeme n island = .ok deme next ∧
      ∀ (ρ : Type) (other : Island ρ α),
        (other.population = island.population →
          (∃ last, Island.insertDeme deme other = .ok 0 last ∧
            last.population = island.population) ∧
          Island.insertDemeForced deme other = .ok () other) ∧
        (ReflTransGen (Edit {pick | pick ∈ deme.picks}) island.population other.population →
          Island.insertDemeForced deme other =
            .ok () { other with population := island.population }) := by
  obtain ⟨deme, hextract, -, hsampled⟩ := extractDeme_of_le hn
  have hcheck := check_sampled hsampled hshapes
  have hrestores : ∀ (ρ : Type) (other : Island ρ α),
      ReflTransGen (Edit {pick | pick ∈ deme.picks}) island.population other.population →
        Island.insertDemeForced deme other =
          .ok () { other with population := island.population } := by
    intro ρ other hedits
    have hagree := agreeOn_of_edits hedits
    rw [insertDemeForced_eq_ok_iff, ← hagree.check_eq, overwrite_back hsampled hcheck hagree]
    exact ⟨hcheck, rfl⟩
  refine ⟨deme, _, hextract, fun ρ other => ⟨fun hsame => ⟨?_, ?_⟩, hrestores ρ other⟩⟩
  · refine ⟨_, insertDeme_eq_ok_iff.mpr ⟨hsame ▸ hcheck, ?_, rfl⟩, ?_⟩
    · rw [hsame, merge_back hsampled hcheck hstandard]
    · rw [hsame, merge_back hsampled hcheck hstandard]
  · -- a population without any edits is one of those that are restored
    have hforced := hrestores ρ other (hsame ▸ .refl)
    rwa [← hsame] at hforced

theorem shape_triple {individual : Individual Binary64}
    (hindividual : individual ∈ triple.population.individuals) :
    individual.checkShape triple.population.problem = .ok () := by
  have hdecision : ∃ decision ∈ ([[-1], [0], [1]] : List (List Binary64)),
      evaluated interval decision [0] = individual := List.mem_map.mp hindividual
  obtain ⟨decision, hdecision, rfl⟩ := hdecision
  simp only [List.mem_cons, List.not_mem_nil, or_false] at hdecision
  rcases hdecision with rfl | rfl | rfl <;> exact checkShape_eq_ok_iff.mpr ⟨rfl, rfl, rfl, rfl⟩

theorem triple_restored :
    ∃ deme next, Island.extractDeme 2 triple = .ok deme next ∧
      (∃ last, Island.insertDeme deme next = .ok 0 last ∧
        last.population = triple.population) ∧
      Island.insertDemeForced deme
        { next with population := triple.population.set 2 (evaluated interval [0] [0]) } =
          .ok () { next with population := triple.population } := by
  have hn : 2 ≤ triple.population.size := Nat.le_succ 2
  obtain ⟨deme, hextract, hpicks, -⟩ := extractDeme_of_le hn
  obtain ⟨same, next, hsame, hrestores⟩ :=
    extracted_deme_restores rfl (fun _ hindividual => shape_triple hindividual) hn
  cases hextract.symm.trans hsame
  have hpicked : 2 ∈ deme.picks := by
    have hsize : triple.population.size = 3 := rfl
    rw [hpicks, hsize, positions_triple]
    exact List.mem_cons_self
  have hedit : Edit {pick | pick ∈ deme.picks} triple.population
      (triple.population.set 2 (evaluated interval [0] [0])) := by
    refine ⟨.substitute 2 (evaluated interval [0] [0]), hpicked, Script Binary64, inferInstance,
      triple.session, ?_⟩
    have hmember : triple.population.member 2 = .ok (evaluated interval [1] [0]) := rfl
    have hshape : (evaluated interval [0] [0]).checkShape triple.population.problem = .ok () :=
      checkShape_eq_ok_iff.mpr ⟨rfl, rfl, rfl, rfl⟩
    rw [Operation.apply, substitute_eq, hmember, hshape]
    rfl
  have hinsert : ∀ other : Island (Script Binary64) Binary64,
      other.population = triple.population → ∃ last, Island.insertDeme deme other = .ok 0 last ∧
        last.population = triple.population :=
    fun other hother => ((hrestores _ other).1 hother).1
  exact ⟨deme, _, hextract, hinsert _ rfl, (hrestores _ _).2 (.single hedit)⟩

end Archipelago.Proofs.Restoration
