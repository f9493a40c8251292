import Archipelago.Proofs.EarliestFaults
import Archipelago.Proofs.Failures

namespace Archipelago.Proofs.Faults

open Actions
open EarliestFaults
open Failures
open Runs
open Selection

variable {σ α β : Type} [Scalar α]

/-- What may be wrong with one component. -/
inductive ComponentFault (continuous index : Nat) (l u x : α) : Place → Violation α → Prop where
  | range (h : ¬(l ≤ x ∧ x ≤ u)) :
      ComponentFault continuous index l u x [0] (.outOfBounds index x l u)
  | wholeness (hindex : continuous ≤ index) (h : ¬Scalar.IsWhole x) :
      ComponentFault continuous index l u x [1] (.nonIntegral index x)

omit [Scalar α] in
theorem reports_checkLength (expected actual : Nat) :
    Reports (checkLength expected actual : Except (Violation α) Unit) fun place cause =>
      actual ≠ expected ∧ place = [] ∧ cause = .dimensionMismatch expected actual := by
  have hcheck : (checkLength expected actual : Except (Violation α) Unit) =
      if actual ≠ expected then .error (.dimensionMismatch expected actual) else .ok () := by
    rw [checkLength, ite_not, ← ite_congr (propext eq_comm) (fun _ => rfl) fun _ => rfl]
  rw [hcheck]
  exact reports_guard [] _

theorem reports_component (continuous index : Nat) (l u x : α) :
    Reports
      (if ¬(l ≤ x ∧ x ≤ u) then .error (.outOfBounds index x l u)
        else if continuous ≤ index ∧ ¬Scalar.IsWhole x then .error (.nonIntegral index x)
        else .ok ())
      (ComponentFault continuous index l u x) := by
  refine (reports_guards _ _).congr fun place cause => ?_
  constructor
  · rintro (h | ⟨hindex, h⟩)
    · exact .inl ⟨h, rfl, rfl⟩
    · exact .inr ⟨⟨hindex, h⟩, rfl, rfl⟩
  · rintro (⟨h, rfl, rfl⟩ | ⟨⟨hindex, h⟩, rfl, rfl⟩)
    · exact .range h
    · exact .wholeness hindex h

theorem reports_checkComponents (continuous index : Nat) (lower upper decision : List α) :
    Reports (checkComponents continuous index lower upper decision)
      (listed index fun offset place cause => ∃ l u x, lower[offset]? = some l ∧
        upper[offset]? = some u ∧ decision[offset]? = some x ∧
        ComponentFault continuous (index + offset) l u x place cause) := by
  induction decision generalizing index lower upper with
  | nil =>
      have hok : checkComponents continuous index lower upper [] = .ok () := by
        cases lower with
        | nil => rfl
        | cons l lower => cases upper <;> rfl
      rw [hok]
      refine reports_ok ?_
      rintro place cause ⟨offset, rest, -, l, u, x, -, -, hx, -⟩
      contradiction
  | cons x decision ih =>
      cases lower with
      | nil =>
          refine reports_ok ?_
          rintro place cause ⟨offset, rest, -, l, u, x, hl, -⟩
          contradiction
      | cons l lower =>
          cases upper with
          | nil =>
              refine reports_ok ?_
              rintro place cause ⟨offset, rest, -, l, u, x, -, hu, -⟩
              contradiction
          | cons u upper =>
              rw [checkComponents, guards_bind]
              refine Reports.cons ((reports_component continuous index l u x).congr ?_) fun _ => ?_
              · intro place cause
                simp
              · simpa only [List.getElem?_cons_succ, Nat.add_assoc, Nat.add_comm 1] using
                  ih (index + 1) lower upper

section Shapes

variable {problem : Problem α}

/-- The problem has bounds for every component and checks decisions against them. -/
structure ChecksBounds (problem : Problem α) : Prop where
  lower_length : problem.dimension ≤ problem.lower.length
  upper_length : problem.dimension ≤ problem.upper.length
  verify_eq : problem.verify = fun decision => do
    checkLength problem.dimension decision.length
    checkComponents problem.continuousDimension 0 problem.lower problem.upper decision

inductive DecisionFault (problem : Problem α) (decision : List α) :
    Place → Violation α → Prop where
  | length (h : decision.length ≠ problem.dimension) :
      DecisionFault problem decision [0] (.dimensionMismatch problem.dimension decision.length)
  | component {index : Nat} {l u x : α} {place : Place} {cause : Violation α}
      (hlower : problem.lower[index]? = some l) (hupper : problem.upper[index]? = some u)
      (hx : decision[index]? = some x)
      (h : ComponentFault problem.continuousDimension index l u x place cause) :
      DecisionFault problem decision (1 :: index :: place) cause

theorem reports_verify (h : ChecksBounds problem) (decision : List α) :
    Reports (problem.verify decision) (DecisionFault problem decision) := by
  rw [h.verify_eq]
  have hlength := (reports_checkLength (α := α) problem.dimension decision.length).under 0
  have hcomponents := (reports_checkComponents problem.continuousDimension 0 problem.lower
    problem.upper decision).under 1
  refine (hlength.bind (fun _ => hcomponents)
    fun _ _ _ _ hp hq => under_lt_under Nat.zero_lt_one hp hq).congr fun place cause => ?_
  simp only [under, listed_zero_iff, Nat.zero_add]
  constructor
  · rintro (hne | ⟨hlower, hupper, hx, hfault⟩)
    · exact .inl ⟨[], rfl, hne, rfl, rfl⟩
    · exact .inr ⟨_, rfl, _, _, rfl, _, _, _, hlower, hupper, hx, hfault⟩
  · rintro (⟨_, rfl, hne, rfl, rfl⟩ | ⟨_, rfl, _, _, rfl, _, _, _, hlower, hupper, hx, hfault⟩)
    · exact .length hne
    · exact .component hlower hupper hx hfault

inductive ShapeFault (problem : Problem α) (individual : Individual α) :
    Place → Violation α → Prop where
  | decision {place : Place} {cause : Violation α}
      (h : DecisionFault problem individual.decision place cause) :
      ShapeFault problem individual (0 :: place) cause
  | velocity (h : individual.velocity.length ≠ individual.decision.length) :
      ShapeFault problem individual [1]
        (.dimensionMismatch individual.decision.length individual.velocity.length)
  | fitness (h : individual.fitness.length ≠ problem.fitnessDimension) :
      ShapeFault problem individual [2]
        (.dimensionMismatch problem.fitnessDimension individual.fitness.length)
  | constraints (h : individual.constraints.length ≠ problem.constraintDimension) :
      ShapeFault problem individual [3]
        (.dimensionMismatch problem.constraintDimension individual.constraints.length)

theorem reports_checkShape (h : ChecksBounds problem) (individual : Individual α) :
    Reports (individual.checkShape problem) (ShapeFault problem individual) := by
  have hdecision := (reports_verify h individual.decision).under 0
  have hlength := fun number expected actual : Nat =>
    (reports_checkLength (α := α) expected actual).under number
  have hconstraints := hlength 3 problem.constraintDimension individual.constraints.length
  have hfitness := (hlength 2 problem.fitnessDimension individual.fitness.length).bind
    (fun _ => hconstraints) fun _ _ _ _ hp hq => under_lt_under (by decide) hp hq
  have hvelocity := (hlength 1 individual.decision.length individual.velocity.length).bind
    (fun _ => hfitness) fun _ _ _ _ hp hq =>
      hq.elim (under_lt_under (by decide) hp) (under_lt_under (by decide) hp)
  refine (hdecision.bind (fun _ => hvelocity) ?_).congr fun place cause => ?_
  · rintro _ _ _ _ hp (hq | hq | hq)
    · exact under_lt_under (by decide) hp hq
    · exact under_lt_under (by decide) hp hq
    · exact under_lt_under (by decide) hp hq
  simp only [under]
  constructor
  · rintro (hfault | hne | hne | hne)
    · exact .inl ⟨_, rfl, hfault⟩
    · exact .inr (.inl ⟨[], rfl, hne, rfl, rfl⟩)
    · exact .inr (.inr (.inl ⟨[], rfl, hne, rfl, rfl⟩))
    · exact .inr (.inr (.inr ⟨[], rfl, hne, rfl, rfl⟩))
  · rintro (⟨_, rfl, hfault⟩ | ⟨_, rfl, hne, rfl, rfl⟩ | ⟨_, rfl, hne, rfl, rfl⟩ |
      ⟨_, rfl, hne, rfl, rfl⟩)
    · exact .decision hfault
    · exact .velocity hne
    · exact .fitness hne
    · exact .constraints hne

end Shapes

inductive PickFault (size : Nat) (earlier : List Nat) (pick : Nat) :
    Place → Violation α → Prop where
  | range (h : size ≤ pick) : PickFault size earlier pick [0] (.indexOutOfRange pick size)
  | repetition (h : pick ∈ earlier) : PickFault size earlier pick [1] (.duplicatePick pick)

omit [Scalar α] in
theorem reports_pick (size : Nat) (seen : List Nat) (pick : Nat) :
    Reports
      (if size ≤ pick then .error (.indexOutOfRange pick size)
        else if pick ∈ seen then .error (.duplicatePick pick) else .ok ())
      (PickFault (α := α) size seen.reverse pick) := by
  refine (reports_guards _ _).congr fun place cause => ?_
  constructor
  · rintro (h | h)
    · exact .inl ⟨h, rfl, rfl⟩
    · exact .inr ⟨List.mem_reverse.mp h, rfl, rfl⟩
  · rintro (⟨h, rfl, rfl⟩ | ⟨h, rfl, rfl⟩)
    · exact .range h
    · exact .repetition (List.mem_reverse.mpr h)

omit [Scalar α] in
theorem reports_checkPicks (size start : Nat) (seen picks : List Nat) :
    Reports (Deme.checkPicks size seen picks)
      (listed start fun offset place cause => ∃ pick, picks[offset]? = some pick ∧
        PickFault (α := α) size (seen.reverse ++ picks.take offset) pick place cause) := by
  induction picks generalizing seen start with
  | nil =>
      refine reports_ok ?_
      rintro place cause ⟨offset, rest, -, pick, hpick, -⟩
      contradiction
  | cons pick picks ih =>
      rw [Deme.checkPicks, guards_bind]
      refine Reports.cons ((reports_pick size seen pick).congr ?_) fun _ => ?_
      · intro place cause
        simp
      · simpa using ih (start + 1) (pick :: seen)

inductive DemeFault (population : Population α) (deme : Deme α) :
    Place → Violation α → Prop where
  | lengths (h : deme.individuals.length ≠ deme.picks.length) :
      DemeFault population deme [0]
        (.demeLengthMismatch deme.individuals.length deme.picks.length)
  | pick {position pick : Nat} {place : Place} {cause : Violation α}
      (hpick : deme.picks[position]? = some pick)
      (h : PickFault population.size (deme.picks.take position) pick place cause) :
      DemeFault population deme (1 :: position :: place) cause
  | individual {position : Nat} {individual : Individual α} {place : Place} {cause : Violation α}
      (hindividual : deme.individuals[position]? = some individual)
      (h : ShapeFault population.problem individual place cause) :
      DemeFault population deme (2 :: position :: place) cause

theorem check_eq (deme : Deme α) (population : Population α) :
    deme.check population =
      (if deme.individuals.length ≠ deme.picks.length then
        .error (.demeLengthMismatch deme.individuals.length deme.picks.length) else .ok ()) >>=
      fun _ => Deme.checkPicks population.size [] deme.picks >>=
      fun _ => deme.individuals.forM (Individual.checkShape population.problem) := by
  rw [Deme.check]
  split_ifs
  · rfl
  · rfl

theorem reports_check {population : Population α} (h : ChecksBounds population.problem)
    (deme : Deme α) : Reports (deme.check population) (DemeFault population deme) := by
  rw [check_eq]
  have hlengths := (reports_guard (p := deme.individuals.length ≠ deme.picks.length) []
    (Violation.demeLengthMismatch (α := α) deme.individuals.length deme.picks.length)).under 0
  have hpicks := (reports_checkPicks (α := α) population.size 0 [] deme.picks).under 1
  have hindividuals := (reports_forM deme.individuals
    (fun individual _ => reports_checkShape h individual) 0).under 2
  have hmembers := hpicks.bind (fun _ => hindividuals) fun _ _ _ _ hp hq =>
    under_lt_under (by decide) hp hq
  refine (hlengths.bind (fun _ => hmembers) fun _ _ _ _ hp hq =>
    hq.elim (under_lt_under (by decide) hp) (under_lt_under (by decide) hp)).congr
      fun place cause => ?_
  simp only [under, listed_zero_iff]
  constructor
  · rintro (hne | ⟨hpick, hfault⟩ | ⟨hindividual, hfault⟩)
    · exact .inl ⟨[], rfl, hne, rfl, rfl⟩
    · exact .inr (.inl ⟨_, rfl, _, _, rfl, _, hpick, hfault⟩)
    · exact .inr (.inr ⟨_, rfl, _, _, rfl, _, hindividual, hfault⟩)
  · rintro (⟨_, rfl, hne, rfl, rfl⟩ | ⟨_, rfl, _, _, rfl, _, hpick, hfault⟩ |
      ⟨_, rfl, _, _, rfl, _, hindividual, hfault⟩)
    · exact .lengths hne
    · exact .pick hpick hfault
    · exact .individual hindividual hfault

/-- The faults of a deme of which only the best individual is to migrate. -/
inductive ChampionFault (population : Population α) (deme : Deme α) :
    Place → Violation α → Prop where
  | deme {place : Place} {cause : Violation α} (h : DemeFault population deme place cause) :
      ChampionFault population deme place cause
  | emptiness (h : deme.individuals = []) : ChampionFault population deme [3] .emptyDeme

theorem place_lt_emptiness {population : Population α} {deme : Deme α} {place : Place}
    {cause : Violation α} (h : DemeFault population deme place cause) : place < [3] := by
  cases h with
  | lengths => decide
  | pick => exact List.cons_lt_cons_iff.mpr (.inl (by decide))
  | individual => exact List.cons_lt_cons_iff.mpr (.inl (by decide))

structure AcceptedDecision (problem : Problem α) (decision : List α) : Prop where
  length_eq : decision.length = problem.dimension
  between : ∀ (index : Nat) (l u x : α), problem.lower[index]? = some l →
    problem.upper[index]? = some u → decision[index]? = some x → l ≤ x ∧ x ≤ u
  whole : ∀ (index : Nat) (x : α), decision[index]? = some x →
    problem.continuousDimension ≤ index → Scalar.IsWhole x

structure WellShaped (problem : Problem α) (individual : Individual α) : Prop where
  decision : AcceptedDecision problem individual.decision
  velocity_length : individual.velocity.length = individual.decision.length
  fitness_length : individual.fitness.length = problem.fitnessDimension
  constraints_length : individual.constraints.length = problem.constraintDimension

structure WellFormed (population : Population α) (deme : Deme α) : Prop where
  length_eq : deme.individuals.length = deme.picks.length
  picks_lt : ∀ pick ∈ deme.picks, pick < population.size
  picks_nodup : deme.picks.Nodup
  shaped : ∀ individual ∈ deme.individuals, WellShaped population.problem individual

theorem faultless_decision_iff {problem : Problem α} (h : ChecksBounds problem)
    {decision : List α} :
    Faultless (DecisionFault problem decision) ↔ AcceptedDecision problem decision := by
  constructor
  · intro hfaultless
    have hlength : decision.length = problem.dimension :=
      not_not.mp fun hne => hfaultless _ _ (.length hne)
    refine ⟨hlength, ?_, ?_⟩
    · intro index l u x hl hu hx
      exact not_not.mp fun hnot => hfaultless _ _ (.component hl hu hx (.range hnot))
    · intro index x hx hindex
      have hlt : index < problem.dimension := hlength ▸ (List.getElem?_eq_some_iff.mp hx).1
      have hl := List.getElem?_eq_getElem (hlt.trans_le h.lower_length)
      have hu := List.getElem?_eq_getElem (hlt.trans_le h.upper_length)
      exact not_not.mp fun hnot =>
        hfaultless _ _ (.component hl hu hx (.wholeness hindex hnot))
  · rintro haccepted place cause (hne | ⟨hl, hu, hx, hfault⟩)
    · exact hne haccepted.length_eq
    · cases hfault with
      | range hnot => exact hnot (haccepted.between _ _ _ _ hl hu hx)
      | wholeness hindex hnot => exact hnot (haccepted.whole _ _ hx hindex)

theorem faultless_shape_iff {problem : Problem α} (h : ChecksBounds problem)
    {individual : Individual α} :
    Faultless (ShapeFault problem individual) ↔ WellShaped problem individual := by
  constructor
  · intro hfaultless
    refine ⟨(faultless_decision_iff h).mp fun place cause hfault =>
      hfaultless _ _ (.decision hfault), ?_, ?_, ?_⟩
    · exact not_not.mp fun hne => hfaultless _ _ (.velocity hne)
    · exact not_not.mp fun hne => hfaultless _ _ (.fitness hne)
    · exact not_not.mp fun hne => hfaultless _ _ (.constraints hne)
  · rintro hshaped place cause (hfault | hne | hne | hne)
    · exact (faultless_decision_iff h).mpr hshaped.decision _ _ hfault
    · exact hne hshaped.velocity_length
    · exact hne hshaped.fitness_length
    · exact hne hshaped.constraints_length

theorem nodup_iff_not_mem_take {picks : List Nat} :
    picks.Nodup ↔
      ∀ (position pick : Nat), picks[position]? = some pick → pick ∉ picks.take position := by
  rw [List.nodup_iff_getElem?_ne_getElem?]
  constructor
  · intro hnodup position pick hpick hmem
    obtain ⟨earlier, hearlier⟩ := List.mem_iff_getElem?.mp hmem
    rw [List.getElem?_take] at hearlier
    split_ifs at hearlier with hlt
    exact hnodup earlier position hlt (List.getElem?_eq_some_iff.mp hpick).1
      (hearlier.trans hpick.symm)
  · intro hfirst i j hij hj heq
    refine hfirst j picks[j] (List.getElem?_eq_getElem hj) (List.mem_iff_getElem?.mpr ⟨i, ?_⟩)
    rw [List.getElem?_take_of_lt hij, heq, List.getElem?_eq_getElem hj]

theorem faultless_deme_iff {population : Population α} (h : ChecksBounds population.problem)
    {deme : Deme α} : Faultless (DemeFault population deme) ↔ WellFormed population deme := by
  constructor
  · intro hfaultless
    refine ⟨not_not.mp fun hne => hfaultless _ _ (.lengths hne), ?_, ?_, ?_⟩
    · intro pick hmem
      obtain ⟨position, hpick⟩ := List.mem_iff_getElem?.mp hmem
      exact not_le.mp fun hle => hfaultless _ _ (.pick hpick (.range hle))
    · rw [nodup_iff_not_mem_take]
      intro position pick hpick hmem
      exact hfaultless _ _ (.pick hpick (.repetition hmem))
    · intro individual hmem
      obtain ⟨position, hindividual⟩ := List.mem_iff_getElem?.mp hmem
      exact (faultless_shape_iff h).mp fun place cause hfault =>
        hfaultless _ _ (.individual hindividual hfault)
  · rintro hformed place cause (hne | ⟨hpick, hfault⟩ | ⟨hindividual, hfault⟩)
    · exact hne hformed.length_eq
    · cases hfault with
      | range hle => exact (hformed.picks_lt _ (List.mem_of_getElem? hpick)).not_ge hle
      | repetition hmem =>
          exact nodup_iff_not_mem_take.mp hformed.picks_nodup _ _ hpick hmem
    · exact (faultless_shape_iff h).mpr (hformed.shaped _ (List.mem_of_getElem? hindividual))
        _ _ hfault

theorem DecisionFault.cause_eq {problem : Problem α} {decision : List α} {place : Place}
    {a b : Violation α} (ha : DecisionFault problem decision place a)
    (hb : DecisionFault problem decision place b) : a = b := by
  cases ha with
  | length =>
      cases hb
      rfl
  | component hl hu hx ha =>
      cases hb with
      | component hl' hu' hx' hb =>
          obtain rfl := Option.some.inj (hl.symm.trans hl')
          obtain rfl := Option.some.inj (hu.symm.trans hu')
          obtain rfl := Option.some.inj (hx.symm.trans hx')
          cases ha <;> cases hb <;> rfl

theorem ShapeFault.cause_eq {problem : Problem α} {individual : Individual α} {place : Place}
    {a b : Violation α} (ha : ShapeFault problem individual place a)
    (hb : ShapeFault problem individual place b) : a = b := by
  cases ha with
  | decision ha =>
      cases hb with
      | decision hb => exact ha.cause_eq hb
  | velocity | fitness | constraints =>
      cases hb
      rfl

theorem DemeFault.cause_eq {population : Population α} {deme : Deme α} {place : Place}
    {a b : Violation α} (ha : DemeFault population deme place a)
    (hb : DemeFault population deme place b) : a = b := by
  cases ha with
  | lengths =>
      cases hb
      rfl
  | pick hpick ha =>
      cases hb with
      | pick hpick' hb =>
          obtain rfl := Option.some.inj (hpick.symm.trans hpick')
          cases ha <;> cases hb <;> rfl
  | individual hindividual ha =>
      cases hb with
      | individual hindividual' hb =>
          obtain rfl := Option.some.inj (hindividual.symm.trans hindividual')
          exact ha.cause_eq hb

theorem ChampionFault.cause_eq {population : Population α} {deme : Deme α} {place : Place}
    {a b : Violation α} (ha : ChampionFault population deme place a)
    (hb : ChampionFault population deme place b) : a = b := by
  cases ha with
  | deme ha =>
      cases hb with
      | deme hb => exact ha.cause_eq hb
      | emptiness => exact absurd (place_lt_emptiness ha) (lt_irrefl _)
  | emptiness =>
      cases hb with
      | deme hb => exact absurd (place_lt_emptiness hb) (lt_irrefl _)
      | emptiness => rfl

/-- An action succeeds if it is given what is well-formed.  It refuses anything else for its
earliest fault, and leaves the island as it is. -/
structure Validates (wellFormed : Prop) (fault : Place → Violation α → Prop) (action : Action σ α β)
    (island : Island σ α) : Prop where
  succeeds_iff : Succeeds action island ↔ wellFormed
  refuses : ¬wellFormed → ∃ cause, action island = .error (.precondition cause) island ∧
    ∀ other, Earliest fault other ↔ other = cause

section Insertions

variable {action : Action σ α β} {island : Island σ α}

theorem validates_of_reports {check : Except (Violation α) Unit}
    {fault : Place → Violation α → Prop} {wellFormed : Prop} (hreports : Reports check fault)
    (hfaultless : Faultless fault ↔ wellFormed)
    (hsingle : ∀ place a b, fault place a → fault place b → a = b)
    (hok : check = .ok () → Succeeds action island)
    (herror : ∀ cause, check = .error cause → action island = .error (.precondition cause) island) :
    Validates wellFormed fault action island := by
  cases hcheck : check with
  | ok =>
      have hformed := hfaultless.mp (hreports.faultless hcheck)
      exact ⟨iff_of_true (hok hcheck) hformed, fun hnot => absurd hformed hnot⟩
  | error cause =>
      have hearliest := hreports.earliest cause hcheck
      have hnot : ¬wellFormed := by
        intro hformed
        obtain ⟨place, hplace, -⟩ := hearliest
        exact hfaultless.mpr hformed place cause hplace
      refine ⟨iff_of_false ?_ hnot, fun _ => ⟨cause, herror cause hcheck, fun other => ?_⟩⟩
      · rintro ⟨value, next, hsucceeds⟩
        rw [herror cause hcheck] at hsucceeds
        contradiction
      · exact ⟨fun hother => hother.unique hsingle hearliest, fun heq => heq ▸ hearliest⟩

variable (h : ChecksBounds island.population.problem) (deme : Deme α)

include h

theorem validates_insertDeme :
    Validates (WellFormed island.population deme) (DemeFault island.population deme)
      (Island.insertDeme deme) island := by
  refine validates_of_reports (reports_check h deme) (faultless_deme_iff h)
    (fun _ _ _ => DemeFault.cause_eq) ?_ ?_
  · intro hok
    rw [Succeeds, insertDeme_eq, hok]
    exact ⟨_, _, rfl⟩
  · intro cause herror
    rw [insertDeme_eq, herror]

theorem validates_insertDemeForced :
    Validates (WellFormed island.population deme) (DemeFault island.population deme)
      (Island.insertDemeForced deme) island := by
  refine validates_of_reports (reports_check h deme) (faultless_deme_iff h)
    (fun _ _ _ => DemeFault.cause_eq) ?_ ?_
  · intro hok
    rw [Succeeds, insertDemeForced_eq, hok]
    exact ⟨_, _, rfl⟩
  · intro cause herror
    rw [insertDemeForced_eq, herror]

theorem faultless_champion_iff :
    Faultless (ChampionFault island.population deme) ↔
      WellFormed island.population deme ∧ deme.individuals ≠ [] := by
  rw [← faultless_deme_iff h]
  constructor
  · intro hfaultless
    exact ⟨fun place cause hfault => hfaultless place cause (.deme hfault),
      fun hempty => hfaultless _ _ (.emptiness hempty)⟩
  · rintro ⟨hfaultless, hne⟩ place cause (hfault | hempty)
    · exact hfaultless place cause hfault
    · exact hne hempty

theorem reports_champion :
    Reports (deme.check island.population >>= fun _ =>
      if deme.isEmpty then .error .emptyDeme else .ok ())
      (ChampionFault island.population deme) := by
  refine ((reports_check h deme).bind
    (fun _ => reports_guard [3] Violation.emptyDeme) ?_).congr fun place cause => ?_
  · rintro p _ _ _ hp ⟨-, rfl, -⟩
    exact place_lt_emptiness hp
  · constructor
    · rintro (hfault | hempty)
      · exact .inl hfault
      · exact .inr ⟨List.isEmpty_iff.mpr hempty, rfl, rfl⟩
    · rintro (hfault | ⟨hempty, rfl, rfl⟩)
      · exact .deme hfault
      · exact .emptiness (List.isEmpty_iff.mp hempty)

variable {deme}

theorem insertBest_succeeds [Extended α] (hcheck : deme.check island.population = .ok ())
    (hne : deme.individuals ≠ []) : Succeeds (Island.insertBest deme) island := by
  have hformed := (faultless_deme_iff h).mp ((reports_check h deme).faultless hcheck)
  have hoccupants : deme.picks.filterMap island.population.get? ≠ [] := by
    intro hnil
    have hmap := map_some_occupants hformed.picks_lt
    rw [hnil, List.map_nil, eq_comm, List.map_eq_nil_iff] at hmap
    exact hne (List.eq_nil_of_length_eq_zero (by rw [hformed.length_eq, hmap, List.length_nil]))
  rw [Succeeds, insertBest_eq, hcheck]
  simp only
  cases hbest : bestOf island.population.problem deme.individuals with
  | none => exact absurd (bestOf_eq_none_iff.mp hbest) hne
  | some migrant =>
      cases hworst : worstOf island.population.problem
          (deme.picks.filterMap island.population.get?) with
      | none => exact absurd (worstOf_eq_none_iff.mp hworst) hoccupants
      | some occupant => exact ⟨_, _, rfl⟩

variable (deme)

theorem validates_insertBest [Extended α] :
    Validates (WellFormed island.population deme ∧ deme.individuals ≠ [])
      (ChampionFault island.population deme) (Island.insertBest deme) island := by
  refine validates_of_reports (reports_champion h deme) (faultless_champion_iff h deme)
    (fun _ _ _ => ChampionFault.cause_eq) ?_ ?_
  · intro hok
    rw [except_bind_eq_ok_iff] at hok
    refine insertBest_succeeds h hok.1 fun hempty => ?_
    rw [Deme.isEmpty, hempty] at hok
    exact nomatch hok.2
  · intro cause herror
    rw [insertBest_eq]
    cases hcheck : deme.check island.population with
    | error other =>
        rw [hcheck] at herror
        cases herror
        rfl
    | ok =>
        rw [hcheck] at herror
        cases hempty : deme.isEmpty with
        | false =>
            change (if deme.isEmpty then _ else _) = _ at herror
            rw [hempty] at herror
            contradiction
        | true =>
            change (if deme.isEmpty then _ else _) = _ at herror
            rw [hempty] at herror
            cases herror
            rw [bestOf_eq_none_iff.mpr (List.isEmpty_iff.mp hempty)]

end Insertions

/-- Individuals without any shape, two of which are bound for one slot and one for nowhere. -/
def strays : Deme Binary64 where
  individuals :=
    List.replicate 3 { decision := [], velocity := [], fitness := [], constraints := [] }
  picks := [0, 0, 7]

end Archipelago.Proofs.Faults
