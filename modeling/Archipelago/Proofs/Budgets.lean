import Archipelago.Proofs.Accounting
import Mathlib.Order.Bounds.Basic

namespace Archipelago.Proofs.Budgets

open Accounting
open Annealing
open Runs
open Selection
open SingleVector

variable {σ α : Type}

/-- Proposals in one temperature stage, without a limit to counts. -/
def demand (config : Config α) (continuous : Nat) : Nat :=
  config.perTemperature * config.perRangeAdjust * continuous

theorem saturated_saturated_mul (n k : Nat) : saturated (saturated n * k) = saturated (n * k) := by
  rcases Nat.eq_zero_or_pos k with rfl | hk
  · rfl
  · rcases Nat.le_total n maxCount with hle | hge
    · rw [saturated, saturated, Nat.min_eq_left hle, saturated]
    · -- the limit is reached by the first product already
      have hfirst : maxCount ≤ maxCount * k := Nat.le_mul_of_pos_right _ hk
      have hsecond : maxCount ≤ n * k := hge.trans (Nat.le_mul_of_pos_right _ hk)
      rw [saturated, saturated, Nat.min_eq_right hge, saturated, Nat.min_eq_right hfirst,
        Nat.min_eq_right hsecond]

theorem iterationsPerStage_eq (config : Config α) (continuous : Nat) :
    config.iterationsPerStage continuous = min (demand config continuous) maxCount :=
  saturated_saturated_mul _ _

theorem maxCount_pos : 0 < maxCount := by
  decide +kernel

/-- The budget is the largest count, and a stage needs more than any count can say. -/
def Beyond (config : Config α) (continuous : Nat) : Prop :=
  config.totalIterations = maxCount ∧ maxCount < demand config continuous

instance (config : Config α) (continuous : Nat) : Decidable (Beyond config continuous) :=
  inferInstanceAs (Decidable (_ ∧ _))

/-- The stages are as many as the budget affords. -/
structure Affordable (config : Config α) (continuous : Nat) : Prop where
  within : config.stages continuous * demand config continuous ≤ config.totalIterations
  greatest : 0 < demand config continuous →
    IsGreatest {n | n * demand config continuous ≤ config.totalIterations}
      (config.stages continuous)
  idle : demand config continuous = 0 → config.stages continuous = 0

section Stages

variable {config : Config α} {continuous : Nat}

theorem affordable_of_stages_eq
    (h : config.stages continuous = config.totalIterations / demand config continuous) :
    Affordable config continuous where
  within := h ▸ Nat.div_mul_le_self _ _
  greatest hpos := by
    constructor
    · exact h ▸ Nat.div_mul_le_self _ _
    · intro n hn
      rw [h]
      exact (Nat.le_div_iff_mul_le hpos).mpr hn
  idle hzero := by rw [h, hzero, Nat.div_zero]

theorem stages_of_beyond (h : Beyond config continuous) : config.stages continuous = 1 := by
  rw [Config.stages, iterationsPerStage_eq, Nat.min_eq_right h.2.le, h.1]
  exact Nat.div_self maxCount_pos

theorem affordable_of_not_beyond (htotal : config.totalIterations ≤ maxCount)
    (h : ¬Beyond config continuous) : Affordable config continuous := by
  apply affordable_of_stages_eq
  rw [Config.stages, iterationsPerStage_eq]
  rcases Nat.lt_or_ge maxCount (demand config continuous) with hgt | hle
  · have hlt : config.totalIterations < maxCount :=
      htotal.lt_of_ne fun heq => h ⟨heq, hgt⟩
    rw [Nat.min_eq_right hgt.le, Nat.div_eq_of_lt hlt, Nat.div_eq_of_lt (hlt.trans hgt)]
  · rw [Nat.min_eq_left hle]

theorem Affordable.stages_eq_zero_iff (h : Affordable config continuous) :
    config.stages continuous = 0 ↔
      demand config continuous = 0 ∨ config.totalIterations < demand config continuous := by
  rcases Nat.eq_zero_or_pos (demand config continuous) with hzero | hpos
  · exact ⟨fun _ => .inl hzero, fun _ => h.idle hzero⟩
  · constructor
    · intro hstages
      refine .inr (Nat.lt_of_not_le fun hle => ?_)
      have hone : 1 ≤ config.stages continuous :=
        (h.greatest hpos).2 ((Nat.one_mul _).trans_le hle)
      omega
    · rintro (hzero | hlt)
      · omega
      · by_contra hne
        have hle := Nat.le_mul_of_pos_left (demand config continuous) (Nat.pos_of_ne_zero hne)
        exact absurd (hle.trans h.within) (by omega)

theorem stages_eq_zero_iff (htotal : config.totalIterations ≤ maxCount) :
    config.stages continuous = 0 ↔
      ¬Beyond config continuous ∧
        (demand config continuous = 0 ∨ config.totalIterations < demand config continuous) := by
  by_cases hbeyond : Beyond config continuous
  · have hone := stages_of_beyond hbeyond
    exact ⟨fun hzero => by omega, fun h => absurd hbeyond h.1⟩
  · rw [(affordable_of_not_beyond htotal hbeyond).stages_eq_zero_iff]
    exact ⟨fun h => ⟨hbeyond, h⟩, fun h => h.2⟩

end Stages

variable [Scalar α]

/-- Annealing can work on the problem, given the budget. -/
def Suitable (problem : Problem α) : Prop :=
  problem.continuousDimension ≠ 0 ∧ problem.constraintDimension = 0 ∧ problem.fitnessDimension = 1

theorem checkProblem_eq_insufficientBudget_iff {annealer : Annealer α} {problem : Problem α}
    {name : String} {budget perStage : Nat} :
    annealer.checkProblem problem = .error (.insufficientBudget name budget perStage) ↔
      Suitable problem ∧ annealer.config.stages problem.continuousDimension = 0 ∧
        annealer.name = name ∧ annealer.config.totalIterations = budget ∧
        annealer.config.iterationsPerStage problem.continuousDimension = perStage := by
  simp only [Annealer.checkProblem, Suitable]
  split_ifs
  · simp_all
  · simp_all
  · simp_all
  · simp only [Except.error.injEq, Unsupported.insufficientBudget.injEq]
    grind
  · simp_all

theorem count_moves (annealer : Annealer α) (problem : Problem α) (stages : Nat) :
    (annealer.moves problem stages).count .propose =
      stages * demand annealer.config problem.continuousDimension := by
  rw [Annealer.moves, (count_schedule _ _ _ _).2.1, demand]
  simp only [Nat.mul_assoc]

variable (σ) in
/-- The budget pays for every proposal of a run, and a problem is refused for it if it does not pay
for one stage.  If the budget is the largest count, one stage is begun whatever it needs. -/
theorem stages_keep_to_budget [Elementary α] [Extended α] [Source σ α] :
    (∀ (config : Config α) (continuous : Nat), config.totalIterations ≤ maxCount →
      if Beyond config continuous then config.stages continuous = 1
      else Affordable config continuous) ∧
    ∀ annealer : Annealer α, annealer.config.totalIterations ≤ maxCount →
      (∀ (problem : Problem α) (name : String) (budget perStage : Nat),
        annealer.checkProblem problem = .error (.insufficientBudget name budget perStage) ↔
          Suitable problem ∧
            (¬Beyond annealer.config problem.continuousDimension ∧
              (demand annealer.config problem.continuousDimension = 0 ∨
                annealer.config.totalIterations <
                  demand annealer.config problem.continuousDimension)) ∧
            annealer.name = name ∧ annealer.config.totalIterations = budget ∧
            min (demand annealer.config problem.continuousDimension) maxCount = perStage) ∧
      ∀ (island next : Island σ α) (report : Annealer.Report α),
        annealer.run island = .ok report next →
          let problem := island.population.problem
          let proposals := report.stages * demand annealer.config problem.continuousDimension
          report.stages = annealer.config.stages problem.continuousDimension ∧
            (annealer.moves problem report.stages).count .propose = proposals ∧
            (¬Beyond annealer.config problem.continuousDimension →
              report.tally.evaluations + report.tally.outOfBounds = proposals ∧
                proposals ≤ annealer.config.totalIterations) := by
  constructor
  · intro config continuous htotal
    split_ifs with hbeyond
    · exact stages_of_beyond hbeyond
    · exact affordable_of_not_beyond htotal hbeyond
  intro annealer htotal
  constructor
  · intro problem name budget perStage
    rw [checkProblem_eq_insufficientBudget_iff, stages_eq_zero_iff htotal, iterationsPerStage_eq]
  · intro island next report hrun problem proposals
    obtain ⟨stages, individual, slot, hcheck, -, rfl, rfl⟩ := exists_of_run hrun
    have haccounts := accounts_concluded annealer stages slot island individual
    have hstages : stages = annealer.config.stages problem.continuousDimension :=
      (checkProblem_eq_ok_iff.mp hcheck).2.2.2.1.symm
    refine ⟨haccounts.stages_eq.trans hstages, count_moves annealer problem _, ?_⟩
    intro hbeyond
    constructor
    · have hproposals := haccounts.proposals_eq
      rw [Nat.mul_assoc, Nat.mul_assoc, ← Nat.mul_assoc annealer.config.perTemperature]
        at hproposals
      exact hproposals
    · have haffordable := (affordable_of_not_beyond htotal hbeyond).within
      rwa [← hstages] at haffordable

theorem greedy_stages_keep_to_budget :
    greedyAnnealer.config.totalIterations ≤ maxCount ∧
      greedyAnnealer.config.stages 1 = 1 ∧
      ∃ report next, greedyAnnealer.run intervalIsland = .ok report next ∧
        (greedyAnnealer.moves interval report.stages).count .propose = 4 * maxCount := by
  have htotal : greedyAnnealer.config.totalIterations ≤ maxCount := Nat.le_refl _
  obtain ⟨hstages, hruns⟩ := stages_keep_to_budget (α := Binary64) (Script Binary64)
  have hone : greedyAnnealer.config.stages 1 = 1 := by
    have hbeyond : Beyond greedyAnnealer.config 1 := by decide +kernel
    have h := hstages greedyAnnealer.config 1 htotal
    rwa [if_pos hbeyond] at h
  have hcheck : greedyAnnealer.checkProblem intervalIsland.population.problem = .ok 1 :=
    checkProblem_eq_ok_iff.mpr ⟨Nat.one_ne_zero, rfl, rfl, hone, Nat.one_ne_zero⟩
  have hne : intervalIsland.population.individuals ≠ [] := List.cons_ne_nil _ _
  obtain ⟨individual, slot, hbest⟩ := exists_best hne
  have hrun := run_eq hcheck hbest
  obtain ⟨-, hproposals, -⟩ := (hruns greedyAnnealer htotal).2 intervalIsland _ _ hrun
  have hdemand : demand greedyAnnealer.config 1 = 4 * maxCount := by decide +kernel
  refine ⟨htotal, hone, _, _, hrun, hproposals.trans ?_⟩
  rw [← hdemand]
  exact Nat.one_mul _

end Archipelago.Proofs.Budgets
