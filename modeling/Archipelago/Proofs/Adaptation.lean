import Archipelago.Proofs.Fairness
import Mathlib.Data.Rat.Floor
import Mathlib.Tactic.FieldSimp
import Mathlib.Tactic.GCongr
import Mathlib.Tactic.Linarith
import Mathlib.Tactic.NormNum
import Mathlib.Tactic.Positivity

namespace Archipelago.Proofs.Adaptation

open Annealing
open Fairness
open Runs
open Sweeps

/-- A number that is computed with without rounding. -/
@[ext]
structure Rational where
  value : ℚ

namespace Rational

instance : Scalar Rational where
  zero := ⟨0⟩
  one := ⟨1⟩
  add x y := ⟨x.value + y.value⟩
  sub x y := ⟨x.value - y.value⟩
  mul x y := ⟨x.value * y.value⟩
  div x y := ⟨x.value / y.value⟩
  neg x := ⟨-x.value⟩
  lt x y := x.value < y.value
  le x y := x.value ≤ y.value
  natCast n := ⟨n⟩
  ofScientific mantissa sign exponent := ⟨OfScientific.ofScientific mantissa sign exponent⟩
  decidableLT x y := inferInstanceAs (Decidable (x.value < y.value))
  decidableLE x y := inferInstanceAs (Decidable (x.value ≤ y.value))
  floor x := ⟨⌊x.value⌋⟩
  truncate x := saturated ⌊x.value⌋.toNat

variable {x y : Rational}

theorem lt_iff : x < y ↔ x.value < y.value :=
  Iff.rfl

theorem le_iff : x ≤ y ↔ x.value ≤ y.value :=
  Iff.rfl

theorem value_lesser : (Scalar.lesser x y).value = min x.value y.value := by
  rw [Scalar.lesser]
  split_ifs with hlt hle
  · exact (min_eq_left (lt_iff.mp hlt).le).symm
  · exact (min_eq_right (not_lt.mp hlt)).symm
  · exact absurd (le_refl y.value) hle

end Rational

/-- What an acceptance ratio multiplies a step by.  Above three fifths the numerator exceeds one,
and below two fifths the denominator does. -/
def factor (ratio : ℚ) : ℚ :=
  max 1 (5 * ratio - 2) / max 1 (3 - 5 * ratio)

theorem factor_mono : Monotone factor := by
  intro ratio higher h
  rw [factor, factor]
  gcongr

theorem factor_eq_one {ratio : ℚ} (hlow : 2 / 5 ≤ ratio) (hhigh : ratio ≤ 3 / 5) :
    factor ratio = 1 := by
  rw [factor, max_eq_left (by linarith), max_eq_left (by linarith), div_one]

theorem factor_le_three {ratio : ℚ} (h : ratio ≤ 1) : factor ratio ≤ 3 := by
  have hone : factor 1 = 3 := by norm_num [factor]
  exact hone ▸ factor_mono h

theorem third_le_factor {ratio : ℚ} (h : 0 ≤ ratio) : 1 / 3 ≤ factor ratio := by
  have hzero : factor 0 = 1 / 3 := by norm_num [factor]
  exact hzero ▸ factor_mono h

theorem value_scientific :
    (0.6 : Rational).value = 3 / 5 ∧ (0.4 : Rational).value = 2 / 5 ∧
      (2.0 : Rational).value = 2 := by
  change (0.6 : ℚ) = 3 / 5 ∧ (0.4 : ℚ) = 2 / 5 ∧ (2.0 : ℚ) = 2
  norm_num

theorem value_rescaleStep (step : Rational) (accepted trials : ℕ) (largest : Rational) :
    (rescaleStep step accepted trials largest).value =
      min (step.value * factor (accepted / trials)) largest.value := by
  obtain ⟨hsix, hfour, htwo⟩ := value_scientific
  rw [rescaleStep, Rational.value_lesser]
  generalize hratio : ((accepted : Rational) / (trials : Rational)) = ratio
  have hvalue : ratio.value = accepted / trials := congrArg Rational.value hratio.symm
  rw [← hvalue, factor]
  congr 1
  simp only [Rational.lt_iff, hsix, hfour]
  split_ifs with hhigh hlow
  · change step.value * (1 + (2.0 : Rational).value * (ratio.value - (0.6 : Rational).value) /
      (0.4 : Rational).value) = _
    rw [max_eq_right (by linarith), max_eq_left (by linarith), hsix, hfour, htwo]
    ring
  · change step.value / (1 + (2.0 : Rational).value * ((0.4 : Rational).value - ratio.value) /
      (0.4 : Rational).value) = _
    rw [max_eq_left (by linarith), max_eq_right (by linarith), hfour, htwo, mul_one_div]
    congr 1
    ring
  · rw [max_eq_left (by linarith), max_eq_left (by linarith), div_one, mul_one]

/-- Bounds and direction of an adjustment. -/
structure Moderate (step : Rational) (accepted trials : ℕ) (largest : Rational) : Prop where
  at_least : min (step.value / 3) largest.value ≤
    (rescaleStep step accepted trials largest).value
  at_most : (rescaleStep step accepted trials largest).value ≤
    min (3 * step.value) largest.value
  balanced : 2 / 5 ≤ (accepted / trials : ℚ) → (accepted / trials : ℚ) ≤ 3 / 5 →
    rescaleStep step accepted trials largest = step
  accepted_mono : ∀ more, accepted ≤ more → more ≤ trials →
    rescaleStep step accepted trials largest ≤ rescaleStep step more trials largest
  step_mono : ∀ larger, step ≤ larger → larger ≤ largest →
    rescaleStep step accepted trials largest ≤ rescaleStep larger accepted trials largest

section Adjustment

variable {step largest : Rational} {accepted trials : ℕ}

theorem rescaleStep_moderate (hstep : 0 ≤ step) (hlargest : step ≤ largest) (htrials : 0 < trials)
    (haccepted : accepted ≤ trials) : Moderate step accepted trials largest := by
  have hnonneg : 0 ≤ step.value := hstep
  have hpos : (0 : ℚ) < trials := Nat.cast_pos.mpr htrials
  have hratio : (0 : ℚ) ≤ accepted / trials := by positivity
  have hlow := third_le_factor hratio
  have hhigh := factor_le_three ((div_le_one hpos).mpr (Nat.cast_le.mpr haccepted))
  constructor
  · rw [value_rescaleStep, div_eq_mul_one_div]
    gcongr
  · rw [value_rescaleStep, mul_comm 3]
    gcongr
  · intro hlow hhigh
    apply Rational.ext
    rw [value_rescaleStep, factor_eq_one hlow hhigh, mul_one]
    exact min_eq_left hlargest
  · intro more hmore _
    rw [Rational.le_iff, value_rescaleStep, value_rescaleStep]
    gcongr
    exact factor_mono (by gcongr)
  · intro larger hlarger _
    have hfactor : 0 ≤ factor (accepted / trials) := by linarith
    rw [Rational.le_iff, value_rescaleStep, value_rescaleStep]
    gcongr
    exact hlarger

end Adjustment

/-- An acceptance ratio. -/
structure Ratio where
  accepted : ℕ
  trials : ℕ
  pos : 0 < trials
  le : accepted ≤ trials

/-- A step, after adjustments of the initial one. -/
def adapted {α : Type} [Scalar α] (largest : α) (history : List Ratio) : α :=
  history.foldl (fun step ratio => rescaleStep step ratio.accepted ratio.trials largest) largest

theorem adapted_concat {α : Type} [Scalar α] (largest : α) (history : List Ratio) (ratio : Ratio) :
    adapted largest (history ++ [ratio]) =
      rescaleStep (adapted largest history) ratio.accepted ratio.trials largest :=
  List.foldl_append

/-- The step is neither negative nor above the largest one.  It only vanishes with it. -/
structure Within (largest step : Rational) : Prop where
  nonneg : 0 ≤ step
  le_largest : step ≤ largest
  pos : 0 < largest → 0 < step

section Histories

variable {largest step : Rational}

theorem Within.rescaleStep (h : Within largest step) (ratio : Ratio) :
    Within largest (rescaleStep step ratio.accepted ratio.trials largest) := by
  have hmoderate := rescaleStep_moderate h.nonneg h.le_largest ratio.pos ratio.le
  have hstep : 0 ≤ step.value := h.nonneg
  have hlargest : 0 ≤ largest.value := hstep.trans h.le_largest
  refine ⟨?_, hmoderate.at_most.trans (min_le_right _ _), fun hpos => ?_⟩
  · exact le_trans (le_min (by positivity) hlargest) hmoderate.at_least
  · have hthird : 0 < step.value / 3 := div_pos (h.pos hpos) three_pos
    exact lt_of_lt_of_le (lt_min hthird hpos) hmoderate.at_least

theorem within_adapted (hlargest : 0 ≤ largest) (history : List Ratio) :
    Within largest (adapted largest history) := by
  induction history using List.reverseRecOn with
  | nil => exact ⟨hlargest, le_refl largest.value, id⟩
  | append_singleton history ratio ih =>
      rw [adapted_concat]
      exact ih.rescaleStep ratio

end Histories

section Walks

variable {σ α : Type} [Scalar α] [Elementary α] [Source σ α]

theorem steps_move (course : Course α) (walk : Walk σ α) {move : Move} (h : move ≠ .adjust) :
    (walk.move course move).steps = walk.steps := by
  cases move with
  | adjust => contradiction
  | aim | cool => rfl
  | propose => exact (propose_effect course walk).2.1

variable {annealer : Annealer α} {problem : Problem α} {stages : ℕ}
  (hcheck : annealer.checkProblem problem = .ok stages) (individual : Individual α)
  (session : Session σ α) {done left : List Move}

include hcheck

theorem exists_ratio (hmoves : annealer.moves problem stages = done ++ .adjust :: left) {step : α}
    (hstep : step ∈ ((annealer.start problem individual session).follow
      (annealer.course problem stages) (done ++ [.adjust])).steps) :
    ∃ before ∈ ((annealer.start problem individual session).follow
        (annealer.course problem stages) done).steps,
      ∃ ratio : Ratio,
        step = rescaleStep before ratio.accepted ratio.trials annealer.config.stepRange := by
  have hadjusts := adjustsByRatios_walk hcheck (rested_start individual session)
  rw [(hadjusts.adjusted done left hmoves).2.2.1] at hstep
  obtain ⟨rescaling, hmem, rfl⟩ := List.mem_map.mp hstep
  have hratio := hadjusts.ratio rescaling (by
    rw [hmoves, rescalings, record_append]
    exact List.mem_append_right _ (List.mem_append_left _ hmem))
  rw [rescale] at hmem
  obtain ⟨i, hi, rfl⟩ := List.getElem_of_mem hmem
  rw [List.getElem_zipWith] at hratio ⊢
  exact ⟨_, List.getElem_mem _, ⟨_, _, hratio.1, hratio.2⟩, rfl⟩

/-- A step of a walk has been adjusted as often as the walk has adjusted its steps. -/
theorem exists_adapted (hmoves : annealer.moves problem stages = done ++ left) {step : α}
    (hstep : step ∈ ((annealer.start problem individual session).follow
      (annealer.course problem stages) done).steps) :
    ∃ history : List Ratio, history.length = done.count .adjust ∧
      step = adapted annealer.config.stepRange history := by
  induction done using List.reverseRecOn generalizing left step with
  | nil => exact ⟨[], rfl, List.eq_of_mem_replicate hstep⟩
  | append_singleton done move ih =>
      rw [List.append_assoc] at hmoves
      rw [List.count_append]
      by_cases hmove : move = .adjust
      · subst hmove
        obtain ⟨before, hbefore, ratio, rfl⟩ :=
          exists_ratio hcheck individual session hmoves hstep
        obtain ⟨history, hlength, rfl⟩ := ih hmoves hbefore
        refine ⟨history ++ [ratio], ?_, (adapted_concat _ _ _).symm⟩
        rw [List.length_append, hlength]
        rfl
      · rw [follow_append] at hstep
        change step ∈ (Walk.move _ _ move).steps at hstep
        rw [steps_move _ _ hmove] at hstep
        rw [List.count_singleton, if_neg (by simpa using hmove)]
        exact ih hmoves hstep

end Walks

/-- Adjustments of a step are moderate.  No history of them leads out of the range that is given by
the initial step, neither by itself nor in a walk. -/
theorem steps_adapt_moderately {σ : Type} [Elementary Rational] [Source σ Rational] :
    (∀ (step : Rational) (accepted trials : ℕ) (largest : Rational), 0 ≤ step → step ≤ largest →
      0 < trials → accepted ≤ trials → Moderate step accepted trials largest) ∧
    (∀ largest : Rational, 0 ≤ largest →
      ∀ history : List Ratio, Within largest (adapted largest history)) ∧
    (∀ (annealer : Annealer Rational) (problem : Problem Rational) (stages : ℕ)
      (individual : Individual Rational) (session : Session σ Rational),
      annealer.checkProblem problem = .ok stages →
      ∀ done left, annealer.moves problem stages = done ++ left →
      ∀ step ∈ ((annealer.start problem individual session).follow
        (annealer.course problem stages) done).steps,
      (∃ history : List Ratio, history.length = done.count .adjust ∧
        step = adapted annealer.config.stepRange history) ∧
        Within annealer.config.stepRange step) := by
  refine ⟨fun _ _ _ _ => rescaleStep_moderate, fun _ => within_adapted, ?_⟩
  intro annealer problem stages individual session hcheck done left hmoves step hstep
  obtain ⟨history, hlength, rfl⟩ := exists_adapted hcheck individual session hmoves hstep
  have hrange := (config_check_eq_ok_iff.mp annealer.check_eq).2.2.1
  exact ⟨⟨history, hlength, rfl⟩, within_adapted hrange history⟩

/-- Rational numbers have no such functions.  The steps of a walk do not depend on what stands in
for them. -/
@[reducible]
def standIn : Elementary Rational where
  sqrt x := x
  exp _ := 1
  pow base _ := base

theorem standard_check : (Config.standard : Config Rational).check = .ok () := by
  refine config_check_eq_ok_iff.mpr ⟨by decide, ?_, zero_le_one (α := ℚ), le_refl (1 : ℚ)⟩
  change (0 : ℚ) < 0.1 ∧ (0.1 : ℚ) < 10.0
  norm_num

def rationalAnnealer : Annealer Rational where
  config := .standard
  check_eq := standard_check

def segment : Problem Rational where
  lower := [-1]
  upper := [1]
  objective := fun decision => [decision.headD 0]

/-- The walk from the end of a segment. -/
def segmentWalk : Walk (Script Rational) Rational :=
  rationalAnnealer.start segment (Actions.evaluated segment [1] [0]) { source := .constant 0 }

theorem segment_steps_adapt_moderately :
    letI := standIn
    Moderate 1 3 4 1 ∧ Within 1 (adapted 1 [⟨3, 4, by decide, by decide⟩]) ∧
      ∃ step ∈ (segmentWalk.follow (rationalAnnealer.course segment 10000)
        (rationalAnnealer.moves segment 10000)).steps,
      Within 1 step := by
  let _ := standIn
  have hcheck : rationalAnnealer.checkProblem segment = .ok 10000 := rfl
  have hzero : (0 : Rational) ≤ 1 := zero_le_one (α := ℚ)
  have hone : (1 : Rational) ≤ 1 := le_refl (1 : ℚ)
  obtain ⟨hstep, hhistory, hwalk⟩ := steps_adapt_moderately (σ := Script Rational)
  refine ⟨hstep 1 3 4 1 hzero hone (by decide) (by decide), hhistory 1 hzero _, ?_⟩
  have hrested : Rested (rationalAnnealer.course segment 10000) segmentWalk := rested_start _ _
  have hlength := (hrested.toEquipped.follow (rationalAnnealer.moves segment 10000)).steps_length
  obtain ⟨step, hmem⟩ := List.exists_mem_of_length_pos (Nat.one_pos.trans_eq hlength.symm)
  have hmoves := (List.append_nil (rationalAnnealer.moves segment 10000)).symm
  exact ⟨step, hmem, (hwalk _ _ _ _ _ hcheck _ _ hmoves step hmem).2⟩

end Archipelago.Proofs.Adaptation
