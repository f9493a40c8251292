import Archipelago.Proofs.Accounting
import Archipelago.Proofs.Quotients
import Archipelago.Proofs.Shares
import Archipelago.Proofs.Sweeps

namespace Archipelago.Proofs.Temperatures

open Accounting
open Annealing
open Arithmetic
open Float.Model
open Infinities
open Magnitudes
open OrderedScalars
open Quotients
open Roundings
open Runs
open Shares
open Steps
open Sweeps
open WholeNumbers

section Schedule

variable {σ α : Type} [Scalar α] [Elementary α]

/-- The temperature of a run that has finished some of its stages. -/
def temperature (config : Config α) (stages finished : Nat) : α :=
  (· * coolingFactor config.startTemperature config.endTemperature stages)^[finished]
    config.startTemperature

theorem temperature_succ (config : Config α) (stages finished : Nat) :
    temperature config stages (finished + 1) =
      temperature config stages finished *
        coolingFactor config.startTemperature config.endTemperature stages :=
  Function.iterate_succ_apply' ..

omit [Scalar α] [Elementary α] in
theorem finishedStages_lt {stages blocks sweeps components : Nat} {done left : List Move}
    (h : schedule stages blocks sweeps components = done ++ .propose :: left) :
    (finishedStages done).length < stages := by
  have hfinished := (count_schedule stages blocks sweeps components).2.2
  cases stages with
  | zero => exact absurd h.symm (List.append_ne_nil_of_right_ne_nil _ (List.cons_ne_nil _ _))
  | succ n =>
      have hlast : schedule (n + 1) blocks sweeps components =
          (schedule n blocks sweeps components ++
            (List.replicate blocks (block sweeps components)).flatten) ++ [.cool n] := by
        rw [schedule, List.range_succ, List.flatMap_append, List.flatMap_singleton, stage,
          ← List.append_assoc]
        rfl
      rw [hlast] at h
      rw [hlast, finishedStages_append] at hfinished
      have hlength := congrArg List.length hfinished
      rw [List.length_append, List.length_range] at hlength
      change _ + 1 = n + 1 at hlength
      rcases append_eq_append_cons h with ⟨middle, heq, -⟩ | ⟨middle, -, heq⟩
      · rw [heq, finishedStages_append, List.length_append] at hlength
        omega
      · rcases List.append_eq_singleton_iff.mp heq.symm with ⟨-, hcons⟩ | ⟨-, hcons⟩
        · cases hcons
        · cases hcons

variable [Source σ α]

theorem propose_temperature (course : Course α) (walk : Walk σ α) :
    (walk.propose course).temperature = walk.temperature := by
  rw [Walk.propose]
  simp only
  split_ifs
  · rfl
  · rw [Walk.judge]
    simp only
    split_ifs
    · rfl
    · rfl
    · rfl

theorem follow_temperature (course : Course α) (walk : Walk σ α) (moves : List Move) :
    (walk.follow course moves).temperature =
      (· * course.cooling)^[(finishedStages moves).length] walk.temperature := by
  induction moves generalizing walk with
  | nil => rfl
  | cons move moves ih =>
      change ((walk.move course move).follow course moves).temperature = _
      rw [ih]
      cases move with
      | aim | adjust => rfl
      | propose => exact congrArg _ (propose_temperature course walk)
      | cool stage => rfl

theorem walk_temperature (annealer : Annealer α) (problem : Problem α) (stages : Nat)
    (individual : Individual α) (session : Session σ α) (done : List Move) :
    ((annealer.start problem individual session).follow (annealer.course problem stages)
        done).temperature =
      temperature annealer.config stages (finishedStages done).length :=
  follow_temperature _ _ done

end Schedule

/-- The exact product is more than half of the smallest positive double. -/
def Survives (x y : Binary64) : Prop :=
  (unity : Int) < 2 * (units x * units y)

section Products

variable {x y : Binary64}

theorem units_mul_fraction (hx : 0 ≤ x) (hfinite : IsFinite x) (hy : IsFraction y) :
    (x * y).isNaN = false ∧ units (x * y) = rounded places (units x * units y) ∧
      0 ≤ units (x * y) ∧ units (x * y) ≤ units x := by
  have hone : IsFinite (1 : Binary64) := units_one.1
  have hy' : IsFinite y := isFinite_of_mem isFinite_zero hone hy
  have hnonneg := (zero_le_iff_units.mp hx).2
  have hlower := (zero_le_iff_units.mp hy.1).2
  have hupper := (le_iff_units_le hy.2.1 hy.2.2.1).mp hy.2
  rw [units_one.2] at hupper
  have hbelow : 0 ≤ rounded places (units x * units y) := by
    rw [← rounded_zero places]
    exact rounded_mono (Int.mul_nonneg hnonneg hlower)
  have habove : rounded places (units x * units y) ≤ units x := by
    calc
      rounded places (units x * units y) ≤ rounded places (units x * unity) :=
        rounded_mono (Int.mul_le_mul_of_nonneg_left hupper hnonneg)
      _ = units x := rounded_mul_unity (amounts_parts hfinite)
  have hbound := isFinite_iff_units.mp hfinite
  obtain ⟨hdefined, hunits⟩ := units_mul hfinite hy'
  rw [clip_of_lt (by omega)] at hunits
  rw [hunits]
  exact ⟨hdefined, rfl, hbelow, habove⟩

/-- Multiplying by a fraction neither leaves the finite numbers nor increases anything, and what is
left is positive unless it is too small. -/
theorem mul_fraction (hx : 0 ≤ x) (hfinite : IsFinite x) (hy : IsFraction y) :
    0 ≤ x * y ∧ x * y ≤ x ∧ IsFinite (x * y) ∧ (0 < x * y ↔ Survives x y) := by
  obtain ⟨hdefined, hunits, hbelow, habove⟩ := units_mul_fraction hx hfinite hy
  have hunity : (unity : Int) = 2 ^ places := Nat.cast_pow 2 places
  have hnonneg : 0 ≤ x * y := zero_le_iff_units.mpr ⟨hdefined, hbelow⟩
  have hle : x * y ≤ x := (le_iff_units_le hdefined hx.2.1).mpr habove
  refine ⟨hnonneg, hle, isFinite_of_mem isFinite_zero hfinite ⟨hnonneg, hle⟩, ?_⟩
  rw [lt_iff_units_lt units_zero.1 hdefined, units_zero.2, hunits, rounded_pos_iff, Survives,
    hunity]

def IsZero (x : Binary64) : Prop :=
  0 ≤ x ∧ x ≤ 0

theorem isZero_ofParts (sign : UnpackedFloat.Sign) : IsZero (ofParts (.zero sign)) := by
  cases sign with
  | negative | positive => exact ⟨by decide +kernel, by decide +kernel⟩

theorem IsZero.isFraction (h : IsZero x) : IsFraction x :=
  ⟨h.1, Binary64.le_trans h.2 (by decide +kernel)⟩

theorem isZero_of_not_pos (h : 0 ≤ x) (hnot : ¬0 < x) : IsZero x :=
  ⟨h, le_of_not_lt h.2.1 h.1 hnot⟩

theorem IsZero.not_survives (h : IsZero y) (x : Binary64) : ¬Survives x y := by
  have hlower := (zero_le_iff_units.mp h.1).2
  have hupper := (le_iff_units_le h.1.2.1 h.1.1).mp h.2
  rw [units_zero.2] at hupper
  have hzero : units y = 0 := by omega
  rw [Survives, hzero, Int.mul_zero, Int.mul_zero]
  exact Int.not_lt.mpr (Int.natCast_nonneg unity)

theorem infinity_mul_isNaN (h : IsZero x) : (Binary64.infinity * x).isNaN = true := by
  have hzero : x.magnitude = 0 := by
    by_contra hne
    exact Binary64.not_lt_of_le h.2 ((pos_iff h.1).mpr hne)
  obtain ⟨sign, hparts⟩ := parts_eq_zero_iff.mpr hzero
  rw [mul_eq infinity_isNaN h.1.2.1, parts_infinity, hparts]
  cases sign with
  | negative | positive => decide +kernel

theorem isFinite_of_lt (hx : 0 ≤ x) (h : x < y) : IsFinite x := by
  by_contra hinfinite
  rw [eq_infinity hx hinfinite] at h
  exact Binary64.not_lt_of_le (le_infinity h.2.1) h

theorem div_infinity (hfinite : IsFinite x) : IsZero (x / Binary64.infinity) := by
  have hparts := parts_isFinite.mpr hfinite
  rw [div_eq (isNaN_of_isFinite hfinite) infinity_isNaN, parts_infinity]
  generalize parts x = p at hparts
  cases p with
  | notANumber | infinity => contradiction
  | zero sign | finite sign => exact isZero_ofParts _

end Products

/-- What is assumed of powers with positive exponents: those of zero are zero, and those of
fractions are fractions. -/
structure PowersOfFractions [Elementary Binary64] : Prop where
  zero : ∀ base exponent : Binary64, IsZero base → 0 < exponent →
    IsZero (Elementary.pow base exponent)
  fraction : ∀ base exponent : Binary64, 0 < base → base ≤ 1 → 0 < exponent →
    IsFraction (Elementary.pow base exponent)

/-- The temperatures of a run that begins with a finite one.  The next temperature is positive
exactly if its product is not too small for a double. -/
structure Declines [Elementary Binary64] (config : Config Binary64) (stages : Nat) : Prop where
  isFinite : ∀ finished, IsFinite (temperature config stages finished)
  nonneg : ∀ finished, 0 ≤ temperature config stages finished
  le : ∀ finished, temperature config stages (finished + 1) ≤ temperature config stages finished
  pos_iff : ∀ finished, 0 < temperature config stages (finished + 1) ↔
    Survives (temperature config stages finished)
      (coolingFactor config.startTemperature config.endTemperature stages)

section Temperatures

variable [Elementary Binary64] (hpow : PowersOfFractions) {annealer : Annealer Binary64}
  {stages : Nat} (hstages : 0 < stages) (hcount : stages ≤ maxCount)

omit [Elementary Binary64] in
/-- What a valid configuration says about its temperatures. -/
structure Ordered (config : Config Binary64) : Prop where
  start_pos : 0 < config.startTemperature
  end_nonneg : 0 ≤ config.endTemperature
  end_le : config.endTemperature ≤ config.startTemperature
  end_isFinite : IsFinite config.endTemperature

omit [Elementary Binary64] in
theorem ordered (annealer : Annealer Binary64) : Ordered annealer.config := by
  obtain ⟨-, ⟨hpos, hlt⟩, -⟩ := config_check_eq_ok_iff.mp annealer.check_eq
  have hnonneg : 0 ≤ annealer.config.endTemperature := Binary64.le_of_lt hpos
  exact ⟨OrderedScalar.lt_trans hpos hlt, hnonneg, Binary64.le_of_lt hlt,
    isFinite_of_lt hnonneg hlt⟩

include hpow hstages hcount

omit [Elementary Binary64] hpow in
theorem exponent_pos : 0 < 1 / (stages : Binary64) :=
  reciprocal_pos hstages (hcount.trans (Nat.sub_le _ _))

theorem coolingFactor_isZero {start stop : Binary64} (h : IsZero (stop / start)) :
    IsZero (coolingFactor start stop stages) :=
  hpow.zero _ _ h (exponent_pos hstages hcount)

theorem coolingFactor_isFraction {config : Config Binary64} (h : Ordered config)
    (hfinite : IsFinite config.startTemperature) :
    IsFraction (coolingFactor config.startTemperature config.endTemperature stages) := by
  by_cases hpos : 0 < config.endTemperature / config.startTemperature
  · exact hpow.fraction _ _ hpos (div_le_one h.end_nonneg h.end_le h.start_pos hfinite)
      (exponent_pos hstages hcount)
  · have hnonneg := div_nonneg h.end_nonneg h.end_isFinite h.start_pos
    exact (coolingFactor_isZero hpow hstages hcount (isZero_of_not_pos hnonneg hpos)).isFraction

theorem declines (hfinite : IsFinite annealer.config.startTemperature) :
    Declines annealer.config stages := by
  have hordered := ordered annealer
  have hfactor := coolingFactor_isFraction hpow hstages hcount hordered hfinite
  have hrange : ∀ finished, 0 ≤ temperature annealer.config stages finished ∧
      IsFinite (temperature annealer.config stages finished) := by
    intro finished
    induction finished with
    | zero => exact ⟨Binary64.le_trans hordered.end_nonneg hordered.end_le, hfinite⟩
    | succ finished ih =>
        rw [temperature_succ]
        obtain ⟨hnonneg, -, hfinite', -⟩ := mul_fraction ih.1 ih.2 hfactor
        exact ⟨hnonneg, hfinite'⟩
  have hproduct := fun finished => mul_fraction (hrange finished).1 (hrange finished).2 hfactor
  refine ⟨fun finished => (hrange finished).2, fun finished => (hrange finished).1, ?_, ?_⟩
  · intro finished
    rw [temperature_succ]
    exact (hproduct finished).2.1
  · intro finished
    rw [temperature_succ]
    exact (hproduct finished).2.2.2

theorem temperature_pos (hfinite : IsFinite annealer.config.startTemperature)
    (hfactor : (unity : Int) < 2 * units (coolingFactor annealer.config.startTemperature
      annealer.config.endTemperature stages)) (finished : Nat) :
    0 < temperature annealer.config stages finished := by
  have hdeclines := declines hpow hstages hcount hfinite
  have hfraction := coolingFactor_isFraction hpow hstages hcount (ordered annealer) hfinite
  induction finished with
  | zero => exact (ordered annealer).start_pos
  | succ finished ih =>
      have hunits := (lt_iff_units_lt units_zero.1 ih.2.1).mp ih
      have hfactor' := (zero_le_iff_units.mp hfraction.1).2
      rw [units_zero.2] at hunits
      rw [hdeclines.pos_iff, Survives]
      -- even the smallest positive double keeps more than half of itself
      calc
        (unity : Int) < 2 * (1 * units (coolingFactor annealer.config.startTemperature
            annealer.config.endTemperature stages)) := by rwa [Int.one_mul]
        _ ≤ _ := Int.mul_le_mul_of_nonneg_left
          (Int.mul_le_mul_of_nonneg_right hunits hfactor') (by decide)

theorem temperature_isZero (hfinite : IsFinite annealer.config.startTemperature)
    (hvanishes : ¬0 < annealer.config.endTemperature / annealer.config.startTemperature)
    (finished : Nat) : IsZero (temperature annealer.config stages (finished + 1)) := by
  have hordered := ordered annealer
  have hdeclines := declines hpow hstages hcount hfinite
  have hnonneg := div_nonneg hordered.end_nonneg hordered.end_isFinite hordered.start_pos
  have hzero := coolingFactor_isZero hpow hstages hcount (isZero_of_not_pos hnonneg hvanishes)
  refine isZero_of_not_pos (hdeclines.nonneg (finished + 1)) ?_
  rw [hdeclines.pos_iff]
  exact hzero.not_survives _

theorem temperature_isNaN (hinfinite : ¬IsFinite annealer.config.startTemperature)
    (finished : Nat) : (temperature annealer.config stages (finished + 1)).isNaN = true := by
  have hordered := ordered annealer
  have hinfinity := eq_infinity (Binary64.le_trans hordered.end_nonneg hordered.end_le) hinfinite
  have hfactor : IsZero (coolingFactor annealer.config.startTemperature
      annealer.config.endTemperature stages) := by
    apply coolingFactor_isZero hpow hstages hcount
    rw [hinfinity]
    exact div_infinity hordered.end_isFinite
  induction finished with
  | zero =>
      rw [temperature_succ, temperature, Function.iterate_zero_apply, hinfinity]
      rw [hinfinity] at hfactor
      exact infinity_mul_isNaN hfactor
  | succ finished ih =>
      rw [temperature_succ]
      exact combine_isNaN (.inl ih)

end Temperatures

section Runs

variable {σ : Type} [Elementary Binary64] [Source σ Binary64]

theorem run_temperature {annealer : Annealer Binary64} {island next : Island σ Binary64}
    {report : Annealer.Report Binary64} (h : annealer.run island = .ok report next) :
    report.finalTemperature = temperature annealer.config report.stages report.stages := by
  obtain ⟨stages, individual, slot, -, -, rfl, rfl⟩ := exists_of_run h
  change (lastWalk annealer stages individual island).temperature = _
  rw [lastWalk, Annealer.walk, walk_temperature, Annealer.moves, (count_schedule ..).2.2,
    List.length_range]
  rfl

theorem walk_temperature_of_moves {annealer : Annealer Binary64} {problem : Problem Binary64}
    {stages : Nat} {done left : List Move} (h : annealer.moves problem stages = done ++ left)
    (individual : Individual Binary64) (session : Session σ Binary64) :
    (finishedStages done).length ≤ stages ∧
      ((annealer.start problem individual session).follow (annealer.course problem stages)
          done).temperature =
        temperature annealer.config stages (finishedStages done).length := by
  refine ⟨?_, walk_temperature annealer problem stages individual session done⟩
  have hfinished : finishedStages (done ++ left) = List.range stages := by
    rw [← h]
    exact (count_schedule ..).2.2
  have hlength := congrArg List.length hfinished
  rw [finishedStages_append, List.length_append, List.length_range] at hlength
  omega

variable (σ) in
/-- The first temperature of a run is positive.  If it is finite, then no temperature is undefined,
negative or larger than the one before, though it may vanish.  If it is infinite, then all others
are undefined. -/
theorem temperatures_decline_unless_infinite (hpow : PowersOfFractions)
    (annealer : Annealer Binary64) {stages : Nat} (hstages : 0 < stages)
    (hcount : stages ≤ maxCount) :
    let config := annealer.config
    let factor := coolingFactor config.startTemperature config.endTemperature stages
    0 < temperature config stages 0 ∧
      (IsFinite config.startTemperature →
        Declines config stages ∧
        ((unity : Int) < 2 * units factor → ∀ finished, 0 < temperature config stages finished) ∧
        (¬0 < config.endTemperature / config.startTemperature →
          ∀ finished, IsZero (temperature config stages (finished + 1)))) ∧
      (¬IsFinite config.startTemperature →
        ∀ finished, (temperature config stages (finished + 1)).isNaN = true) ∧
      (∀ (problem : Problem Binary64) (individual : Individual Binary64)
        (session : Session σ Binary64) (done left : List Move),
        annealer.moves problem stages = done ++ left →
          (finishedStages done).length ≤ stages ∧
            ((annealer.start problem individual session).follow (annealer.course problem stages)
                done).temperature =
              temperature config stages (finishedStages done).length) ∧
      ∀ (island next : Island σ Binary64) (report : Annealer.Report Binary64),
        annealer.run island = .ok report next →
          report.finalTemperature = temperature config report.stages report.stages := by
  intro config factor
  refine ⟨(ordered annealer).start_pos, ?_, temperature_isNaN hpow hstages hcount, ?_, ?_⟩
  · intro hfinite
    exact ⟨declines hpow hstages hcount hfinite, temperature_pos hpow hstages hcount hfinite,
      temperature_isZero hpow hstages hcount hfinite⟩
  · intro problem individual session done left hmoves
    exact walk_temperature_of_moves hmoves individual session
  · intro island next report hrun
    exact run_temperature hrun

end Runs

/-- Powers with the exponent one, which is that of a single stage, and the exponentials of zero and
infinity.  Other arguments do not occur here. -/
@[reducible]
def coarse : Elementary Binary64 where
  sqrt := Binary64.map .sqrt
  exp x := if 0 < x then Binary64.infinity else 1
  pow base exponent := if 0 < exponent then base else 1

theorem coarse_pow {base exponent : Binary64} (h : 0 < exponent) :
    coarse.pow base exponent = base :=
  if_pos h

theorem coarse_powersOfFractions : @PowersOfFractions coarse :=
  let _ := coarse
  { zero := fun _ _ hzero hpos => (coarse_pow hpos).symm ▸ hzero
    fraction := fun _ _ hbase hle hpos =>
      (coarse_pow hpos).symm ▸ ⟨Binary64.le_of_lt hbase, hle⟩ }

/-- An annealer with a large first temperature and the smallest possible last one. -/
def steepAnnealer : Annealer Binary64 where
  config :=
    { Config.standard with
      totalIterations := 1
      startTemperature := ⟨0x7fe1ccf385ebc8a0⟩
      endTemperature := ⟨1⟩ }
  check_eq := config_check_eq_ok_iff.mpr (by decide +kernel)

def boundlessAnnealer : Annealer Binary64 where
  config :=
    { Config.standard with
      totalIterations := 1
      startTemperature := Binary64.infinity
      endTemperature := 1 }
  check_eq := config_check_eq_ok_iff.mpr (by decide +kernel)

theorem steep_and_boundless_temperatures :
    letI := coarse
    PowersOfFractions ∧
      0 < temperature steepAnnealer.config 1 0 ∧
      IsZero (temperature steepAnnealer.config 1 1) ∧
      0 < temperature boundlessAnnealer.config 1 0 ∧
      (temperature boundlessAnnealer.config 1 1).isNaN = true := by
  let _ := coarse
  have hpow : PowersOfFractions := coarse_powersOfFractions
  have hcount : 1 ≤ maxCount := by decide +kernel
  obtain ⟨hsteep, hfinite, -⟩ := temperatures_decline_unless_infinite (Script Binary64) hpow
    steepAnnealer Nat.one_pos hcount
  obtain ⟨hboundless, -, hinfinite, -⟩ := temperatures_decline_unless_infinite (Script Binary64)
    hpow boundlessAnnealer Nat.one_pos hcount
  have hvanishes := (hfinite (by decide +kernel)).2.2 (by decide +kernel) 0
  exact ⟨hpow, hsteep, hvanishes, hboundless, hinfinite (by decide +kernel) 0⟩

end Archipelago.Proofs.Temperatures
