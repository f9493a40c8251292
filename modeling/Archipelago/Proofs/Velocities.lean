import Archipelago.Proofs.Failures
import Archipelago.Proofs.Populating
import Archipelago.Proofs.RoundToNearest
import Mathlib.Data.List.GetD

namespace Archipelago.Proofs.Velocities

open Accounting
open Actions
open Containment
open Failures
open Operations
open Populating
open RoundToNearest
open RoundedArithmetic
open Roundings
open Runs

variable {σ α : Type} [Scalar α]

/-- In the range from one number up to, but not including, another one.  If both are equal, then
only their value is in it. -/
structure InRange (format : Format α) (lower upper x : α) : Prop where
  isFinite : format.IsFinite x
  le : lower ≤ x
  lt : lower < upper → x < upper
  value_eq : format.value lower = format.value upper → format.value x = format.value lower

section Rounding

variable {format : Format α} {round : ℚ → ℚ} (h : Rounds format round) {lower upper u : α}

include h

theorem between_inRange (hlower : format.IsFinite lower) (hupper : format.IsFinite upper)
    (hle : lower ≤ upper) (hwidth : format.IsFinite (upper - lower)) (hu : 0 ≤ u ∧ u < 1) :
    InRange format lower upper (Sampling.between lower upper u) := by
  obtain ⟨hleast, hgreatest, hvalues⟩ := format.le_iff.mp hle
  have hwidth' := (h.sub hupper hlower).2
  obtain ⟨hpart, hnonneg, hpart'⟩ :=
    h.fraction hu hwidth (hwidth' ▸ h.nonneg (sub_nonneg_of_le hvalues))
  have hge : lower ≤ lower + u * (upper - lower) := h.le_add hlower hpart hnonneg
  obtain ⟨hdefined, hsum⟩ := h.add hlower hpart
  rw [Sampling.between]
  split_ifs with hfold
  · exact ⟨hlower, le_self hleast, id, fun _ => rfl⟩
  · by_cases hstrict : lower < upper
    · have hlt := lt_of_not_le hdefined hgreatest fun hle => hfold ⟨hle, hstrict⟩
      obtain ⟨-, -, hlt'⟩ := format.lt_iff.mp hlt
      have hbelow := format.le_iff.mpr ⟨hdefined, hgreatest, hlt'.le⟩
      refine ⟨format.isFinite_of_mem hlower hupper hge hbelow, hge, fun _ => hlt, fun heq => ?_⟩
      exact absurd heq (format.lt_iff.mp hstrict).2.2.ne
    · -- the width is zero, and so is any part of it
      have heq : format.value lower = format.value upper :=
        le_antisymm hvalues (not_lt.mp fun hlt =>
          hstrict (format.lt_iff.mpr ⟨hleast, hgreatest, hlt⟩))
      rw [heq, sub_self, h.zero] at hwidth'
      have hzero : format.value (u * (upper - lower)) = 0 :=
        le_antisymm (hpart'.trans_eq hwidth') hnonneg
      rw [hzero, add_zero, h.exact hlower] at hsum
      exact ⟨isFinite_of_value_eq hlower hdefined hsum, hge, fun hlt => absurd hlt hstrict,
        fun _ => hsum⟩

theorem wholeBetween_mem_range (hlower : format.IsFinite lower) (hupper : format.IsFinite upper)
    (hroom : ⌈format.value lower⌉ ≤ ⌊format.value upper⌋)
    (hsmall : ⌈format.value lower⌉.natAbs ≤ 2 ^ 51) (hsmall' : ⌊format.value upper⌋.natAbs ≤ 2 ^ 51)
    (hu : 0 ≤ u ∧ u < 1) :
    ∃ k, Whole format (Sampling.wholeBetween lower upper u) k ∧
      ⌈format.value lower⌉ ≤ k ∧ k ≤ ⌊format.value upper⌋ := by
  have hceil := whole_ceil hlower
  have hfloor : Whole format (Scalar.floor upper) ⌊format.value upper⌋ := format.floor hupper
  generalize ⌈format.value lower⌉ = least at *
  generalize ⌊format.value upper⌋ = greatest at *
  have hspan := h.whole_add (h.whole_sub hfloor hceil (by omega)) whole_one (by omega)
  obtain ⟨hpart, hnonneg, -⟩ :=
    h.fraction hu hspan.1 (hspan.2 ▸ Int.cast_nonneg (by omega))
  have hpicked : Whole format (Scalar.floor (u * (Scalar.floor upper - Scalar.ceil lower + 1)))
      ⌊format.value (u * (Scalar.floor upper - Scalar.ceil lower + 1))⌋ := format.floor hpart
  have hpicked' := Int.floor_nonneg.mpr hnonneg
  have hchosen := hpicked.lesser (h.whole_sub hspan whole_one (by omega))
  exact ⟨_, h.whole_add hceil hchosen (by omega), by omega, by omega⟩

end Rounding

section Resetting

variable [Source σ α] {island next last : Island σ α} {lower upper : List α}

def velocityFrom (lower upper : List α) (source : σ) : List α :=
  (lower.zip upper).mapIdx fun i bounds =>
    Sampling.between bounds.1 bounds.2 (Source.next (drained i source)).1

theorem draws_vector (lower upper : List α) :
    Draws (Sampling.vector lower upper : StateM (Session σ α) _) (lower.zip upper).length
      (velocityFrom lower upper) :=
  draws_each (fun (bounds : α × α) u => Sampling.between bounds.1 bounds.2 u) (lower.zip upper)

theorem set_mapIdx_lt {β : Type} (f : Nat → β → β) {xs : List β} {n : Nat} {x : β}
    (hx : xs[n]? = some x) :
    (xs.mapIdx fun j y => if j < n then f j y else y).set n (f n x) =
      xs.mapIdx fun j y => if j < n + 1 then f j y else y := by
  apply List.ext_getElem?
  intro j
  rw [List.getElem?_set, List.getElem?_mapIdx, List.getElem?_mapIdx]
  rcases eq_or_ne n j with rfl | hne
  · have hlt := (List.getElem?_eq_some_iff.mp hx).1
    rw [if_pos rfl, List.length_mapIdx, if_pos hlt, hx, Option.map_some,
      if_pos (Nat.lt_succ_self _)]
  · have hiff : j < n + 1 ↔ j < n := by omega
    simp only [if_neg hne, hiff]

/-- The individuals in the first `n` slots have velocities from a box.  Each of them has as many
numbers of the source to itself as it has components. -/
structure Redrawn (lower upper : List α) (island : Island σ α) (n : Nat) (next : Island σ α) :
    Prop where
  drawn : Drawn island.session (n * (lower.zip upper).length) next.session
  individuals_eq : next.population.individuals =
    island.population.individuals.mapIdx fun j individual =>
      if j < n then
        { individual with
          velocity := velocityFrom lower upper
            (drained (j * (lower.zip upper).length) island.session.source) }
      else individual

omit [Source σ α] in
theorem exists_of_setVelocity {index : Nat} {velocity : List α}
    (h : Island.setVelocity index velocity island = .ok () next) :
    ∃ individual, island.population.individuals[index]? = some individual ∧
      next =
        { island with population := island.population.set index { individual with velocity } } := by
  rw [setVelocity_eq] at h
  cases hmember : island.population.member index with
  | error cause =>
      rw [hmember] at h
      contradiction
  | ok individual =>
      cases hlength : (checkLength individual.decision.length velocity.length :
          Except (Violation α) Unit) with
      | error cause =>
          simp only [hmember, hlength] at h
          contradiction
      | ok =>
          simp only [hmember, hlength] at h
          cases h
          exact ⟨individual, member_eq_ok_iff.mp hmember, rfl⟩

theorem Redrawn.steer {n : Nat} (h : Redrawn lower upper island n next)
    (hsteer : steer lower upper n next = .ok () last) :
    Redrawn lower upper island (n + 1) last := by
  have hvector := draws_vector (σ := σ) lower upper
  rw [Operations.steer, perform_bind, hvector.result_eq, h.drawn.source_eq] at hsteer
  obtain ⟨individual, hslot, rfl⟩ := exists_of_setVelocity hsteer
  change next.population.individuals[n]? = some individual at hslot
  rw [h.individuals_eq, List.getElem?_mapIdx] at hslot
  simp only [lt_irrefl, if_false, Option.map_id'] at hslot
  constructor
  · rw [Nat.succ_mul]
    exact h.drawn.trans (hvector.drawn next.session)
  · change next.population.individuals.set n _ = _
    rw [h.individuals_eq]
    exact set_mapIdx_lt _ hslot

theorem redrawn_zero : Redrawn lower upper island 0 island := by
  constructor
  · rw [Nat.zero_mul]
    exact ⟨rfl, rfl⟩
  · apply List.ext_getElem?
    intro j
    rw [List.getElem?_mapIdx]
    simp

theorem redrawn_forM {n : Nat} (h : (List.range n).forM (Operations.steer lower upper) island =
    .ok () next) : Redrawn lower upper island n next := by
  induction n generalizing next with
  | zero =>
      cases h
      exact redrawn_zero
  | succ n ih =>
      rw [List.range_succ] at h
      obtain ⟨middle, hmiddle, hlast⟩ := exists_of_forM_concat h
      exact (ih hmiddle).steer hlast

theorem checkBox_of_resetVelocities
    (h : Island.resetVelocities lower upper island = .ok () next) :
    island.population.problem.checkBox false lower upper = .ok () := by
  rw [Island.resetVelocities, getPopulation_bind, require_bind] at h
  cases hbox : island.population.problem.checkBox false lower upper with
  | error cause =>
      rw [hbox] at h
      contradiction
  | ok => rfl

theorem le_of_checkBox {problem : Problem α}
    (h : problem.checkBox false lower upper = .ok ()) {i : Nat} (hi : i < problem.dimension) :
    lower.getD i 0 ≤ upper.getD i 0 := by
  rw [Problem.checkBox, except_bind_eq_ok_iff, except_bind_eq_ok_iff, except_forM_eq_ok_iff] at h
  have hcheck := h.2.2 i (List.mem_range.mpr hi)
  generalize lower.getD i 0 = l at hcheck ⊢
  generalize upper.getD i 0 = u at hcheck ⊢
  by_contra hnot
  simp only [Bool.false_eq_true, false_and, if_false, hnot, decide_false, Bool.not_false,
    if_true] at hcheck
  contradiction

/-- The second individual is the first one with a velocity from a box. -/
structure Redirected (format : Format α) (lower upper : List α) (a b : Individual α) : Prop where
  decision_eq : b.decision = a.decision
  fitness_eq : b.fitness = a.fitness
  constraints_eq : b.constraints = a.constraints
  length_eq : b.velocity.length = lower.length
  inRange : ∀ i < lower.length,
    InRange format (lower.getD i 0) (upper.getD i 0) (b.velocity.getD i 0)

/-- Bounds that are finite, and so are the widths between them. -/
def Usable (format : Format α) (lower upper : List α) : Prop :=
  ∀ i < lower.length, format.IsFinite (lower.getD i 0) ∧ format.IsFinite (upper.getD i 0) ∧
    format.IsFinite (upper.getD i 0 - lower.getD i 0)

theorem getD_velocityFrom (hlength : lower.length = upper.length) (source : σ) {i : Nat}
    (hi : i < lower.length) :
    (velocityFrom lower upper source).getD i 0 =
      Sampling.between (lower.getD i 0) (upper.getD i 0) (Source.next (drained i source)).1 := by
  have hi' : i < upper.length := hlength ▸ hi
  have hzip : i < (velocityFrom lower upper source).length := by
    rw [velocityFrom, List.length_mapIdx, List.length_zip]
    exact lt_min hi hi'
  rw [List.getD_eq_getElem _ _ hzip, List.getD_eq_getElem _ _ hi, List.getD_eq_getElem _ _ hi']
  simp only [velocityFrom, List.getElem_mapIdx, List.getElem_zip]

variable {format : Format α} {round : ℚ → ℚ}

theorem redirected_velocityFrom (h : Rounds format round) (hlength : lower.length = upper.length)
    (hle : ∀ i < lower.length, lower.getD i 0 ≤ upper.getD i 0)
    (husable : Usable format lower upper) {source : σ}
    (hsource : ∀ n, 0 ≤ (Source.next (drained n source)).1 ∧
      (Source.next (drained n source)).1 < 1) (individual : Individual α) :
    Redirected format lower upper individual
      { individual with velocity := velocityFrom lower upper source } := by
  refine ⟨rfl, rfl, rfl, ?_, fun i hi => ?_⟩
  · rw [velocityFrom, List.length_mapIdx, List.length_zip, hlength, Nat.min_self]
  · obtain ⟨hlower, hupper, hwidth⟩ := husable i hi
    rw [getD_velocityFrom hlength source hi]
    exact between_inRange h hlower hupper (hle i hi) hwidth (hsource i)

theorem redirected_of_resetVelocities (h : Rounds format round)
    (husable : Usable format lower upper)
    (hsource : ∀ n, 0 ≤ (Source.next (drained n island.session.source)).1 ∧
      (Source.next (drained n island.session.source)).1 < 1)
    (hreset : Island.resetVelocities lower upper island = .ok () next) :
    List.Forall₂ (Redirected format lower upper) island.population.individuals
      next.population.individuals := by
  have hbox := checkBox_of_resetVelocities hreset
  obtain ⟨hlower, hupper⟩ := checkBox_length hbox
  rw [resetVelocities_of_checkBox hbox] at hreset
  rw [(redrawn_forM hreset).individuals_eq, List.forall₂_iff_get]
  refine ⟨List.length_mapIdx.symm, fun j hj hj' => ?_⟩
  have hsize : j < island.population.size := hj
  simp only [List.get_eq_getElem, List.getElem_mapIdx, if_pos hsize]
  refine redirected_velocityFrom h (hlower.trans hupper.symm)
    (fun i hi => le_of_checkBox hbox (hlower ▸ hi)) husable (fun n => ?_) _
  rw [drained_drained]
  exact hsource _

end Resetting

/-- However the arithmetic rounds, draws stay in their ranges. -/
theorem draws_stay_in_range [Source σ α] {format : Format α} {round : ℚ → ℚ}
    (h : Rounds format round) :
    (∀ lower upper u : α, format.IsFinite lower → format.IsFinite upper → lower ≤ upper →
      format.IsFinite (upper - lower) → 0 ≤ u ∧ u < 1 →
      InRange format lower upper (Sampling.between lower upper u)) ∧
    (∀ lower upper u : α, format.IsFinite lower → format.IsFinite upper →
      ⌈format.value lower⌉ ≤ ⌊format.value upper⌋ → ⌈format.value lower⌉.natAbs ≤ 2 ^ 51 →
      ⌊format.value upper⌋.natAbs ≤ 2 ^ 51 → 0 ≤ u ∧ u < 1 →
      ∃ k, Whole format (Sampling.wholeBetween lower upper u) k ∧
        ⌈format.value lower⌉ ≤ k ∧ k ≤ ⌊format.value upper⌋) ∧
    (∀ (lower upper : List α) (island next : Island σ α), Usable format lower upper →
      (∀ n, 0 ≤ (Source.next (drained n island.session.source)).1 ∧
        (Source.next (drained n island.session.source)).1 < 1) →
      Island.resetVelocities lower upper island = .ok () next →
      List.Forall₂ (Redirected format lower upper) island.population.individuals
        next.population.individuals) :=
  ⟨fun _ _ _ => between_inRange h, fun _ _ _ => wholeBetween_mem_range h,
    fun _ _ _ _ => redirected_of_resetVelocities h⟩

/-- The number that comes right after one. -/
def successor : Binary64 :=
  ⟨0x3FF0000000000001⟩

theorem usable_interval : Usable doubles [-1] [1] := by
  intro i hi
  obtain rfl : i = 0 := Nat.lt_one_iff.mp hi
  have hfinite : IsFinite (-1) ∧ IsFinite 1 ∧ IsFinite (1 - -1) := by decide +kernel
  exact hfinite

theorem interval_yieldsDeviates : YieldsDeviates intervalIsland.session.source := by
  have hdefined : ∀ x ∈ [(0.5 : Binary64)], x.isNaN = false := by decide +kernel
  have hsession : intervalIsland.session.source = Script.ofList [0.5] := rfl
  rw [hsession]
  exact yieldsDeviates_ofList hdefined

theorem exists_reset_interval :
    ∃ next, Island.resetVelocities [-1] [1] intervalIsland = .ok () next := by
  have hbox : intervalIsland.population.problem.checkBox false [-1] [1] = .ok () := rfl
  have hmembers : ∀ individual ∈ intervalIsland.population.individuals,
      individual.decision.length = intervalIsland.population.problem.dimension :=
    List.forall_mem_singleton.mpr rfl
  obtain ⟨next, hnext, -⟩ := steer_all (fitsBox_of_checkBox hmembers hbox) le_rfl
  exact ⟨next, (resetVelocities_of_checkBox hbox).trans hnext⟩

theorem interval_draws_stay_in_range :
    InRange doubles 1 successor (Sampling.between 1 successor Script.ceiling) ∧
      (∃ k, Whole doubles (Sampling.wholeBetween 0 1 Script.ceiling) k ∧ 0 ≤ k ∧ k ≤ 1) ∧
      ∃ next, Island.resetVelocities [-1] [1] intervalIsland = .ok () next ∧
        List.Forall₂ (Redirected doubles [-1] [1]) intervalIsland.population.individuals
          next.population.individuals := by
  obtain ⟨hbetween, hwhole, hreset⟩ := draws_stay_in_range (σ := Script Binary64) rounds_doubles
  have hceiling : (0 : Binary64) ≤ Script.ceiling ∧ (Script.ceiling : Binary64) < 1 := by
    decide +kernel
  refine ⟨?_, ?_, ?_⟩
  · have hfinite : IsFinite 1 ∧ IsFinite successor ∧ IsFinite (successor - 1) := by decide +kernel
    have hle : (1 : Binary64) ≤ successor := by decide +kernel
    exact hbetween 1 successor Script.ceiling hfinite.1 hfinite.2.1 hle hfinite.2.2 hceiling
  · have hends := hwhole 0 1 Script.ceiling doubles.zero.1 doubles.one.1
    rw [doubles.zero.2, doubles.one.2, Int.ceil_zero, Int.floor_one] at hends
    exact hends (by decide) (by decide) (by decide) hceiling
  · obtain ⟨next, hnext⟩ := exists_reset_interval
    exact ⟨next, hnext, hreset _ _ _ _ usable_interval interval_yieldsDeviates hnext⟩

end Archipelago.Proofs.Velocities
