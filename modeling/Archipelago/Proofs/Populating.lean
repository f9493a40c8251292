import Archipelago.Proofs.Containment
import Archipelago.Proofs.Operations
import Archipelago.Proofs.Samples

namespace Archipelago.Proofs.Populating

open Accounting
open Actions
open Containment
open Infinities
open Magnitudes
open Operations
open OrderedScalars
open Roundings
open Samples
open Steps
open WholeNumbers

variable {σ β γ : Type}

section Draws

variable {α : Type} [Source σ α]

/-- An operation draws `k` numbers, and its result is a matter of the source that they come from. -/
structure Draws (operation : StateM (Session σ α) γ) (k : Nat) (result : σ → γ) : Prop where
  drawn : ∀ session, Drawn session k (operation session).2
  result_eq : ∀ session, (operation session).1 = result session.source

theorem Draws.mapM {f : β → StateM (Session σ α) γ} {k : Nat} {result : β → σ → γ}
    (h : ∀ x, Draws (f x) k (result x)) (xs : List β) :
    Draws (xs.mapM f) (xs.length * k)
      fun source => xs.mapIdx fun i x => result x (drained (i * k) source) := by
  induction xs with
  | nil =>
      refine ⟨fun session => ⟨?_, ?_⟩, fun session => rfl⟩
      · rw [List.length_nil, Nat.zero_mul]
        rfl
      · rw [List.length_nil, Nat.zero_mul]
        rfl
  | cons x xs ih =>
      have hmapM : ∀ session, (x :: xs).mapM f session =
          ((f x session).1 :: (xs.mapM f (f x session).2).1, (xs.mapM f (f x session).2).2) := by
        intro session
        rw [List.mapM_cons]
        rfl
      refine ⟨fun session => ?_, fun session => ?_⟩
      · rw [hmapM, List.length_cons, Nat.succ_mul, Nat.add_comm]
        exact ((h x).drawn session).trans (ih.drawn _)
      · rw [hmapM, ih.result_eq, (h x).result_eq, ((h x).drawn session).source_eq,
          List.mapIdx_cons, Nat.zero_mul]
        simp only [drained_drained, Nat.succ_mul, Nat.add_comm k]
        rfl

theorem draws_each [Scalar α] (f : β → α → γ) (xs : List β) :
    Draws (xs.mapM fun x => do return f x (← Session.uniform) : StateM (Session σ α) (List γ))
      xs.length fun source => xs.mapIdx fun i x => f x (Source.next (drained i source)).1 := by
  let draw : β → StateM (Session σ α) γ := fun x => do return f x (← Session.uniform)
  have hdraw : ∀ x, Draws (draw x) 1 fun source => f x (Source.next source).1 :=
    fun _ => ⟨fun _ => ⟨rfl, rfl⟩, fun _ => rfl⟩
  have hdraws := Draws.mapM hdraw xs
  simp only [Nat.mul_one] at hdraws
  exact hdraws

end Draws

/-- Component `i` of a decision, as it comes from a deviate. -/
def component (continuous i : Nat) (lower upper u : Binary64) : Binary64 :=
  if i < continuous then Sampling.between lower upper u
  else Sampling.wholeBetween lower upper u

variable [Source σ Binary64]

def decisionFrom (continuous : Nat) (lower upper : List Binary64) (source : σ) : List Binary64 :=
  (lower.zip upper).mapIdx fun i bounds =>
    component continuous i bounds.1 bounds.2 (Source.next (drained i source)).1

theorem draws_decision (continuous : Nat) (lower upper : List Binary64) :
    Draws (Sampling.decision continuous lower upper : StateM (Session σ Binary64) _)
      (lower.zip upper).length (decisionFrom continuous lower upper) := by
  have hdraws := draws_each (σ := σ)
    (fun (entry : (Binary64 × Binary64) × Nat) u =>
      component continuous entry.2 entry.1.1 entry.1.2 u) (lower.zip upper).zipIdx
  rw [List.length_zipIdx] at hdraws
  refine ⟨hdraws.drawn, fun session => (hdraws.result_eq session).trans ?_⟩
  apply List.ext_getElem
  · simp [decisionFrom]
  · intro i hi hi'
    simp [decisionFrom]

theorem draws_individual (problem : Problem Binary64) (lower upper : List Binary64) :
    Draws (Island.drawIndividual problem lower upper : StateM (Session σ Binary64) _)
      (lower.zip upper).length fun source =>
        evaluated problem (decisionFrom problem.continuousDimension lower upper source)
          (List.replicate problem.dimension 0) := by
  have hdraws := draws_decision (σ := σ) problem.continuousDimension lower upper
  refine ⟨fun session => (hdraws.drawn session).of_eq rfl rfl, fun session => ?_⟩
  rw [← hdraws.result_eq]
  rfl

/-- Bounds and a deviate that lead to a component in range. -/
def Obtainable (continuous i : Nat) (lower upper u : Binary64) : Prop :=
  if i < continuous then Drawable lower upper u
  else IsFinite (Scalar.floor upper - Scalar.ceil lower)

/-- There is a component between two bounds. -/
def Roomy (continuous i : Nat) (lower upper : Binary64) : Prop :=
  if i < continuous then lower ≤ upper else ¬Scalar.floor upper < Scalar.ceil lower

section Components

variable {continuous i : Nat} {lower upper u : Binary64}

theorem component_mem (hroomy : Roomy continuous i lower upper) (hu : 0 ≤ u ∧ u < 1)
    (h : Obtainable continuous i lower upper u) :
    (lower ≤ component continuous i lower upper u ∧
        component continuous i lower upper u ≤ upper) ∧
      (continuous ≤ i → Scalar.IsWhole (component continuous i lower upper u)) := by
  rw [Roomy] at hroomy
  rw [Obtainable] at h
  rw [component]
  split_ifs at hroomy h ⊢ with hlt
  · exact ⟨between_mem hroomy hu h, fun hle => absurd hlt (not_lt.mpr hle)⟩
  · obtain ⟨hmem, hwhole⟩ := wholeBetween_mem hroomy h hu
    exact ⟨hmem, fun _ => hwhole⟩

theorem obtainable_of_component (hroomy : Roomy continuous i lower upper) (hu : 0 ≤ u)
    (hdefined : (component continuous i lower upper u).isNaN = false)
    (hwhole : continuous ≤ i → Scalar.IsWhole (component continuous i lower upper u)) :
    Obtainable continuous i lower upper u := by
  rw [Roomy] at hroomy
  rw [component] at hdefined hwhole
  rw [Obtainable]
  by_contra hnot
  split_ifs at hroomy hdefined hwhole hnot with hlt
  · rw [between_isNaN hroomy hu hnot] at hdefined
    contradiction
  · exact wholeBetween_not_isWhole hnot (hwhole (not_lt.mp hlt))

/-- Undefined bounds pass for bounds of whole numbers, but no component can be obtained from
them. -/
theorem roomy_of_isNaN (hle : continuous ≤ i) (h : lower.isNaN = true ∨ upper.isNaN = true) :
    Roomy continuous i lower upper ∧ ¬Obtainable continuous i lower upper u := by
  rw [Roomy, Obtainable, if_neg (not_lt.mpr hle), if_neg (not_lt.mpr hle)]
  have hends : (Scalar.ceil lower).isNaN = true ∨ (Scalar.floor upper).isNaN = true :=
    h.imp ceil_isNaN floor_isNaN
  constructor
  · rintro ⟨hfloor, hceil, -⟩
    rw [hfloor, hceil] at hends
    exact hends.elim nofun nofun
  · intro hfinite
    obtain ⟨hfloor, hceil⟩ := operands_of_sub hfinite
    rw [isNaN_of_isFinite hfloor, isNaN_of_isFinite hceil] at hends
    exact hends.elim nofun nofun

end Components

theorem checkBox_room {problem : Problem Binary64} {lower upper : List Binary64}
    (h : problem.checkBox true lower upper = .ok ()) {i : Nat} (hi : i < problem.dimension) :
    Roomy problem.continuousDimension i (lower.getD i 0) (upper.getD i 0) ∧
      ∀ value ∈ [lower.getD i 0, upper.getD i 0],
        ¬(value < problem.lower.getD i 0 ∨ problem.upper.getD i 0 < value) := by
  rw [Problem.checkBox, except_bind_eq_ok_iff, except_bind_eq_ok_iff,
    except_forM_eq_ok_iff] at h
  have hcheck := h.2.2 i (List.mem_range.mpr hi)
  generalize lower.getD i 0 = l at hcheck ⊢
  generalize upper.getD i 0 = u at hcheck ⊢
  dsimp only at hcheck
  generalize hhollow : (if true = true ∧ problem.continuousDimension ≤ i then
    decide (Scalar.floor u < Scalar.ceil l) else !decide (l ≤ u)) = hollow at hcheck
  cases hollow with
  | true => contradiction
  | false =>
      rw [if_neg Bool.false_ne_true, if_pos rfl, except_forM_eq_ok_iff] at hcheck
      constructor
      · rw [Roomy]
        split_ifs with hlt
        · simpa [not_le.mpr hlt] using hhollow
        · simpa [not_lt.mp hlt] using hhollow
      · intro value hmem hout
        have hvalue := hcheck value hmem
        rw [if_pos hout] at hvalue
        contradiction

theorem YieldsDeviates.drained {source : σ} (h : YieldsDeviates source) (n : Nat) :
    YieldsDeviates (Accounting.drained n source) := by
  intro m
  rw [drained_drained]
  exact h (n + m)

theorem Poses.dimension_eq {box : BoxProblem Binary64} {problem : Problem Binary64}
    (h : Poses box problem) : problem.dimension = box.lower.length := by
  obtain ⟨key, counted, rfl⟩ := h
  rfl

/-- Number `i` of a source. -/
def deviate (source : σ) (i : Nat) : Binary64 :=
  (Source.next (drained i source)).1

/-- A member that has been drawn from a box, starting at a state of a source. -/
structure DrawnFrom (problem : Problem Binary64) (lower upper : List Binary64) (source : σ)
    (individual : Individual Binary64) : Prop where
  evaluated_eq : individual =
    evaluated problem individual.decision (List.replicate problem.dimension 0)
  length_eq : individual.decision.length = problem.dimension
  component_eq : ∀ i (h : i < individual.decision.length), individual.decision[i] =
    component problem.continuousDimension i (lower.getD i 0) (upper.getD i 0) (deviate source i)
  inside : ∀ i (h : i < individual.decision.length),
    Obtainable problem.continuousDimension i (lower.getD i 0) (upper.getD i 0)
        (deviate source i) →
      (lower.getD i 0 ≤ individual.decision[i] ∧ individual.decision[i] ≤ upper.getD i 0) ∧
        (problem.continuousDimension ≤ i → Scalar.IsWhole individual.decision[i])
  verify_iff : problem.verify individual.decision = .ok () ↔
    ∀ i < problem.dimension, Obtainable problem.continuousDimension i (lower.getD i 0)
      (upper.getD i 0) (deviate source i)

section Members

variable {box : BoxProblem Binary64} {problem : Problem Binary64} {lower upper : List Binary64}
  {source : σ}

theorem length_decisionFrom (hbox : problem.checkBox true lower upper = .ok ()) :
    (decisionFrom problem.continuousDimension lower upper source).length = problem.dimension := by
  obtain ⟨hlower, hupper⟩ := checkBox_length hbox
  rw [decisionFrom, List.length_mapIdx, List.length_zip, hlower, hupper, Nat.min_self]

theorem getElem_decisionFrom {i : Nat}
    (h : i < (decisionFrom problem.continuousDimension lower upper source).length) :
    (decisionFrom problem.continuousDimension lower upper source)[i] =
      component problem.continuousDimension i (lower.getD i 0) (upper.getD i 0)
        (deviate source i) := by
  have hzip : i < (lower.zip upper).length := by rwa [decisionFrom, List.length_mapIdx] at h
  rw [List.length_zip, Nat.lt_min] at hzip
  simp only [decisionFrom, List.getElem_mapIdx, List.getElem_zip]
  rw [List.getD_eq_getElem _ _ hzip.1, List.getD_eq_getElem _ _ hzip.2, deviate]

theorem drawnFrom_evaluated (hposes : Poses box problem)
    (hbox : problem.checkBox true lower upper = .ok ()) (hsource : YieldsDeviates source) :
    DrawnFrom problem lower upper source
      (evaluated problem (decisionFrom problem.continuousDimension lower upper source)
        (List.replicate problem.dimension 0)) := by
  have hlength : (decisionFrom problem.continuousDimension lower upper source).length =
      problem.dimension := length_decisionFrom hbox
  have hcomponent := fun i => @getElem_decisionFrom σ _ problem lower upper source i
  generalize decisionFrom problem.continuousDimension lower upper source = decision at *
  have hinside : ∀ i (h : i < decision.length),
      Obtainable problem.continuousDimension i (lower.getD i 0) (upper.getD i 0)
          (deviate source i) →
        (lower.getD i 0 ≤ decision[i] ∧ decision[i] ≤ upper.getD i 0) ∧
          (problem.continuousDimension ≤ i → Scalar.IsWhole decision[i]) := by
    intro i h hobtainable
    rw [hcomponent i h]
    exact component_mem (checkBox_room hbox (hlength ▸ h)).1 (hsource i) hobtainable
  refine ⟨rfl, hlength, hcomponent, hinside, ?_⟩
  obtain ⟨hleast, hgreatest, hcontinuous⟩ := hposes.fields
  have hdimension := Poses.dimension_eq hposes
  change problem.verify decision = .ok () ↔ _
  rw [hposes.verify_eq, verify_eq_ok_iff, ← hdimension, ← hcontinuous]
  constructor
  · rintro ⟨-, hverified⟩ i hi
    obtain ⟨hbetween, hwhole⟩ := hverified i (hlength.symm ▸ hi)
    rw [hcomponent] at hbetween hwhole
    exact obtainable_of_component (checkBox_room hbox hi).1 (hsource i).1 hbetween.1.2.1 hwhole
  · intro hobtainable
    refine ⟨hlength, fun i h => ?_⟩
    have hi : i < problem.dimension := hlength ▸ h
    obtain ⟨hmem, hwhole⟩ := hinside i h (hobtainable i hi)
    obtain ⟨-, hnested⟩ := checkBox_room hbox hi
    have hbounds : box.lower.getD i 0 ≤ box.upper.getD i 0 := bounds_le (hdimension ▸ hi)
    rw [hleast, hgreatest] at hnested
    have hlower := le_of_not_lt hbounds.1 hmem.1.1
      fun h => hnested _ List.mem_cons_self (.inl h)
    have hupper := le_of_not_lt hmem.2.2.1 hbounds.2.1
      fun h => hnested _ (List.mem_cons_of_mem _ List.mem_cons_self) (.inr h)
    exact ⟨⟨Binary64.le_trans hlower hmem.1, Binary64.le_trans hmem.2 hupper⟩, hwhole⟩

end Members

theorem createRandom_eq {lower upper : List Binary64} {n : Nat} {island next : Island σ Binary64}
    (h : Island.createRandom lower upper n island = .ok () next) :
    let problem := island.population.problem
    problem.checkBox true lower upper = .ok () ∧ next.population.problem = problem ∧
      next.population.individuals = (List.range n).map (fun j =>
        evaluated problem
          (decisionFrom problem.continuousDimension lower upper
            (drained (j * problem.dimension) island.session.source))
          (List.replicate problem.dimension 0)) ∧
      Drawn island.session (n * problem.dimension) next.session := by
  intro problem
  rw [Island.createRandom, getPopulation_bind, require_bind] at h
  cases hbox : problem.checkBox true lower upper with
  | error cause =>
      rw [hbox] at h
      contradiction
  | ok =>
      rw [hbox] at h
      obtain ⟨hlower, hupper⟩ := checkBox_length hbox
      have hdraws := Draws.mapM (fun _ : Unit => draws_individual (σ := σ) problem lower upper)
        (List.replicate n ())
      rw [List.length_zip, hlower, hupper, Nat.min_self, List.length_replicate] at hdraws
      simp only at h
      rw [perform_bind, update_bind] at h
      change EStateM.Result.ok () _ = _ at h
      cases h
      refine ⟨rfl, rfl, (hdraws.result_eq island.session).trans ?_,
        (hdraws.drawn island.session).of_eq rfl rfl⟩
      apply List.ext_getElem
      · simp
      · intro j hj hj'
        simp

theorem createRandom_succeeds_iff {lower upper : List Binary64} {n : Nat}
    {island : Island σ Binary64} :
    (∃ next, Island.createRandom lower upper n island = .ok () next) ↔
      island.population.problem.checkBox true lower upper = .ok () := by
  constructor
  · rintro ⟨next, h⟩
    exact (createRandom_eq h).1
  · intro hbox
    rw [Island.createRandom, getPopulation_bind, require_bind, hbox]
    exact ⟨_, rfl⟩

/-- Members that are drawn at random have as many numbers to themselves as they have components.
They are in the box, and the problem accepts them, unless a component cannot be obtained. -/
theorem random_members_are_drawn_from_box {box : BoxProblem Binary64} {lower upper : List Binary64}
    {n : Nat} {island next : Island σ Binary64} (hposes : Poses box island.population.problem)
    (hsource : YieldsDeviates island.session.source)
    (h : Island.createRandom lower upper n island = .ok () next) :
    next.population.problem = island.population.problem ∧
      next.population.individuals.length = n ∧
      Drawn island.session (n * island.population.problem.dimension) next.session ∧
      ∀ j (hj : j < next.population.individuals.length),
        DrawnFrom island.population.problem lower upper
          (drained (j * island.population.problem.dimension) island.session.source)
          next.population.individuals[j] := by
  obtain ⟨hbox, hproblem, hindividuals, hdrawn⟩ := createRandom_eq h
  refine ⟨hproblem, ?_, hdrawn, ?_⟩
  · rw [hindividuals, List.length_map, List.length_range]
  · intro j hj
    simp only [hindividuals, List.getElem_map, List.getElem_range]
    exact drawnFrom_evaluated hposes hbox (YieldsDeviates.drained hsource _)

def dialBox : BoxProblem Binary64 where
  name := "dial"
  lower := [-1, 0]
  upper := [1, 5]
  integers := 1
  objectives := 1
  objective := fun decision => [decision.headD 0]
  length_eq := rfl
  le_of_mem := by decide +kernel

def dialIsland : Island (Script Binary64) Binary64 where
  population := { problem := dialBox.toProblem }
  session := { source := .constant 0.5 }

theorem dial_members_are_drawn_from_box :
    ∃ next, Island.createRandom [-1, 0] [1, 5] 3 dialIsland = .ok () next ∧
      next.session.draws = 6 ∧
      ∀ individual ∈ next.population.individuals,
        dialBox.toProblem.verify individual.decision = .ok () := by
  have hbox : dialBox.toProblem.checkBox true [-1, 0] [1, 5] = .ok () := by
    decide +kernel
  have hposes : Poses dialBox dialIsland.population.problem := ⟨0, false, rfl⟩
  have hsource : YieldsDeviates dialIsland.session.source := by
    have hdefined : ∀ x ∈ [(0.5 : Binary64)], x.isNaN = false := by decide +kernel
    have hsession : dialIsland.session.source = Script.ofList [0.5] := rfl
    rw [hsession]
    exact yieldsDeviates_ofList hdefined
  obtain ⟨next, hnext⟩ : ∃ next, Island.createRandom [-1, 0] [1, 5] 3 dialIsland = .ok () next :=
    createRandom_succeeds_iff.mpr hbox
  obtain ⟨-, -, hdrawn, hmembers⟩ := random_members_are_drawn_from_box hposes hsource hnext
  refine ⟨next, hnext, hdrawn.draws_eq, ?_⟩
  intro individual hmem
  obtain ⟨j, hj, rfl⟩ := List.getElem_of_mem hmem
  refine (hmembers j hj).verify_iff.mpr ?_
  have hfirst : IsFinite (1 - -1) := by decide +kernel
  have hsecond : IsFinite (Scalar.floor 5 - Scalar.ceil 0 : Binary64) := by decide +kernel
  intro i hi
  match i, hi with
  | 0, _ => exact .inl hfirst
  | 1, _ => exact hsecond

end Archipelago.Proofs.Populating
