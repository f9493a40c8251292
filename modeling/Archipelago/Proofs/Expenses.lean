import Archipelago.Proofs.Accounting
import Archipelago.Proofs.Scenarios
import Mathlib.Algebra.GroupWithZero.Nat

namespace Archipelago.Proofs.Expenses

open Accounting
open Actions
open Operations
open Runs
open Scenarios

variable {σ α β γ : Type}

theorem objectiveCalls_mapM {f : β → StateM (Session σ α) γ} {n : Nat}
    (h : ∀ x session, objectiveCalls (f x session).2 = objectiveCalls session + n) (xs : List β)
    (session : Session σ α) :
    objectiveCalls (xs.mapM f session).2 = objectiveCalls session + xs.length * n := by
  induction xs generalizing session with
  | nil =>
      rw [List.length_nil, Nat.zero_mul]
      rfl
  | cons x xs ih =>
      rw [List.mapM_cons, List.length_cons, Nat.succ_mul, Nat.add_comm _ n, ← Nat.add_assoc, ← h x]
      exact ih (f x session).2

section Sampling

variable [Scalar α] [Source σ α]

theorem objectiveCalls_vector (lower upper : List α) (session : Session σ α) :
    objectiveCalls (Sampling.vector lower upper session).2 = objectiveCalls session :=
  @objectiveCalls_mapM σ α _ _ _ 0 (fun _ _ => rfl) (lower.zip upper) session

theorem objectiveCalls_decision (continuous : Nat) (lower upper : List α) (session : Session σ α) :
    objectiveCalls (Sampling.decision continuous lower upper session).2 =
      objectiveCalls session :=
  @objectiveCalls_mapM σ α _ _ _ 0 (fun _ _ => rfl) (lower.zip upper).zipIdx session

theorem objectiveCalls_drawPicks (n : Nat) (pool : List Nat) (session : Session σ α) :
    objectiveCalls (Island.drawPicks n pool session).2 = objectiveCalls session := by
  induction n generalizing pool session with
  | zero => rfl
  | succ n ih => exact ih _ (Session.uniform session).2

end Sampling

variable [Scalar α]

/-- An action calls the objective as often as can be told from what it returns, and not at all if it
fails. -/
def Spends (action : Action σ α β) (spent : β → Nat) (island : Island σ α) : Prop :=
  match action island with
  | .ok value next =>
    objectiveCalls next.session = objectiveCalls island.session + spent value
  | .error _ next => objectiveCalls next.session = objectiveCalls island.session

section Rules

variable {island : Island σ α} {spent : γ → Nat}

theorem spends_getPopulation_bind {f : Population α → Action σ α γ}
    (h : Spends (f island.population) spent island) :
    Spends (Island.getPopulation >>= f) spent island :=
  h

theorem spends_require_bind {check : Except (Violation α) β} {f : β → Action σ α γ}
    (h : ∀ value, Spends (f value) spent island) :
    Spends (Island.require check >>= f) spent island := by
  rw [Spends, require_bind]
  cases check with
  | ok value => exact h value
  | error => rfl

theorem spends_perform_bind {operation : StateM (Session σ α) β} {f : β → Action σ α γ}
    (hcalls : objectiveCalls (operation island.session).2 = objectiveCalls island.session)
    (h : ∀ value session, Spends (f value) spent { island with session }) :
    Spends (Island.perform operation >>= f) spent island := by
  have hrest := h (operation island.session).1 (operation island.session).2
  rw [Spends] at hrest ⊢
  rw [perform_bind, ← hcalls]
  exact hrest

theorem Spends.bind {action : Action σ α β} {f : β → Action σ α γ}
    (h : Spends action (fun _ => 0) island)
    (hrest : ∀ value next, Spends (f value) spent next) :
    Spends (action >>= f) spent island := by
  rw [Spends] at h ⊢
  rw [bind_apply]
  cases haction : action island with
  | ok value next =>
      have hnext := hrest value next
      rw [haction] at h
      rw [Spends, h] at hnext
      exact hnext
  | error cause next =>
      rw [haction] at h
      exact h

theorem Spends.map {action : Action σ α β} (f : β → γ)
    (h : Spends action (fun value => spent (f value)) island) :
    Spends (do return f (← action)) spent island := by
  rw [Spends] at h ⊢
  rw [bind_apply]
  cases haction : action island with
  | ok value next =>
      rw [haction] at h
      exact h
  | error cause next =>
      rw [haction] at h
      exact h

theorem spends_forM {f : β → Action σ α PUnit} (xs : List β)
    (h : ∀ x next, Spends (f x) (fun _ => 0) next) (island : Island σ α) :
    Spends (xs.forM f) (fun _ => 0) island := by
  induction xs generalizing island with
  | nil => rfl
  | cons x xs ih => exact (h x island).bind fun _ next => ih next

end Rules

section Changes

variable (island : Island σ α)

theorem spends_push (individual : Individual α) :
    Spends (Island.push individual) (fun _ => 0) island := by
  apply spends_getPopulation_bind
  apply spends_require_bind
  intro _
  rfl

theorem spends_pushDecision (decision : List α) :
    Spends (Island.pushDecision decision) (fun _ => 1) island := by
  rw [Spends, pushDecision_eq]
  cases island.population.problem.verify decision with
  | error => rfl
  | ok => rfl

theorem spends_substitute (index : Nat) (individual : Individual α) :
    Spends (Island.substitute index individual) (fun _ => 0) island := by
  apply spends_getPopulation_bind
  apply spends_require_bind
  intro _
  apply spends_require_bind
  intro _
  rfl

theorem spends_setDecision (index : Nat) (decision : List α) :
    Spends (Island.setDecision index decision) (fun _ => 1) island := by
  apply spends_getPopulation_bind
  apply spends_require_bind
  intro _
  apply spends_require_bind
  intro _
  apply spends_getPopulation_bind
  apply spends_require_bind
  intro _
  rfl

theorem spends_setVelocity (index : Nat) (velocity : List α) :
    Spends (Island.setVelocity index velocity) (fun _ => 0) island := by
  apply spends_getPopulation_bind
  apply spends_require_bind
  intro _
  apply spends_require_bind
  intro _
  rfl

theorem spends_reevaluate :
    Spends Island.reevaluate (fun _ => island.population.size) island := by
  let move : Individual α → StateM (Session σ α) (Individual α) := fun individual =>
    individual.move island.population.problem individual.decision
  have hcalls : objectiveCalls (island.population.individuals.mapM move island.session).2 =
      objectiveCalls island.session + island.population.individuals.length * 1 :=
    objectiveCalls_mapM (fun _ _ => rfl) _ _
  rw [Nat.mul_one] at hcalls
  exact hcalls

theorem spends_insertDeme (deme : Deme α) :
    Spends (Island.insertDeme deme) (fun _ => 0) island := by
  apply spends_getPopulation_bind
  apply spends_require_bind
  intro _
  rfl

theorem spends_insertDemeForced (deme : Deme α) :
    Spends (Island.insertDemeForced deme) (fun _ => 0) island := by
  apply spends_getPopulation_bind
  apply spends_require_bind
  intro _
  rfl

theorem spends_insertBest [Extended α] (deme : Deme α) :
    Spends (Island.insertBest deme) (fun _ => 0) island := by
  rw [Spends, insertBest_eq]
  cases deme.check island.population with
  | error => rfl
  | ok =>
      simp only
      split
      case h_1 value next h =>
        split at h
        · cases h
          simp only
          split
          · rfl
          · rfl
        · contradiction
      case h_2 cause next h =>
        split at h
        · contradiction
        · cases h
          rfl

variable [Source σ α]

theorem spends_createRandom (lower upper : List α) (n : Nat) :
    Spends (Island.createRandom lower upper n) (fun _ => n) island := by
  apply spends_getPopulation_bind
  apply spends_require_bind
  intro _
  let draw : Unit → StateM (Session σ α) (Individual α) := fun _ =>
    Island.drawIndividual island.population.problem lower upper
  have hdraw : ∀ x session, objectiveCalls (draw x session).2 = objectiveCalls session + 1 := by
    intro _ session
    exact congrArg (· + 1) (objectiveCalls_decision _ lower upper session)
  have hcalls : objectiveCalls ((List.replicate n ()).mapM draw island.session).2 =
      objectiveCalls island.session + (List.replicate n ()).length * 1 :=
    objectiveCalls_mapM hdraw _ _
  rw [List.length_replicate, Nat.mul_one] at hcalls
  exact hcalls

theorem spends_populate (n : Nat) : Spends (Island.populate n) (fun _ => n) island := by
  apply spends_getPopulation_bind
  exact spends_createRandom island _ _ n

theorem spends_resetVelocities (lower upper : List α) :
    Spends (Island.resetVelocities lower upper) (fun _ => 0) island := by
  apply spends_getPopulation_bind
  apply spends_require_bind
  intro _
  apply spends_forM
  intro index next
  apply spends_perform_bind (objectiveCalls_vector lower upper next.session)
  intro velocity session
  exact spends_setVelocity { next with session } index velocity

theorem spends_extractDeme (n : Nat) : Spends (Island.extractDeme n) (fun _ => 0) island := by
  apply spends_getPopulation_bind
  by_cases hn : island.population.size < n
  · rw [if_pos hn]
    rfl
  · rw [if_neg hn]
    exact objectiveCalls_drawPicks n (List.range island.population.size) island.session

def runExpense (report : Annealer.Report α) : Nat :=
  report.tally.evaluations + if report.improved then 1 else 0

theorem spends_run [Elementary α] [Extended α] (annealer : Annealer α) :
    Spends annealer.run runExpense island := by
  rw [Spends]
  obtain ⟨cause, hfails⟩ | ⟨stages, individual, slot, -, -, hrun⟩ :=
    run_fails_or_walks annealer island
  · rw [hfails]
  · rw [hrun]
    exact (accounts_concluded annealer stages slot island individual).objectiveCalls_eq

end Changes

variable [Elementary α] [Extended α]

/-- Evaluations that a change of a population costs, given its reply. -/
def changeExpense (population : Population α) : Operation α → Reply α → Nat
  | .createRandom _ _ n, .done => n
  | .pushDecision _, .done => 1
  | .setDecision _ _, .done => 1
  | .reevaluate, .done => population.size
  | .anneal _, .report report => runExpense report
  | _, _ => 0

variable [Source σ α]

/-- Evaluations that a command costs, given its reply. -/
def expense (world : World σ α) : Command α → Reply α → Nat
  | .randomPopulation n, .done => n
  | .create _ _, .individual _ => 1
  | .atRest _, .individual _ => 1
  | .change place operation, reply =>
    match world.populations[place]? with
    | some population => changeExpense population operation reply
    | none => 0
  | .evolve place annealer, .done =>
    match world.populations[place]? with
    | some population =>
      match annealer.run { population, session := world.session } with
      | .ok report _ => runExpense report
      | .error _ _ => 0
    | none => 0
  | _, _ => 0

omit [Elementary α] [Extended α] [Source σ α] in
theorem spends_complete {action : Action σ α Unit} {island : Island σ α} {spent : Reply α → Nat}
    (h : Spends action (fun _ => spent .done) island) : Spends (complete action) spent island :=
  Spends.map (fun _ => Reply.done) h

theorem spends_perform (operation : Operation α) (island : Island σ α) :
    Spends (perform operation) (changeExpense island.population operation) island := by
  cases operation with
  | createRandom lower upper n =>
      apply spends_complete
      exact spends_createRandom island lower upper n
  | resetVelocities lower upper =>
      apply spends_complete
      exact spends_resetVelocities island lower upper
  | push individual =>
      apply spends_complete
      exact spends_push island individual
  | pushDecision decision =>
      apply spends_complete
      exact spends_pushDecision island decision
  | substitute index individual =>
      apply spends_complete
      exact spends_substitute island index individual
  | setDecision index decision =>
      apply spends_complete
      exact spends_setDecision island index decision
  | setVelocity index velocity =>
      apply spends_complete
      exact spends_setVelocity island index velocity
  | reevaluate =>
      apply spends_complete
      exact spends_reevaluate island
  | insertDeme deme =>
      apply Spends.map Reply.count
      exact spends_insertDeme island deme
  | insertDemeForced deme =>
      apply spends_complete
      exact spends_insertDemeForced island deme
  | insertBest deme =>
      apply Spends.map Reply.count
      exact spends_insertBest island deme
  | anneal annealer =>
      apply Spends.map Reply.report
      exact spends_run island annealer

theorem spends_evolve [Numeral α] (annealer : Annealer α) {world : World σ α} {place : Nat}
    {population : Population α} (hplace : world.populations[place]? = some population) :
    Spends (complete annealer.toAlgorithm.evolve) (expense world (.evolve place annealer))
      { population, session := world.session } := by
  have hrun := spends_run { population, session := world.session } annealer
  have hexpense : expense world (.evolve place annealer) .done =
      match annealer.run { population, session := world.session } with
      | .ok report _ => runExpense report
      | .error _ _ => 0 := by
    rw [expense, hplace]
  rw [Spends] at hrun ⊢
  rw [complete, bind_apply, Annealer.toAlgorithm]
  simp only
  rw [bind_apply]
  cases hresult : annealer.run { population, session := world.session } with
  | ok report next =>
      rw [hresult] at hrun hexpense
      exact hrun.trans (congrArg _ hexpense.symm)
  | error cause next =>
      rw [hresult] at hrun
      exact hrun

omit [Elementary α] [Extended α] [Source σ α] in
theorem objectiveCalls_act {world : World σ α} {place : Nat} {action : Action σ α (Reply α)}
    {spent : Reply α → Nat} (hmissing : world.populations[place]? = none → spent .missing = 0)
    (hfailed : ∀ cause, spent (.failed cause) = 0)
    (h : ∀ population, world.populations[place]? = some population →
      Spends action spent { population, session := world.session }) :
    objectiveCalls (world.act place action).2.session =
      objectiveCalls world.session + spent (world.act place action).1 := by
  rw [World.act]
  cases hplace : world.populations[place]? with
  | none => exact congrArg (objectiveCalls world.session + ·) (hmissing hplace).symm
  | some population =>
      have haction := h population hplace
      rw [Spends] at haction
      simp only
      cases hresult : action { population, session := world.session } with
      | ok reply next =>
          rw [hresult] at haction
          exact haction
      | error cause next =>
          rw [hresult] at haction
          simp only [hfailed]
          exact haction

variable [Numeral α]

theorem objectiveCalls_obey (problem : Problem α) (world : World σ α) (command : Command α) :
    objectiveCalls (obey problem world command).2.session =
      objectiveCalls world.session + expense world command (obey problem world command).1 := by
  cases command with
  | newPopulation => rfl
  | randomPopulation n =>
      have hpopulate := spends_populate { population := { problem }, session := world.session } n
      rw [Spends] at hpopulate
      rw [obey]
      cases hresult : Island.populate n { population := { problem }, session := world.session } with
      | ok _ next =>
          rw [hresult] at hpopulate
          exact hpopulate
      | error _ next =>
          rw [hresult] at hpopulate
          exact hpopulate
  | copyPopulation place =>
      rw [obey]
      cases world.populations[place]? with
      | none => rfl
      | some => rfl
  | create decision velocity =>
      rw [obey, World.make, create_eq]
      cases problem.verify decision with
      | error => rfl
      | ok =>
          simp only
          cases (checkLength decision.length velocity.length : Except (Violation α) Unit) with
          | error => rfl
          | ok => rfl
  | atRest decision =>
      rw [obey, World.make, atRest_eq]
      cases problem.verify decision with
      | error => rfl
      | ok => rfl
  | steer individual velocity =>
      rw [obey]
      cases individual.withVelocity velocity with
      | error => rfl
      | ok => rfl
  | compare a b => rfl
  | change place operation =>
      apply objectiveCalls_act
      · intro hplace
        simp only [expense, hplace]
      · intro cause
        simp only [expense]
        cases world.populations[place]? with
        | none => rfl
        | some population => cases operation <;> rfl
      · intro population hplace
        have hperform := spends_perform operation
          ({ population, session := world.session } : Island σ α)
        have hexpense : expense world (.change place operation) =
            changeExpense population operation := by
          funext reply
          simp only [expense, hplace]
        rw [hexpense]
        exact hperform
  | extract place n =>
      apply objectiveCalls_act
      · intro _
        rfl
      · intro _
        rfl
      · intro population _
        apply Spends.map Reply.deme
        exact spends_extractDeme { population, session := world.session } n
  | evolve place annealer =>
      apply objectiveCalls_act
      · intro _
        rfl
      · intro _
        rfl
      · intro population hplace
        exact spends_evolve annealer hplace
  | share a b =>
      rw [obey]
      cases world.populations[a]? with
      | none => rfl
      | some =>
          cases world.populations[b]? with
          | none => rfl
          | some => rfl
  | ask place query =>
      apply objectiveCalls_act
      · intro _
        rfl
      · intro _
        rfl
      · intro population _
        apply spends_getPopulation_bind
        rw [Spends, Island.require]
        cases answer population query with
        | error => rfl
        | ok => rfl

/-- Evaluations that the next command of a client costs. -/
def nextExpense (problem : Problem α) (client : List (Reply α) → Command α) (scene : Scene σ α) :
    Nat :=
  expense scene.world (client scene.replies) (obey problem scene.world (client scene.replies)).1

/-- The objective is called as often as the commands of a scenario cost. -/
theorem objectiveCalls_play (problem : Problem α) (client : List (Reply α) → Command α)
    (source : σ) (n : Nat) :
    objectiveCalls (play problem client source n).world.session =
      ((List.range n).map fun k =>
        nextExpense problem client (play problem client source k)).sum := by
  induction n with
  | zero => rfl
  | succ n ih =>
      rw [List.range_succ, List.map_append, List.sum_append, ← ih, List.map_singleton,
        List.sum_singleton, play_succ]
      exact objectiveCalls_obey problem _ _

end Archipelago.Proofs.Expenses
