import Archipelago.Proofs.Operations

namespace Archipelago.Proofs.Scenarios

open Actions
open Merging
open Operations

inductive Query where
  | members
  | best
  | worst
  | mean
  | deviation

/-- Populations are addressed by their places, in the order in which they have been made. -/
inductive Command (α : Type) [Scalar α] where
  | newPopulation
  | randomPopulation (n : Nat)
  | copyPopulation (place : Nat)
  | create (decision velocity : List α)
  | atRest (decision : List α)
  | steer (individual : Individual α) (velocity : List α)
  | compare (a b : Individual α)
  | change (place : Nat) (operation : Operation α)
  | extract (place n : Nat)
  | evolve (place : Nat) (annealer : Annealer α)
  | share (a b : Nat)
  | ask (place : Nat) (query : Query)

inductive Reply (α : Type) where
  | done
  | count (n : Nat)
  | verdict (holds : Bool)
  | value (x : α)
  | individual (individual : Individual α)
  | found (individual : Individual α) (slot : Nat)
  | members (individuals : List (Individual α))
  | deme (deme : Deme α)
  | report (report : Annealer.Report α)
  | failed (cause : Error α)
  /-- There is no population at that place. -/
  | missing

/-- The populations of a scenario and the session that they share. -/
structure World (σ α : Type) [Scalar α] where
  populations : List (Population α) := []
  session : Session σ α

variable {σ α β : Type} [Scalar α]

namespace World

def add (world : World σ α) (population : Population α) : World σ α :=
  { world with populations := world.populations ++ [population] }

def act (world : World σ α) (place : Nat) (action : Action σ α (Reply α)) :
    Reply α × World σ α :=
  match world.populations[place]? with
  | none => (.missing, world)
  | some population =>
    match action { population, session := world.session } with
    | .ok reply island =>
      (reply,
        { populations := world.populations.set place island.population
          session := island.session })
    | .error cause island =>
      (.failed cause,
        { populations := world.populations.set place island.population
          session := island.session })

/-- Builds an individual, which belongs to no population yet. -/
def make (world : World σ α)
    (attempt : Attempt (Violation α) (Session σ α) (Individual α)) : Reply α × World σ α :=
  match attempt world.session with
  | .ok individual session => (.individual individual, { world with session })
  | .error cause session => (.failed (.precondition cause), { world with session })

end World

section Commands

variable [Elementary α] [Extended α]

def answer (population : Population α) : Query → Except (Violation α) (Reply α)
  | .members => .ok (.members population.individuals)
  | .best => population.best.map fun found => .found found.1 found.2
  | .worst => population.worst.map fun found => .found found.1 found.2
  | .mean => population.meanFitness.map .value
  | .deviation => population.deviationOfFitness.map .value

variable [Source σ α]

omit [Elementary α] [Extended α] [Source σ α] in
/-- Performs an action that returns nothing. -/
def complete (action : Action σ α Unit) : Action σ α (Reply α) := do
  action
  return .done

def perform : Operation α → Action σ α (Reply α)
  | .createRandom lower upper n => complete (Island.createRandom lower upper n)
  | .resetVelocities lower upper => complete (Island.resetVelocities lower upper)
  | .push individual => complete (Island.push individual)
  | .pushDecision decision => complete (Island.pushDecision decision)
  | .substitute index individual => complete (Island.substitute index individual)
  | .setDecision index decision => complete (Island.setDecision index decision)
  | .setVelocity index velocity => complete (Island.setVelocity index velocity)
  | .reevaluate => complete Island.reevaluate
  | .insertDeme deme => return .count (← Island.insertDeme deme)
  | .insertDemeForced deme => complete (Island.insertDemeForced deme)
  | .insertBest deme => return .count (← Island.insertBest deme)
  | .anneal annealer => return .report (← annealer.run)

variable [Numeral α]

/-- Carries out a command to populations on a problem. -/
def obey (problem : Problem α) (world : World σ α) : Command α → Reply α × World σ α
  | .newPopulation => (.done, world.add { problem })
  | .randomPopulation n =>
    match Island.populate n { population := { problem }, session := world.session } with
    | .ok () island => (.done, { world with session := island.session }.add island.population)
    | .error cause island => (.failed cause, { world with session := island.session })
  | .copyPopulation place =>
    match world.populations[place]? with
    | some population => (.done, world.add population)
    | none => (.missing, world)
  | .create decision velocity => world.make (Individual.create problem decision velocity)
  | .atRest decision => world.make (Individual.atRest problem decision)
  | .steer individual velocity =>
    match individual.withVelocity velocity with
    | .ok individual => (.individual individual, world)
    | .error cause => (.failed (.precondition cause), world)
  | .compare a b => (.verdict (a.isPreferredOver problem b), world)
  | .change place operation => world.act place (perform operation)
  | .extract place n => world.act place (return .deme (← Island.extractDeme n))
  | .evolve place annealer => world.act place (complete annealer.toAlgorithm.evolve)
  | .share a b =>
    match world.populations[a]?, world.populations[b]? with
    | some a, some b => (.verdict (a.sharesProblemWith b), world)
    | _, _ => (.missing, world)
  | .ask place query =>
    world.act place (do Island.require (answer (← Island.getPopulation) query))

/-- How far a scenario has come. -/
structure Scene (σ α : Type) [Scalar α] where
  /-- The latest reply comes first. -/
  replies : List (Reply α) := []
  world : World σ α

def advance (problem : Problem α) (client : List (Reply α) → Command α) (scene : Scene σ α) :
    Scene σ α :=
  let (reply, world) := obey problem scene.world (client scene.replies)
  { replies := reply :: scene.replies, world }

/-- The first commands of a client, with a source in some state. -/
def play (problem : Problem α) (client : List (Reply α) → Command α) (source : σ) (n : Nat) :
    Scene σ α :=
  (advance problem client)^[n] { world := { session := { source } } }

theorem play_succ (problem : Problem α) (client : List (Reply α) → Command α) (source : σ)
    (n : Nat) :
    play problem client source (n + 1) = advance problem client (play problem client source n) :=
  Function.iterate_succ_apply' (advance problem client) n _

end Commands

section Problems

theorem problem_eq_merge (population : Population α) (arrivals : List (Individual α × Nat)) :
    (population.merge arrivals).1.problem = population.problem := by
  let Keeps : Population α → Prop := fun next => next.problem = population.problem
  have hkeeps : Keeps (population.merge arrivals).1 := merge_keeps (fun _ _ _ _ h _ _ => h) rfl
  exact hkeeps

theorem problem_eq_overwrite (population : Population α) (arrivals : List (Individual α × Nat)) :
    (population.overwrite arrivals).problem = population.problem := by
  let Keeps : Population α → Prop := fun next => next.problem = population.problem
  have hkeeps : Keeps (population.overwrite arrivals) := overwrite_keeps (fun _ _ _ h => h) rfl
  exact hkeeps

def World.BoundTo (problem : Problem α) (world : World σ α) : Prop :=
  ∀ population ∈ world.populations, population.problem = problem

theorem boundTo_add {problem : Problem α} {world : World σ α} (h : world.BoundTo problem)
    {population : Population α} (hpopulation : population.problem = problem) :
    (world.add population).BoundTo problem := by
  intro other hother
  rcases List.mem_append.mp hother with hold | hnew
  · exact h other hold
  · rw [List.mem_singleton.mp hnew]
    exact hpopulation

theorem boundTo_act {problem : Problem α} {world : World σ α} (h : world.BoundTo problem)
    (place : Nat) {action : Action σ α (Reply α)}
    (haction : ∀ island : Island σ α,
      (after (action island)).population.problem = island.population.problem) :
    (world.act place action).2.BoundTo problem := by
  rw [World.act]
  cases hplace : world.populations[place]? with
  | none => exact h
  | some population =>
      have hnext := (haction { population, session := world.session }).trans
        (h population (List.mem_of_getElem? hplace))
      simp only
      cases hresult : action { population, session := world.session } with
      | ok reply island =>
          rw [hresult] at hnext
          intro other hother
          rcases List.mem_or_eq_of_mem_set hother with hold | rfl
          · exact h other hold
          · exact hnext
      | error cause island =>
          rw [hresult] at hnext
          intro other hother
          rcases List.mem_or_eq_of_mem_set hother with hold | rfl
          · exact h other hold
          · exact hnext

variable [Extended α]

theorem problem_eq_of_effect {operation : Operation α} {before next : Population α}
    (h : Effect operation before next) : next.problem = before.problem := by
  cases h with
  | insertDeme => exact problem_eq_merge before _
  | insertDemeForced => exact problem_eq_overwrite before _
  | _ => rfl

variable [Elementary α] [Source σ α]

theorem after_perform (operation : Operation α) (island : Island σ α) :
    after (perform operation island) = operation.apply island := by
  cases operation with
  | createRandom | resetVelocities | push | pushDecision | substitute | setDecision | setVelocity
  | reevaluate | insertDeme | insertDemeForced | insertBest | anneal =>
      exact after_return _ _ island

theorem problem_eq_apply (operation : Operation α) (island : Island σ α) :
    (operation.apply island).population.problem = island.population.problem :=
  problem_eq_of_effect (effect_of_leads ⟨σ, _, island.session, rfl⟩)

variable [Numeral α]

/-- All populations of a scenario stay bound to its problem. -/
theorem boundTo_obey {problem : Problem α} {world : World σ α} (h : world.BoundTo problem)
    (command : Command α) : (obey problem world command).2.BoundTo problem := by
  cases command with
  | newPopulation => exact boundTo_add h rfl
  | randomPopulation n =>
      have hcreated := problem_eq_apply (.createRandom problem.lower problem.upper n)
        ({ population := { problem }, session := world.session } : Island σ α)
      rw [obey, Island.populate, getPopulation_bind]
      simp only [Operation.apply] at hcreated
      cases hresult : Island.createRandom problem.lower problem.upper n
          ({ population := { problem }, session := world.session } : Island σ α) with
      | ok _ island =>
          rw [hresult] at hcreated
          exact boundTo_add h hcreated
      | error => exact h
  | copyPopulation place =>
      rw [obey]
      cases hplace : world.populations[place]? with
      | none => exact h
      | some population => exact boundTo_add h (h population (List.mem_of_getElem? hplace))
  | create decision velocity =>
      rw [obey, World.make]
      split
      · exact h
      · exact h
  | atRest decision =>
      rw [obey, World.make]
      split
      · exact h
      · exact h
  | steer individual velocity =>
      rw [obey]
      split
      · exact h
      · exact h
  | compare a b => exact h
  | change place operation =>
      apply boundTo_act h
      intro island
      rw [after_perform]
      exact problem_eq_apply operation island
  | extract place n =>
      apply boundTo_act h
      intro island
      rw [after_return, Island.extractDeme, getPopulation_bind]
      split
      · rfl
      · rfl
  | evolve place annealer =>
      apply boundTo_act h
      intro island
      rw [complete, after_return, Annealer.toAlgorithm, after_return]
      exact problem_eq_apply (.anneal annealer) island
  | share a b =>
      rw [obey]
      split
      · exact h
      · exact h
  | ask place query =>
      apply boundTo_act h
      intro island
      rw [getPopulation_bind, Island.require]
      cases answer island.population query with
      | ok => rfl
      | error => rfl

theorem boundTo_play (problem : Problem α) (client : List (Reply α) → Command α) (source : σ)
    (n : Nat) : (play problem client source n).world.BoundTo problem := by
  induction n with
  | zero =>
      intro population hpopulation
      contradiction
  | succ n ih =>
      rw [play_succ]
      exact boundTo_obey ih _

end Problems

end Archipelago.Proofs.Scenarios
