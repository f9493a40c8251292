import Archipelago.Proofs.Expenses

/-!
Metering the evaluations of a problem changes nothing but the meter, which agrees with the calls
that are made.
-/

namespace Archipelago.Proofs.Metering

open Accounting
open Actions
open Annealing
open Expenses
open Operations
open Runs
open Scenarios
open Selection

variable {ε σ τ α β γ : Type}

/-- A session as it is if all its evaluations have been metered. -/
def metered (key : Nat) (session : Session σ α) : Session σ α :=
  { session with meter := List.replicate (objectiveCalls session) key }

/-- The second operation does to a metered session what the first one does to the session. -/
def MirrorsSession (key : Nat) (plain counting : StateM (Session σ α) β) : Prop :=
  ∀ session, counting (metered key session) =
    ((plain session).1, metered key (plain session).2)

section Sessions

variable {key : Nat}

theorem mirrorsSession_pure (value : β) :
    MirrorsSession key (pure value : StateM (Session σ α) β) (pure value) :=
  fun _ => rfl

theorem MirrorsSession.bind {f g : StateM (Session σ α) β} {k l : β → StateM (Session σ α) γ}
    (h : MirrorsSession key f g) (hrest : ∀ value, MirrorsSession key (k value) (l value)) :
    MirrorsSession key (f >>= k) (g >>= l) := by
  intro session
  have hfirst := h session
  change l (g (metered key session)).1 (g (metered key session)).2 = _
  rw [hfirst]
  exact hrest _ _

theorem MirrorsSession.mapM {f g : β → StateM (Session σ α) γ}
    (h : ∀ x, MirrorsSession key (f x) (g x)) (xs : List β) :
    MirrorsSession key (xs.mapM f) (xs.mapM g) := by
  induction xs with
  | nil => exact mirrorsSession_pure []
  | cons x xs ih =>
      rw [List.mapM_cons, List.mapM_cons]
      exact (h x).bind fun y => ih.bind fun ys => mirrorsSession_pure (y :: ys)

theorem mirrorsSession_uniform [Source σ α] :
    MirrorsSession key (Session.uniform : StateM (Session σ α) α) Session.uniform :=
  fun _ => rfl

variable [Scalar α]

theorem mirrorsSession_evaluate (problem : Problem α) (decision velocity : List α) :
    MirrorsSession problem.key
      (Individual.evaluate problem decision velocity : StateM (Session σ α) (Individual α))
      (Individual.evaluate problem.counting decision velocity) :=
  fun _ => rfl

variable [Source σ α]

theorem mirrorsSession_vector (lower upper : List α) :
    MirrorsSession key (Sampling.vector lower upper : StateM (Session σ α) (List α))
      (Sampling.vector lower upper) :=
  .mapM (fun _ => mirrorsSession_uniform.bind fun _ => mirrorsSession_pure _) _

theorem mirrorsSession_decision (continuous : Nat) (lower upper : List α) :
    MirrorsSession key (Sampling.decision continuous lower upper : StateM (Session σ α) (List α))
      (Sampling.decision continuous lower upper) :=
  .mapM (fun _ => mirrorsSession_uniform.bind fun _ => mirrorsSession_pure _) _

theorem mirrorsSession_drawPicks (n : Nat) (pool : List Nat) :
    MirrorsSession key (Island.drawPicks n pool : StateM (Session σ α) (List Nat))
      (Island.drawPicks n pool) := by
  induction n generalizing pool with
  | zero => exact mirrorsSession_pure []
  | succ n ih =>
      have hposition : MirrorsSession key
          (Session.indexBelow pool.length : StateM (Session σ α) Nat)
          (Session.indexBelow pool.length) :=
        mirrorsSession_uniform.bind fun _ => mirrorsSession_pure _
      exact hposition.bind fun position =>
        (ih (pool.eraseIdx position)).bind fun _ => mirrorsSession_pure _

end Sessions

variable [Scalar α]

def meteredPopulation (population : Population α) : Population α :=
  { population with problem := population.problem.counting }

def meteredIsland (key : Nat) (island : Island σ α) : Island σ α where
  population := meteredPopulation island.population
  session := metered key island.session

def mapState (f : σ → τ) : EStateM.Result ε σ β → EStateM.Result ε τ β
  | .ok value state => .ok value (f state)
  | .error cause state => .error cause (f state)

/-- The second action does to the metered island what the first one does to the island. -/
def Mirrors (key : Nat) (plain counting : Action σ α β) (island : Island σ α) : Prop :=
  counting (meteredIsland key island) = mapState (meteredIsland key) (plain island)

section Rules

variable {key : Nat} {island : Island σ α}

theorem mirrors_getPopulation_bind {f g : Population α → Action σ α β}
    (h : Mirrors key (f island.population) (g (meteredPopulation island.population)) island) :
    Mirrors key (Island.getPopulation >>= f) (Island.getPopulation >>= g) island :=
  h

theorem mirrors_require_bind (check : Except (Violation α) β) {f g : β → Action σ α γ}
    (h : ∀ value, Mirrors key (f value) (g value) island) :
    Mirrors key (Island.require check >>= f) (Island.require check >>= g) island := by
  rw [Mirrors, require_bind, require_bind]
  cases check with
  | ok value => exact h value
  | error => rfl

theorem mirrors_perform_bind {plain counting : StateM (Session σ α) β} {f g : β → Action σ α γ}
    (hmirrors : MirrorsSession key plain counting)
    (h : ∀ value session, Mirrors key (f value) (g value) { island with session }) :
    Mirrors key (Island.perform plain >>= f) (Island.perform counting >>= g) island := by
  have hperform := hmirrors island.session
  rw [Mirrors, perform_bind, perform_bind]
  change g (counting (metered key island.session)).1
    { population := _, session := (counting (metered key island.session)).2 } = _
  rw [hperform]
  exact h (plain island.session).1 (plain island.session).2

theorem Mirrors.bind {plain counting : Action σ α β} {f g : β → Action σ α γ}
    (h : Mirrors key plain counting island)
    (hrest : ∀ value next, Mirrors key (f value) (g value) next) :
    Mirrors key (plain >>= f) (counting >>= g) island := by
  rw [Mirrors, bind_apply, bind_apply, h]
  cases plain island with
  | ok value next => exact hrest value next
  | error => rfl

theorem Mirrors.map {plain counting : Action σ α β} (h : Mirrors key plain counting island)
    (f : β → γ) : Mirrors key (do return f (← plain)) (do return f (← counting)) island :=
  h.bind fun _ _ => rfl

theorem mirrors_forM {f g : β → Action σ α PUnit} (xs : List β)
    (h : ∀ x next, Mirrors key (f x) (g x) next) (island : Island σ α) :
    Mirrors key (xs.forM f) (xs.forM g) island := by
  induction xs generalizing island with
  | nil => rfl
  | cons x xs ih => exact (h x island).bind fun _ next => ih next

end Rules

theorem compete_meteredPopulation (state : Population α × Nat) (arrival : Individual α × Nat) :
    Population.compete (meteredPopulation state.1, state.2) arrival =
      (meteredPopulation (Population.compete state arrival).1,
        (Population.compete state arrival).2) := by
  have hget : (meteredPopulation state.1).get? arrival.2 = state.1.get? arrival.2 := rfl
  rw [Population.compete, Population.compete, hget]
  cases state.1.get? arrival.2 with
  | none => rfl
  | some occupant =>
      have hpreferred : arrival.1.isPreferredOver (meteredPopulation state.1).problem occupant =
        arrival.1.isPreferredOver state.1.problem occupant := rfl
      simp only [hpreferred]
      split
      · rfl
      · rfl

theorem merge_meteredPopulation (population : Population α)
    (arrivals : List (Individual α × Nat)) :
    (meteredPopulation population).merge arrivals =
      (meteredPopulation (population.merge arrivals).1, (population.merge arrivals).2) := by
  let meter : Population α × Nat → Population α × Nat :=
    fun state => (meteredPopulation state.1, state.2)
  have hfold : arrivals.foldl Population.compete (meter (population, 0)) =
      meter (arrivals.foldl Population.compete (population, 0)) :=
    List.foldl_hom meter compete_meteredPopulation
  exact hfold

theorem overwrite_meteredPopulation (population : Population α)
    (arrivals : List (Individual α × Nat)) :
    (meteredPopulation population).overwrite arrivals =
      meteredPopulation (population.overwrite arrivals) :=
  List.foldl_hom meteredPopulation fun _ _ => rfl

section Changes

variable {key : Nat} {island : Island σ α}

theorem mirrors_push (individual : Individual α) :
    Mirrors key (Island.push individual) (Island.push individual) island := by
  apply mirrors_getPopulation_bind
  apply mirrors_require_bind (individual.checkShape island.population.problem)
  intro _
  rfl

theorem mirrors_substitute (index : Nat) (individual : Individual α) :
    Mirrors key (Island.substitute index individual) (Island.substitute index individual)
      island := by
  apply mirrors_getPopulation_bind
  apply mirrors_require_bind (island.population.member index)
  intro _
  apply mirrors_require_bind (individual.checkShape island.population.problem)
  intro _
  rfl

theorem mirrors_setVelocity (index : Nat) (velocity : List α) :
    Mirrors key (Island.setVelocity index velocity) (Island.setVelocity index velocity)
      island := by
  apply mirrors_getPopulation_bind
  apply mirrors_require_bind (island.population.member index)
  intro individual
  apply mirrors_require_bind (individual.withVelocity velocity)
  intro _
  rfl

theorem mirrors_resetVelocities [Source σ α] (lower upper : List α) :
    Mirrors key (Island.resetVelocities lower upper) (Island.resetVelocities lower upper)
      island := by
  apply mirrors_getPopulation_bind
  apply mirrors_require_bind (island.population.problem.checkBox false lower upper)
  intro _
  apply mirrors_forM
  intro index next
  apply mirrors_perform_bind (mirrorsSession_vector lower upper)
  intro velocity session
  exact mirrors_setVelocity index velocity

theorem mirrors_insertDeme (deme : Deme α) :
    Mirrors key (Island.insertDeme deme) (Island.insertDeme deme) island := by
  have hcheck : deme.check (meteredIsland key island).population =
    deme.check island.population := rfl
  have hmerge : (meteredIsland key island).population.merge deme.arrivals =
      (meteredPopulation (island.population.merge deme.arrivals).1,
        (island.population.merge deme.arrivals).2) := merge_meteredPopulation _ _
  rw [Mirrors, insertDeme_eq, insertDeme_eq, hcheck, hmerge]
  cases deme.check island.population with
  | error => rfl
  | ok => rfl

theorem mirrors_insertDemeForced (deme : Deme α) :
    Mirrors key (Island.insertDemeForced deme) (Island.insertDemeForced deme) island := by
  have hcheck : deme.check (meteredIsland key island).population =
    deme.check island.population := rfl
  have hoverwrite : (meteredIsland key island).population.overwrite deme.arrivals =
      meteredPopulation (island.population.overwrite deme.arrivals) :=
    overwrite_meteredPopulation _ _
  rw [Mirrors, insertDemeForced_eq, insertDemeForced_eq, hcheck, hoverwrite]
  cases deme.check island.population with
  | error => rfl
  | ok => rfl

theorem mirrors_insertBest [Extended α] (deme : Deme α) :
    Mirrors key (Island.insertBest deme) (Island.insertBest deme) island := by
  have hcheck : deme.check (meteredIsland key island).population =
    deme.check island.population := rfl
  have hbest : bestOf (meteredIsland key island).population.problem deme.individuals =
    bestOf island.population.problem deme.individuals := rfl
  have hworst : worstOf (meteredIsland key island).population.problem
      (deme.picks.filterMap (meteredIsland key island).population.get?) =
    worstOf island.population.problem (deme.picks.filterMap island.population.get?) := rfl
  rw [Mirrors, insertBest_eq, insertBest_eq, hcheck, hbest, hworst]
  cases deme.check island.population with
  | error => rfl
  | ok =>
      cases bestOf island.population.problem deme.individuals with
      | none => rfl
      | some migrant =>
          cases worstOf island.population.problem
              (deme.picks.filterMap island.population.get?) with
          | none => rfl
          | some occupant =>
              have hpreferred : migrant.1.isPreferredOver
                (meteredIsland key island).population.problem occupant.1 =
                  migrant.1.isPreferredOver island.population.problem occupant.1 := rfl
              simp only [hpreferred]
              split
              · rfl
              · rfl

theorem mirrors_extractDeme [Source σ α] (n : Nat) :
    Mirrors key (Island.extractDeme n) (Island.extractDeme n) island := by
  apply mirrors_getPopulation_bind
  by_cases hn : island.population.size < n
  · have hmetered : (meteredPopulation island.population).size < n := hn
    rw [if_pos hn, if_pos hmetered]
    rfl
  · have hmetered : ¬(meteredPopulation island.population).size < n := hn
    rw [if_neg hn, if_neg hmetered]
    apply mirrors_perform_bind (mirrorsSession_drawPicks n (List.range island.population.size))
    intro _ _
    rfl

end Changes

section Evaluations

variable {key : Nat} {island : Island σ α} (hkey : island.population.problem.key = key)

include hkey

theorem mirrors_pushDecision (decision : List α) :
    Mirrors key (Island.pushDecision decision) (Island.pushDecision decision) island := by
  subst hkey
  have hverify : (meteredIsland island.population.problem.key island).population.problem.verify
    decision = island.population.problem.verify decision := rfl
  rw [Mirrors, pushDecision_eq, pushDecision_eq, hverify]
  cases island.population.problem.verify decision with
  | error => rfl
  | ok => rfl

theorem mirrors_moveTo (index : Nat) (decision : List α) :
    Mirrors key (Island.moveTo index decision) (Island.moveTo index decision) island := by
  subst hkey
  apply mirrors_getPopulation_bind
  apply mirrors_require_bind (island.population.member index)
  intro individual
  apply mirrors_perform_bind
    (mirrorsSession_evaluate island.population.problem decision individual.velocity)
  intro _ _
  rfl

theorem mirrors_setDecision (index : Nat) (decision : List α) :
    Mirrors key (Island.setDecision index decision) (Island.setDecision index decision)
      island := by
  apply mirrors_getPopulation_bind
  apply mirrors_require_bind (island.population.member index)
  intro _
  apply mirrors_require_bind (island.population.problem.verify decision)
  intro _
  exact mirrors_moveTo hkey index decision

theorem mirrors_reevaluate : Mirrors key Island.reevaluate Island.reevaluate island := by
  subst hkey
  apply mirrors_getPopulation_bind
  apply mirrors_perform_bind
  · exact .mapM (fun individual => mirrorsSession_evaluate island.population.problem
      individual.decision individual.velocity) island.population.individuals
  · intro _ _
    rfl

theorem mirrors_createRandom [Source σ α] (lower upper : List α) (n : Nat) :
    Mirrors key (Island.createRandom lower upper n) (Island.createRandom lower upper n)
      island := by
  subst hkey
  apply mirrors_getPopulation_bind
  apply mirrors_require_bind (island.population.problem.checkBox true lower upper)
  intro _
  apply mirrors_perform_bind
  · apply MirrorsSession.mapM
    intro _
    exact (mirrorsSession_decision _ lower upper).bind fun decision =>
      mirrorsSession_evaluate island.population.problem decision _
  · intro _ _
    rfl

theorem mirrors_populate [Source σ α] (n : Nat) :
    Mirrors key (Island.populate n) (Island.populate n) island := by
  apply mirrors_getPopulation_bind
  exact mirrors_createRandom hkey _ _ n

end Evaluations

section Runs

def meteredWalk (key : Nat) (walk : Walk σ α) : Walk σ α :=
  { walk with session := metered key walk.session }

def meteredCourse (course : Course α) : Course α :=
  { course with problem := course.problem.counting }

theorem concluded_meteredPopulation (annealer : Annealer α) (individual : Individual α) (slot : Nat)
    (last : Walk σ α) (population : Population α) :
    concluded annealer individual slot (meteredWalk population.problem.key last)
        (meteredPopulation population) =
      meteredIsland population.problem.key
        (concluded annealer individual slot last population) := by
  rw [concluded, concluded]
  by_cases himproves : Improves population.problem individual last
  · have hmetered : Improves (meteredPopulation population).problem individual
      (meteredWalk population.problem.key last) := himproves
    rw [if_pos himproves, if_pos himproves, decide_eq_true himproves, if_pos hmetered,
      if_pos hmetered, decide_eq_true hmetered]
    rfl
  · have hmetered : ¬Improves (meteredPopulation population).problem individual
      (meteredWalk population.problem.key last) := himproves
    rw [if_neg himproves, if_neg himproves, decide_eq_false himproves, if_neg hmetered,
      if_neg hmetered, decide_eq_false hmetered]
    rfl

variable [Elementary α] [Source σ α]

theorem judge_meteredWalk (key : Nat) (course : Course α) (walk : Walk σ α) (fitness : List α) :
    (meteredWalk key walk).judge (meteredCourse course) fitness =
      meteredWalk key (walk.judge course fitness) := by
  have himproves : (meteredCourse course).problem.preference.fitness fitness
      (meteredWalk key walk).fitness = course.problem.preference.fitness fitness walk.fitness := rfl
  rw [Walk.judge, Walk.judge, himproves]
  split
  · rfl
  · change ite _ _ _ = meteredWalk key (ite _ _ _)
    rw [apply_ite (meteredWalk key)]
    rfl

theorem propose_meteredWalk (course : Course α) (walk : Walk σ α) :
    (meteredWalk course.problem.key walk).propose (meteredCourse course) =
      meteredWalk course.problem.key (walk.propose course) := by
  rw [Walk.propose, Walk.propose]
  change ite _ _ _ = meteredWalk _ (ite _ _ _)
  rw [apply_ite (meteredWalk course.problem.key), ← judge_meteredWalk]
  rfl

theorem move_meteredWalk (course : Course α) (walk : Walk σ α) (move : Move) :
    (meteredWalk course.problem.key walk).move (meteredCourse course) move =
      meteredWalk course.problem.key (walk.move course move) := by
  cases move with
  | aim => rfl
  | propose => exact propose_meteredWalk course walk
  | adjust => rfl
  | cool stage => rfl

theorem lastWalk_meteredIsland (annealer : Annealer α) (stages : Nat) (individual : Individual α)
    (island : Island σ α) :
    lastWalk annealer stages individual (meteredIsland island.population.problem.key island) =
      meteredWalk island.population.problem.key (lastWalk annealer stages individual island) := by
  let problem := island.population.problem
  let course := annealer.course problem stages
  let start : Walk σ α :=
    annealer.start problem individual
      (Session.report (.annealingStarted annealer.name stages (individual.fitness.headD 0)
        problem.name) island.session).2
  have hfold : (annealer.moves problem stages).foldl (Walk.move (meteredCourse course))
      (meteredWalk problem.key start) =
        meteredWalk problem.key ((annealer.moves problem stages).foldl (Walk.move course) start) :=
    List.foldl_hom (meteredWalk problem.key) (move_meteredWalk course)
  exact hfold

variable [Extended α]

theorem mirrors_run {key : Nat} {island : Island σ α}
    (hkey : island.population.problem.key = key) (annealer : Annealer α) :
    Mirrors key annealer.run annealer.run island := by
  subst hkey
  let metered := meteredIsland island.population.problem.key island
  rw [Mirrors]
  cases hcheck : annealer.checkProblem island.population.problem with
  | error cause =>
      have hmetered : annealer.checkProblem metered.population.problem = .error cause := hcheck
      rw [run_of_unsupported hcheck, run_of_unsupported hmetered]
      rfl
  | ok stages =>
      have hmetered : annealer.checkProblem metered.population.problem = .ok stages := hcheck
      cases hbest : island.population.best with
      | error cause =>
          have hnone : metered.population.best = .error cause := hbest
          rw [run_of_empty hcheck hbest, run_of_empty hmetered hnone]
          rfl
      | ok found =>
          have hfound : metered.population.best = .ok found := hbest
          rw [run_eq hcheck hbest, run_eq hmetered hfound, lastWalk_meteredIsland]
          exact congrArg (EStateM.Result.ok _) (concluded_meteredPopulation _ _ _ _ _)

end Runs

section Scenarios

def meteredWorld (key : Nat) (world : World σ α) : World σ α where
  populations := world.populations.map meteredPopulation
  session := metered key world.session

theorem getElem?_meteredWorld (key : Nat) (world : World σ α) (place : Nat) :
    (meteredWorld key world).populations[place]? =
      world.populations[place]?.map meteredPopulation :=
  List.getElem?_map

theorem add_meteredWorld (key : Nat) (world : World σ α) (population : Population α) :
    (meteredWorld key world).add (meteredPopulation population) =
      meteredWorld key (world.add population) := by
  rw [meteredWorld, meteredWorld, World.add, World.add, List.map_append]
  rfl

theorem act_meteredWorld {problem : Problem α} {world : World σ α}
    (hbound : world.BoundTo problem) (place : Nat) {plain counting : Action σ α (Reply α)}
    (h : ∀ island : Island σ α, island.population.problem.key = problem.key →
      Mirrors problem.key plain counting island) :
    (meteredWorld problem.key world).act place counting =
      (world.act place plain).map id (meteredWorld problem.key) := by
  rw [World.act, World.act, getElem?_meteredWorld]
  cases hplace : world.populations[place]? with
  | none => rfl
  | some population =>
      have hkey := congrArg Problem.key (hbound population (List.mem_of_getElem? hplace))
      have haction : counting
          { population := meteredPopulation population
            session := (meteredWorld problem.key world).session } =
          mapState (meteredIsland problem.key) (plain { population, session := world.session }) :=
        h { population, session := world.session } hkey
      simp only [Option.map_some, haction]
      cases plain { population, session := world.session } with
      | ok reply island =>
          simp only [mapState, meteredWorld, meteredIsland, Prod.map, List.map_set, id]
      | error cause island =>
          simp only [mapState, meteredWorld, meteredIsland, Prod.map, List.map_set, id]

theorem make_meteredWorld (problem : Problem α) (world : World σ α) (decision velocity : List α) :
    (meteredWorld problem.key world).make (Individual.create problem.counting decision velocity) =
      (world.make (Individual.create problem decision velocity)).map id
        (meteredWorld problem.key) := by
  have hverify : problem.counting.verify decision = problem.verify decision := rfl
  rw [World.make, World.make, create_eq, create_eq, hverify]
  cases problem.verify decision with
  | error => rfl
  | ok =>
      simp only
      cases (checkLength decision.length velocity.length : Except (Violation α) Unit) with
      | error => rfl
      | ok => rfl

variable [Elementary α] [Extended α] [Source σ α]

theorem mirrors_perform {key : Nat} {island : Island σ α}
    (hkey : island.population.problem.key = key) (operation : Operation α) :
    Mirrors key (perform operation) (perform operation) island := by
  cases operation with
  | createRandom lower upper n => exact (mirrors_createRandom hkey lower upper n).map _
  | resetVelocities lower upper => exact (mirrors_resetVelocities lower upper).map _
  | push individual => exact (mirrors_push individual).map _
  | pushDecision decision => exact (mirrors_pushDecision hkey decision).map _
  | substitute index individual => exact (mirrors_substitute index individual).map _
  | setDecision index decision => exact (mirrors_setDecision hkey index decision).map _
  | setVelocity index velocity => exact (mirrors_setVelocity index velocity).map _
  | reevaluate => exact (mirrors_reevaluate hkey).map _
  | insertDeme deme => exact (mirrors_insertDeme deme).map _
  | insertDemeForced deme => exact (mirrors_insertDemeForced deme).map _
  | insertBest deme => exact (mirrors_insertBest deme).map _
  | anneal annealer => exact (mirrors_run hkey annealer).map _

variable [Numeral α]

theorem obey_meteredWorld {problem : Problem α} {world : World σ α}
    (hbound : world.BoundTo problem) (command : Command α) :
    obey problem.counting (meteredWorld problem.key world) command =
      (obey problem world command).map id (meteredWorld problem.key) := by
  cases command with
  | newPopulation => exact congrArg (Prod.mk _) (add_meteredWorld problem.key world { problem })
  | randomPopulation n =>
      have hmirrors : Mirrors problem.key (Island.populate n) (Island.populate n)
        { population := { problem }, session := world.session } := mirrors_populate rfl n
      have hpopulate : Island.populate n
          { population := { problem := problem.counting }
            session := (meteredWorld problem.key world).session } =
          mapState (meteredIsland problem.key)
            (Island.populate n { population := { problem }, session := world.session }) := hmirrors
      rw [obey, obey, hpopulate]
      cases Island.populate n { population := { problem }, session := world.session } with
      | ok _ island =>
          exact congrArg (Prod.mk _) (add_meteredWorld problem.key
            { world with session := island.session } island.population)
      | error => rfl
  | copyPopulation place =>
      rw [obey, obey, getElem?_meteredWorld]
      cases world.populations[place]? with
      | none => rfl
      | some population =>
          exact congrArg (Prod.mk _) (add_meteredWorld problem.key world population)
  | create decision velocity => exact make_meteredWorld problem world decision velocity
  | atRest decision => exact make_meteredWorld problem world decision _
  | steer individual velocity =>
      rw [obey, obey]
      cases individual.withVelocity velocity with
      | error => rfl
      | ok => rfl
  | compare a b => rfl
  | change place operation =>
      apply act_meteredWorld hbound
      intro island hkey
      exact mirrors_perform hkey operation
  | extract place n =>
      apply act_meteredWorld hbound
      intro _ _
      exact (mirrors_extractDeme n).map _
  | evolve place annealer =>
      apply act_meteredWorld hbound
      intro _ hkey
      exact ((mirrors_run hkey annealer).map _).map _
  | share a b =>
      rw [obey, obey, getElem?_meteredWorld, getElem?_meteredWorld]
      cases world.populations[a]? with
      | none => rfl
      | some =>
          cases world.populations[b]? with
          | none => rfl
          | some => rfl
  | ask place query =>
      apply act_meteredWorld hbound
      intro island _
      apply mirrors_getPopulation_bind
      have hanswer : answer (meteredPopulation island.population) query =
          answer island.population query := by
        cases query with
        | members => rfl
        | best => rfl
        | worst => rfl
        | mean => rfl
        | deviation => rfl
      rw [hanswer, Mirrors, Island.require]
      cases answer island.population query with
      | ok => rfl
      | error => rfl

theorem play_counting (problem : Problem α) (client : List (Reply α) → Command α) (source : σ)
    (n : Nat) :
    play problem.counting client source n =
      { replies := (play problem client source n).replies
        world := meteredWorld problem.key (play problem client source n).world } := by
  induction n with
  | zero => rfl
  | succ n ih =>
      have hobey := obey_meteredWorld (boundTo_play problem client source n)
        (client (play problem client source n).replies)
      rw [play_succ, play_succ, ih, advance, advance, hobey]
      rfl

/-- Scenes of the same scenario, with and without a meter. -/
structure Transparent (plain counting : Scene σ α) : Prop where
  replies_eq : counting.replies = plain.replies
  populations_eq : counting.world.populations = plain.world.populations.map meteredPopulation
  source_eq : counting.world.session.source = plain.world.session.source
  draws_eq : counting.world.session.draws = plain.world.session.draws
  calls_eq : counting.world.session.calls = plain.world.session.calls
  events_eq : counting.world.session.events = plain.world.session.events

/-- Metering a problem changes nothing but the meter of its evaluations. -/
theorem metering_is_transparent (problem : Problem α) (client : List (Reply α) → Command α)
    (source : σ) (n : Nat) :
    Transparent (play problem client source n) (play problem.counting client source n) ∧
      (play problem.counting client source n).world.session.evaluations problem.key =
        objectiveCalls (play problem client source n).world.session ∧
      (play problem.counting client source n).world.session.evaluations problem.key =
        ((List.range n).map fun k =>
          nextExpense problem client (play problem client source k)).sum := by
  rw [play_counting, ← objectiveCalls_play]
  have hcount : (meteredWorld problem.key (play problem client source n).world).session.evaluations
      problem.key = objectiveCalls (play problem client source n).world.session :=
    List.count_replicate_self
  exact ⟨⟨rfl, rfl, rfl, rfl, rfl, rfl⟩, hcount, hcount⟩

end Scenarios

end Archipelago.Proofs.Metering
