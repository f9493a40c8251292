import Archipelago.Migration
import Mathlib.Data.List.Forall2

namespace Archipelago.Proofs.Actions

variable {ε σ α β γ : Type}

theorem bind_apply (x : Attempt ε σ β) (f : β → Attempt ε σ γ) (state : σ) :
    (x >>= f) state =
      match x state with
      | .ok a state => f a state
      | .error cause state => .error cause state :=
  rfl

theorem exists_of_bind {attempt : Attempt ε σ β} {f : β → Attempt ε σ γ} {state last : σ} {c : γ}
    (h : (attempt >>= f) state = .ok c last) :
    ∃ b next, attempt state = .ok b next ∧ f b next = .ok c last := by
  rw [bind_apply] at h
  cases hattempt : attempt state with
  | ok b next =>
      rw [hattempt] at h
      exact ⟨b, next, rfl, h⟩
  | error cause next =>
      rw [hattempt] at h
      contradiction

theorem check_bind (check : Except ε β) (f : β → Attempt ε σ γ) (state : σ) :
    (Attempt.require check >>= f) state =
      match check with
      | .ok a => f a state
      | .error cause => .error cause state := by
  cases check with
  | ok => rfl
  | error => rfl

theorem require_bind [Scalar α] (check : Except (Violation α) β) (f : β → Action σ α γ)
    (island : Island σ α) :
    (Island.require check >>= f) island =
      match check with
      | .ok a => f a island
      | .error cause => .error (.precondition cause) island := by
  cases check with
  | ok => rfl
  | error => rfl

theorem getPopulation_bind [Scalar α] (f : Population α → Action σ α β) (island : Island σ α) :
    (Island.getPopulation >>= f) island = f island.population island :=
  rfl

theorem perform_bind [Scalar α] (operation : StateM (Session σ α) β) (f : β → Action σ α γ)
    (island : Island σ α) :
    (Island.perform operation >>= f) island =
      f (operation island.session).1 { island with session := (operation island.session).2 } :=
  rfl

theorem attempt_bind [Scalar α] (operation : Attempt (Violation α) (Session σ α) β)
    (f : β → Action σ α γ) (island : Island σ α) :
    (Island.attempt operation >>= f) island =
      match operation island.session with
      | .ok a session => f a { island with session }
      | .error cause session => .error (.precondition cause) { island with session } := by
  rw [bind_apply, Island.attempt]
  cases operation island.session with
  | ok => rfl
  | error => rfl

theorem update_bind [Scalar α] (change : Population α → Population α) (f : Unit → Action σ α β)
    (island : Island σ α) :
    (Island.update change >>= f) island =
      f () { island with population := change island.population } :=
  rfl

theorem except_bind_eq_ok_iff {check : Except ε Unit} {f : Unit → Except ε β} {b : β} :
    (check >>= f) = .ok b ↔ check = .ok () ∧ f () = .ok b := by
  cases check with
  | error => exact iff_of_false nofun nofun
  | ok => exact ⟨fun h => ⟨rfl, h⟩, fun h => h.2⟩

theorem except_forM_eq_ok_iff {xs : List β} {f : β → Except ε Unit} :
    xs.forM f = .ok () ↔ ∀ x ∈ xs, f x = .ok () := by
  induction xs with
  | nil => exact iff_of_true rfl nofun
  | cons x xs ih =>
      change (f x >>= fun _ => xs.forM f) = _ ↔ _
      rw [except_bind_eq_ok_iff, ih, List.forall_mem_cons]

/-- The state that an attempt leaves behind, whether it succeeds or fails. -/
def after : EStateM.Result ε σ β → σ
  | .ok _ state => state
  | .error _ state => state

theorem after_return (attempt : Attempt ε σ β) (f : β → γ) (state : σ) :
    after ((do return f (← attempt) : Attempt ε σ γ) state) = after (attempt state) := by
  rw [bind_apply]
  cases attempt state with
  | ok => rfl
  | error => rfl

theorem after_forM {Keeps : σ → Prop} (xs : List β) (f : β → Attempt ε σ PUnit)
    (h : ∀ x state, Keeps state → Keeps (after (f x state))) {state : σ} (hstate : Keeps state) :
    Keeps (after (xs.forM f state)) := by
  induction xs generalizing state with
  | nil => exact hstate
  | cons x xs ih =>
      have hx := h x state hstate
      change Keeps (after ((f x >>= fun _ => xs.forM f) state))
      rw [bind_apply]
      cases hresult : f x state with
      | ok _ next =>
          rw [hresult] at hx
          exact ih hx
      | error cause next =>
          rw [hresult] at hx
          exact hx

/-- Attempts of a list succeed one after another if each of them succeeds wherever a property holds
that none of them destroys. -/
theorem forM_eq_ok {Keeps : σ → Prop} (xs : List β) (f : β → Attempt ε σ PUnit)
    (h : ∀ x ∈ xs, ∀ state, Keeps state → ∃ next, f x state = .ok ⟨⟩ next ∧ Keeps next)
    {state : σ} (hstate : Keeps state) :
    ∃ next, xs.forM f state = .ok ⟨⟩ next ∧ Keeps next := by
  induction xs generalizing state with
  | nil => exact ⟨state, rfl, hstate⟩
  | cons x xs ih =>
      obtain ⟨middle, hx, hmiddle⟩ := h x List.mem_cons_self state hstate
      obtain ⟨next, hxs, hnext⟩ :=
        ih (fun y hy => h y (List.mem_cons_of_mem x hy)) hmiddle
      refine ⟨next, ?_, hnext⟩
      change (f x >>= fun _ => xs.forM f) state = _
      rw [bind_apply, hx]
      exact hxs

theorem exists_of_forM_concat {xs : List β} {x : β} {f : β → Attempt ε σ PUnit} {state last : σ}
    (h : (xs ++ [x]).forM f state = .ok ⟨⟩ last) :
    ∃ next, xs.forM f state = .ok ⟨⟩ next ∧ f x next = .ok ⟨⟩ last := by
  change (forM (xs ++ [x]) f : Attempt ε σ PUnit) state = _ at h
  rw [List.forM_append] at h
  obtain ⟨_, next, hnext, hrest⟩ := exists_of_bind h
  obtain ⟨_, middle, hmiddle, hlast⟩ := exists_of_bind hrest
  cases hlast
  exact ⟨next, hnext, hmiddle⟩

theorem forall_mem_mapM {P : γ → Prop} (xs : List β) (f : β → StateM σ γ)
    (h : ∀ x state, P (f x state).1) (state : σ) : ∀ y ∈ (xs.mapM f state).1, P y := by
  induction xs generalizing state with
  | nil =>
      intro y hy
      contradiction
  | cons x xs ih =>
      rw [List.mapM_cons]
      change ∀ y ∈ (f x state).1 :: (xs.mapM f (f x state).2).1, P y
      intro y hy
      rcases List.mem_cons.mp hy with rfl | hy
      · exact h x state
      · exact ih (f x state).2 y hy

theorem length_mapM (xs : List β) (f : β → StateM σ γ) (state : σ) :
    (xs.mapM f state).1.length = xs.length := by
  induction xs generalizing state with
  | nil => rfl
  | cons x xs ih =>
      rw [List.mapM_cons]
      change ((f x state).1 :: (xs.mapM f (f x state).2).1).length = _
      rw [List.length_cons, ih, List.length_cons]

theorem mapM_eq_map {g : β → γ} (xs : List β) (f : β → StateM σ γ)
    (h : ∀ x state, (f x state).1 = g x) (state : σ) : (xs.mapM f state).1 = xs.map g := by
  induction xs generalizing state with
  | nil => rfl
  | cons x xs ih =>
      rw [List.mapM_cons]
      change (f x state).1 :: (xs.mapM f (f x state).2).1 = _
      rw [ih, h, List.map_cons]

section Individuals

variable [Scalar α]

omit [Scalar α] in
theorem checkLength_eq_ok_iff {expected actual : Nat} :
    (checkLength expected actual : Except (Violation α) Unit) = .ok () ↔ expected = actual := by
  rw [checkLength]
  split
  · exact iff_of_true rfl ‹_›
  · exact iff_of_false nofun ‹_›

/-- The individual that evaluating a decision makes. -/
def evaluated (problem : Problem α) (decision velocity : List α) : Individual α where
  decision := decision
  velocity := velocity
  fitness := problem.objective decision
  constraints := problem.constraints decision

theorem create_eq (problem : Problem α) (decision velocity : List α) (session : Session σ α) :
    Individual.create problem decision velocity session =
      match problem.verify decision with
      | .error cause => .error cause session
      | .ok () =>
        match (checkLength decision.length velocity.length : Except (Violation α) Unit) with
        | .error cause => .error cause session
        | .ok () =>
          .ok (evaluated problem decision velocity)
            (Individual.evaluate problem decision velocity session).2 := by
  rw [Individual.create, check_bind]
  cases problem.verify decision with
  | error => rfl
  | ok =>
      simp only
      rw [check_bind]
      cases (checkLength decision.length velocity.length : Except (Violation α) Unit) with
      | error => rfl
      | ok => rfl

theorem atRest_eq (problem : Problem α) (decision : List α) (session : Session σ α) :
    Individual.atRest problem decision session =
      match problem.verify decision with
      | .error cause => .error cause session
      | .ok () =>
        .ok (evaluated problem decision (List.replicate decision.length 0))
          (Individual.evaluate problem decision (List.replicate decision.length 0) session).2 := by
  have hlength : (checkLength decision.length (List.replicate decision.length (0 : α)).length :
      Except (Violation α) Unit) = .ok () :=
    checkLength_eq_ok_iff.mpr List.length_replicate.symm
  rw [Individual.atRest, create_eq, hlength]

omit [Scalar α] in
theorem withVelocity_eq (individual : Individual α) (velocity : List α) :
    individual.withVelocity velocity =
      match (checkLength individual.decision.length velocity.length :
        Except (Violation α) Unit) with
      | .error cause => .error cause
      | .ok () => .ok { individual with velocity } := by
  rw [Individual.withVelocity]
  cases (checkLength individual.decision.length velocity.length : Except (Violation α) Unit) with
  | error => rfl
  | ok => rfl

theorem checkShape_eq_ok_iff {problem : Problem α} {individual : Individual α} :
    individual.checkShape problem = .ok () ↔
      problem.verify individual.decision = .ok () ∧
        individual.velocity.length = individual.decision.length ∧
        individual.fitness.length = problem.fitnessDimension ∧
        individual.constraints.length = problem.constraintDimension := by
  rw [Individual.checkShape, except_bind_eq_ok_iff, except_bind_eq_ok_iff, except_bind_eq_ok_iff,
    checkLength_eq_ok_iff, checkLength_eq_ok_iff, checkLength_eq_ok_iff]
  simp only [eq_comm]

theorem check_eq_ok_iff {deme : Deme α} {population : Population α} :
    deme.check population = .ok () ↔
      deme.individuals.length = deme.picks.length ∧
        Deme.checkPicks (α := α) population.size [] deme.picks = .ok () ∧
        ∀ individual ∈ deme.individuals, individual.checkShape population.problem = .ok () := by
  rw [Deme.check]
  split
  case isTrue hlength => exact iff_of_false nofun fun h => hlength h.1
  case isFalse hlength =>
    rw [except_bind_eq_ok_iff, except_forM_eq_ok_iff]
    exact ⟨fun h => ⟨not_not.mp hlength, h⟩, fun h => h.2⟩

end Individuals

section Occupants

variable [Scalar α] {p : Population α} {picks : List Nat}

theorem map_some_occupants (hbound : ∀ pick ∈ picks, pick < p.size) :
    (picks.filterMap p.get?).map some = picks.map p.get? := by
  induction picks with
  | nil => rfl
  | cons pick picks ih =>
      obtain ⟨hpick, hpicks⟩ := List.forall_mem_cons.mp hbound
      have hoccupant : p.get? pick = some p.individuals[pick] := List.getElem?_eq_getElem hpick
      rw [List.filterMap_cons_some hoccupant, List.map_cons, List.map_cons, ih hpicks, hoccupant]

theorem pick_of_occupant {individuals : List (Individual α)}
    (h : individuals.map some = picks.map p.get?) {position : Nat} {occupant : Individual α}
    (hoccupant : individuals[position]? = some occupant) :
    ∃ pick, picks[position]? = some pick ∧ p.individuals[pick]? = some occupant := by
  have hcopy : (individuals.map some)[position]? = (picks.map p.get?)[position]? := by rw [h]
  rw [List.getElem?_map, List.getElem?_map, hoccupant] at hcopy
  exact Option.map_eq_some_iff.mp hcopy.symm

end Occupants

section Operations

variable [Scalar α]

theorem push_eq (individual : Individual α) (island : Island σ α) :
    Island.push individual island =
      match individual.checkShape island.population.problem with
      | .error cause => .error (.precondition cause) island
      | .ok () => .ok () { island with population := island.population.push individual } := by
  rw [Island.push, getPopulation_bind, require_bind]
  cases individual.checkShape island.population.problem with
  | error => rfl
  | ok => rfl

theorem pushDecision_eq (decision : List α) (island : Island σ α) :
    Island.pushDecision decision island =
      match island.population.problem.verify decision with
      | .error cause => .error (.precondition cause) island
      | .ok () =>
        .ok ()
          { population := island.population.push
              (evaluated island.population.problem decision (List.replicate decision.length 0))
            session := (Individual.evaluate island.population.problem decision
              (List.replicate decision.length 0) island.session).2 } := by
  rw [Island.pushDecision, getPopulation_bind, attempt_bind, atRest_eq]
  cases island.population.problem.verify decision with
  | error => rfl
  | ok => rfl

theorem substitute_eq (index : Nat) (individual : Individual α) (island : Island σ α) :
    Island.substitute index individual island =
      match island.population.member index with
      | .error cause => .error (.precondition cause) island
      | .ok _ =>
        match individual.checkShape island.population.problem with
        | .error cause => .error (.precondition cause) island
        | .ok () =>
          .ok () { island with population := island.population.set index individual } := by
  rw [Island.substitute, getPopulation_bind, require_bind]
  cases island.population.member index with
  | error => rfl
  | ok =>
      simp only
      rw [require_bind]
      cases individual.checkShape island.population.problem with
      | error => rfl
      | ok => rfl

theorem moveTo_eq (index : Nat) (decision : List α) (island : Island σ α) :
    Island.moveTo index decision island =
      match island.population.member index with
      | .error cause => .error (.precondition cause) island
      | .ok individual =>
        .ok ()
          { population := island.population.set index
              (evaluated island.population.problem decision individual.velocity)
            session := (Individual.evaluate island.population.problem decision
              individual.velocity island.session).2 } := by
  rw [Island.moveTo, getPopulation_bind, require_bind]
  cases island.population.member index with
  | error => rfl
  | ok => rfl

theorem setDecision_eq (index : Nat) (decision : List α) (island : Island σ α) :
    Island.setDecision index decision island =
      match island.population.member index with
      | .error cause => .error (.precondition cause) island
      | .ok _ =>
        match island.population.problem.verify decision with
        | .error cause => .error (.precondition cause) island
        | .ok () => Island.moveTo index decision island := by
  rw [Island.setDecision, getPopulation_bind, require_bind]
  cases island.population.member index with
  | error => rfl
  | ok =>
      simp only
      rw [require_bind]
      cases island.population.problem.verify decision with
      | error => rfl
      | ok => rfl

theorem setVelocity_eq (index : Nat) (velocity : List α) (island : Island σ α) :
    Island.setVelocity index velocity island =
      match island.population.member index with
      | .error cause => .error (.precondition cause) island
      | .ok individual =>
        match (checkLength individual.decision.length velocity.length :
          Except (Violation α) Unit) with
        | .error cause => .error (.precondition cause) island
        | .ok () =>
          .ok ()
            { island with population := island.population.set index { individual with velocity } }
        := by
  rw [Island.setVelocity, getPopulation_bind, require_bind]
  cases island.population.member index with
  | error => rfl
  | ok individual =>
      simp only
      rw [require_bind, withVelocity_eq]
      cases (checkLength individual.decision.length velocity.length :
        Except (Violation α) Unit) with
      | error => rfl
      | ok => rfl

theorem reevaluate_population (island : Island σ α) :
    ∃ session, Island.reevaluate island = .ok ()
      { population := { island.population with
          individuals := island.population.individuals.map fun individual =>
            evaluated island.population.problem individual.decision individual.velocity }
        session := session } := by
  let move : Individual α → StateM (Session σ α) (Individual α) := fun individual =>
    individual.move island.population.problem individual.decision
  have hmap : (island.population.individuals.mapM move island.session).1 =
      island.population.individuals.map fun individual =>
        evaluated island.population.problem individual.decision individual.velocity :=
    mapM_eq_map _ move (fun _ _ => rfl) _
  refine ⟨(island.population.individuals.mapM move island.session).2, ?_⟩
  rw [← hmap, Island.reevaluate, getPopulation_bind, perform_bind]
  rfl

theorem insertDeme_eq (deme : Deme α) (island : Island σ α) :
    Island.insertDeme deme island =
      match deme.check island.population with
      | .error cause => .error (.precondition cause) island
      | .ok () =>
        .ok (island.population.merge deme.arrivals).2
          { population := (island.population.merge deme.arrivals).1
            session := (Session.report (.merged (island.population.merge deme.arrivals).2 deme.size)
              island.session).2 } := by
  rw [Island.insertDeme, getPopulation_bind, require_bind]
  cases deme.check island.population with
  | error => rfl
  | ok => rfl

theorem insertDemeForced_eq (deme : Deme α) (island : Island σ α) :
    Island.insertDemeForced deme island =
      match deme.check island.population with
      | .error cause => .error (.precondition cause) island
      | .ok () =>
        .ok () { island with population := island.population.overwrite deme.arrivals } := by
  rw [Island.insertDemeForced, getPopulation_bind, require_bind]
  cases deme.check island.population with
  | error => rfl
  | ok => rfl

theorem insertBest_eq [Extended α] (deme : Deme α) (island : Island σ α) :
    Island.insertBest deme island =
      match deme.check island.population with
      | .error cause => .error (.precondition cause) island
      | .ok () =>
        match bestOf island.population.problem deme.individuals,
          worstOf island.population.problem (deme.picks.filterMap island.population.get?) with
        | some (migrant, _), some (occupant, position) =>
          .ok (deme.picks.getD position 0)
            { population := island.population.set (deme.picks.getD position 0) migrant
              session :=
                if migrant.isPreferredOver island.population.problem occupant then island.session
                else (Session.report (.regressed (deme.picks.getD position 0)) island.session).2 }
        | _, _ => .error (.precondition .emptyDeme) island := by
  rw [Island.insertBest, getPopulation_bind, require_bind]
  cases deme.check island.population with
  | error => rfl
  | ok =>
      simp only
      cases bestOf island.population.problem deme.individuals with
      | none => rfl
      | some migrant =>
          cases worstOf island.population.problem
              (deme.picks.filterMap island.population.get?) with
          | none => rfl
          | some occupant =>
              simp only
              split
              · rfl
              · rfl

end Operations

end Archipelago.Proofs.Actions
