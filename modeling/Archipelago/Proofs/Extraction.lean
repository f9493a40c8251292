import Archipelago.Proofs.Accounting
import Mathlib.Data.List.GetD
import Mathlib.Data.List.Nodup
import Mathlib.Data.Nat.Cast.Defs
import Mathlib.Data.Set.Function

/-!
Extracting a deme is sampling without replacement.  Positions in a shrinking pool of slots are drawn
one after the other, and every ordered sample belongs to exactly one sequence of positions.
-/

namespace Archipelago.Proofs.Extraction

open Accounting
open Actions
open Runs

/-- The entries that are taken from a pool at some positions, one after the other. -/
def takenAt : (positions pool : List Nat) → List Nat
  | [], _ => []
  | position :: positions, pool =>
    pool.getD position 0 :: takenAt positions (pool.eraseIdx position)

/-- Every position lies within what the ones before it have left of a pool of the given size. -/
def Fits (size : Nat) (positions : List Nat) : Prop :=
  ∀ k position, positions[k]? = some position → position < size - k

theorem fits_cons_iff {size position : Nat} {positions : List Nat} :
    Fits size (position :: positions) ↔ position < size ∧ Fits (size - 1) positions := by
  constructor
  · intro h
    refine ⟨h 0 position rfl, fun k later hlater => ?_⟩
    have hlt := h (k + 1) later hlater
    omega
  · rintro ⟨hfirst, hrest⟩ (_ | k) later hlater
    · cases hlater
      exact hfirst
    · have hlt := hrest k later hlater
      omega

theorem length_takenAt (positions pool : List Nat) :
    (takenAt positions pool).length = positions.length := by
  induction positions generalizing pool with
  | nil => rfl
  | cons position positions ih => rw [takenAt, List.length_cons, List.length_cons, ih]

section Pools

variable {pool : List Nat} (hnodup : pool.Nodup)

include hnodup

theorem mem_eraseIdx_iff {position : Nat} (hposition : position < pool.length) {x : Nat} :
    x ∈ pool.eraseIdx position ↔ x ≠ pool.getD position 0 ∧ x ∈ pool := by
  rw [← hnodup.erase_getElem position hposition, hnodup.mem_erase_iff,
    List.getD_eq_getElem _ _ hposition]

theorem takenAt_nodup_subset {positions : List Nat} (hfits : Fits pool.length positions) :
    (takenAt positions pool).Nodup ∧ takenAt positions pool ⊆ pool := by
  induction positions generalizing pool with
  | nil => exact ⟨List.nodup_nil, List.nil_subset pool⟩
  | cons position positions ih =>
      obtain ⟨hposition, hrest⟩ := fits_cons_iff.mp hfits
      rw [← List.length_eraseIdx_of_lt hposition] at hrest
      obtain ⟨hrestNodup, hrestSubset⟩ := ih (hnodup.eraseIdx position) hrest
      have hleft : ∀ x ∈ takenAt positions (pool.eraseIdx position),
          x ≠ pool.getD position 0 ∧ x ∈ pool := fun x hx =>
        (mem_eraseIdx_iff hnodup hposition).mp (hrestSubset hx)
      rw [takenAt]
      constructor
      · exact List.nodup_cons.mpr ⟨fun hmem => (hleft _ hmem).1 rfl, hrestNodup⟩
      · refine List.cons_subset.mpr ⟨?_, fun x hx => (hleft x hx).2⟩
        rw [List.getD_eq_getElem _ _ hposition]
        exact List.getElem_mem hposition

/-- The first pick tells the first position, and what is left of the pool with it. -/
theorem takenAt_injective {first second : List Nat} (hfirst : Fits pool.length first)
    (hsecond : Fits pool.length second) (heq : takenAt first pool = takenAt second pool) :
    first = second := by
  induction first generalizing pool second with
  | nil =>
      cases second with
      | nil => rfl
      | cons other others => contradiction
  | cons position positions ih =>
      cases second with
      | nil => contradiction
      | cons other others =>
          obtain ⟨hposition, hrest⟩ := fits_cons_iff.mp hfirst
          obtain ⟨hother, hrest'⟩ := fits_cons_iff.mp hsecond
          obtain ⟨hhead, htail⟩ := List.cons_eq_cons.mp heq
          rw [List.getD_eq_getElem _ _ hposition, List.getD_eq_getElem _ _ hother,
            hnodup.getElem_inj_iff] at hhead
          subst hhead
          rw [← List.length_eraseIdx_of_lt hposition] at hrest hrest'
          rw [ih (hnodup.eraseIdx position) hrest hrest' htail]

theorem exists_takenAt {picks : List Nat} (hpicks : picks.Nodup) (hsubset : picks ⊆ pool) :
    ∃ positions, Fits pool.length positions ∧ takenAt positions pool = picks := by
  induction picks generalizing pool with
  | nil => exact ⟨[], fun _ _ h => by contradiction, rfl⟩
  | cons pick picks ih =>
      obtain ⟨hpick, hrestNodup⟩ := List.nodup_cons.mp hpicks
      obtain ⟨hmem, hrestSubset⟩ := List.cons_subset.mp hsubset
      obtain ⟨position, hposition, rfl⟩ := List.getElem_of_mem hmem
      have hleft : picks ⊆ pool.eraseIdx position := by
        intro x hx
        rw [mem_eraseIdx_iff hnodup hposition, List.getD_eq_getElem _ _ hposition]
        exact ⟨fun h => hpick (h ▸ hx), hrestSubset hx⟩
      obtain ⟨positions, hfits, htaken⟩ := ih (hnodup.eraseIdx position) hrestNodup hleft
      rw [List.length_eraseIdx_of_lt hposition] at hfits
      refine ⟨position :: positions, fits_cons_iff.mpr ⟨hposition, hfits⟩, ?_⟩
      rw [takenAt, htaken, List.getD_eq_getElem _ _ hposition]

end Pools

/-- The sequences of `n` positions in a pool of the given size. -/
def positionSequences (n size : Nat) : Set (List Nat) :=
  { positions | positions.length = n ∧ Fits size positions }

/-- The ordered samples of `n` of the slots below the given size. -/
def orderedSamples (n size : Nat) : Set (List Nat) :=
  { picks | picks.length = n ∧ picks.Nodup ∧ ∀ pick ∈ picks, pick < size }

theorem bijOn_takenAt (n size : Nat) :
    Set.BijOn (fun positions => takenAt positions (List.range size)) (positionSequences n size)
      (orderedSamples n size) := by
  have hnodup : (List.range size).Nodup := List.nodup_range
  refine ⟨?_, ?_, ?_⟩
  · rintro positions ⟨hlength, hfits⟩
    rw [← List.length_range (n := size)] at hfits
    obtain ⟨hpicks, hsubset⟩ := takenAt_nodup_subset hnodup hfits
    exact ⟨(length_takenAt _ _).trans hlength, hpicks, fun pick hpick =>
      List.mem_range.mp (hsubset hpick)⟩
  · rintro first ⟨-, hfirst⟩ second ⟨-, hsecond⟩ heq
    rw [← List.length_range (n := size)] at hfirst hsecond
    exact takenAt_injective hnodup hfirst hsecond heq
  · rintro picks ⟨hlength, hpicks, hbound⟩
    obtain ⟨positions, hfits, rfl⟩ := exists_takenAt hnodup hpicks fun pick hpick =>
      List.mem_range.mpr (hbound pick hpick)
    rw [List.length_range] at hfits
    exact ⟨positions, ⟨(length_takenAt _ _).symm.trans hlength, hfits⟩, rfl⟩

section Draws

variable {σ α : Type} [Scalar α] [Source σ α]

/-- Draws `n` positions, each from a pool that is smaller by one than that of the position before
it. -/
def drawPositions : (n size : Nat) → StateM (Session σ α) (List Nat)
  | 0, _ => pure []
  | n + 1, size => do
    let position ← Session.indexBelow size
    let positions ← drawPositions n (size - 1)
    pure (position :: positions)

theorem indexBelow_lt {n : Nat} (hn : 0 < n) (session : Session σ α) :
    (Session.indexBelow n session).1 < n :=
  Nat.lt_of_le_of_lt (Nat.min_le_right _ _) (Nat.sub_lt hn Nat.one_pos)

theorem drawPositions_mem {n size : Nat} (hn : n ≤ size) (session : Session σ α) :
    (drawPositions n size session).1 ∈ positionSequences n size := by
  induction n generalizing size session with
  | zero => exact ⟨rfl, fun _ _ h => by contradiction⟩
  | succ n ih =>
      have hrest : n ≤ size - 1 := by omega
      obtain ⟨hlength, hfits⟩ := ih hrest (Session.indexBelow size session).2
      have hfirst := indexBelow_lt (by omega : 0 < size) session
      exact ⟨congrArg (· + 1) hlength, fits_cons_iff.mpr ⟨hfirst, hfits⟩⟩

theorem drawPositions_session (n size : Nat) (session : Session σ α) :
    (drawPositions n size session).2 =
      { session with source := drained n session.source, draws := session.draws + n } := by
  induction n generalizing size session with
  | zero => rfl
  | succ n ih =>
      let next := (Session.indexBelow size session).2
      have hdraws : next.draws + n = session.draws + (n + 1) := Nat.succ_add_eq_add_succ _ n
      change (drawPositions n (size - 1) next).2 = _
      rw [ih, hdraws]
      rfl

theorem drawPicks_eq {n : Nat} {pool : List Nat} (hn : n ≤ pool.length) (session : Session σ α) :
    Island.drawPicks n pool session =
      (takenAt (drawPositions n pool.length session).1 pool,
        (drawPositions n pool.length session).2) := by
  induction n generalizing pool session with
  | zero => rfl
  | succ n ih =>
      let position := (Session.indexBelow pool.length session).1
      let next := (Session.indexBelow pool.length session).2
      have hposition : position < pool.length := indexBelow_lt (by omega) session
      have hlength : (pool.eraseIdx position).length = pool.length - 1 :=
        List.length_eraseIdx_of_lt hposition
      have hn' : n ≤ (pool.eraseIdx position).length := by omega
      have hrest := ih hn' next
      rw [hlength] at hrest
      change (pool.getD position 0 :: (Island.drawPicks n (pool.eraseIdx position) next).1,
        (Island.drawPicks n (pool.eraseIdx position) next).2) = _
      rw [hrest]
      rfl

end Draws

/-- A deme holds `n` individuals of a population, from different slots, together with these
slots. -/
structure Sampled [Scalar α] (n : Nat) (population : Population α) (deme : Deme α) : Prop where
  picks_mem : deme.picks ∈ orderedSamples n population.size
  individuals_eq : deme.individuals.map some = deme.picks.map population.get?

section Demes

variable {σ α : Type} [Scalar α] [Source σ α] {n : Nat} {island : Island σ α}

theorem extractDeme_of_lt (h : island.population.size < n) :
    Island.extractDeme n island =
      .error (.precondition (.demeTooLarge n island.population.size)) island := by
  rw [Island.extractDeme, getPopulation_bind, if_pos h]
  rfl

theorem extractDeme_of_le (h : n ≤ island.population.size) :
    ∃ deme, Island.extractDeme n island = .ok deme
      { island with
          session := { island.session with
            source := drained n island.session.source
            draws := island.session.draws + n
            events := .extracted n island.population.size :: island.session.events } } ∧
      deme.picks = takenAt (drawPositions n island.population.size island.session).1
        (List.range island.population.size) ∧
      Sampled n island.population deme := by
  let slots := List.range island.population.size
  let positions := (drawPositions n island.population.size island.session).1
  have hlength : slots.length = island.population.size := List.length_range
  have hdrawn := drawPicks_eq (hlength.symm ▸ h : n ≤ slots.length) island.session
  rw [hlength, drawPositions_session] at hdrawn
  have hpicks : takenAt positions slots ∈ orderedSamples n island.population.size :=
    (bijOn_takenAt n island.population.size).mapsTo (drawPositions_mem h island.session)
  refine ⟨{ individuals := (takenAt positions slots).filterMap island.population.get?
            picks := takenAt positions slots }, ?_, rfl, hpicks, map_some_occupants hpicks.2.2⟩
  rw [Island.extractDeme, getPopulation_bind, if_neg (Nat.not_lt.mpr h)]
  change (Island.perform (Island.drawPicks n slots) >>= _) island = _
  rw [perform_bind, hdrawn]
  rfl

/-- Extracting a deme is sampling without replacement, whatever numbers the source yields.  It draws
one position for each pick, from the slots that are left, and every ordered sample of the slots
belongs to exactly one sequence of positions. -/
theorem extraction_samples_without_replacement (n : Nat) (island : Island σ α) :
    (island.population.size < n →
      Island.extractDeme n island =
        .error (.precondition (.demeTooLarge n island.population.size)) island) ∧
    (n ≤ island.population.size →
      ∃ deme next, Island.extractDeme n island = .ok deme next ∧
        Sampled n island.population deme ∧ next.population = island.population ∧
        Drawn island.session n next.session ∧
        ∃ positions ∈ positionSequences n island.population.size,
          positions = (drawPositions n island.population.size island.session).1 ∧
          deme.picks = takenAt positions (List.range island.population.size)) ∧
    Set.BijOn (fun positions => takenAt positions (List.range island.population.size))
      (positionSequences n island.population.size) (orderedSamples n island.population.size) := by
  refine ⟨extractDeme_of_lt, fun h => ?_, bijOn_takenAt n island.population.size⟩
  obtain ⟨deme, hextract, hpicks, hsampled⟩ := extractDeme_of_le h
  exact ⟨deme, _, hextract, hsampled, rfl, ⟨rfl, rfl⟩, _, drawPositions_mem h island.session, rfl,
    hpicks⟩

end Demes

/-- Three individuals, and a source whose numbers are above one and undefined in turn. -/
def triple : Island (Script Binary64) Binary64 where
  population :=
    { problem := interval
      individuals := [evaluated interval [-1] [0], evaluated interval [0] [0],
        evaluated interval [1] [0]] }
  session := { source := { values := [2, 0 / 0] } }

theorem positions_triple : (drawPositions 2 3 triple.session).1 = [2, 0] := by
  decide +kernel

theorem triple_samples_two :
    (∃ deme next, Island.extractDeme 2 triple = .ok deme next ∧ deme.picks = [2, 0] ∧
      Sampled 2 triple.population deme ∧ next.population = triple.population ∧
      next.session.draws = 2) ∧
    Island.extractDeme 4 triple = .error (.precondition (.demeTooLarge 4 3)) triple := by
  obtain ⟨-, hextracts, -⟩ := extraction_samples_without_replacement 2 triple
  obtain ⟨hfails, -, -⟩ := extraction_samples_without_replacement 4 triple
  obtain ⟨deme, next, hextract, hsampled, hpopulation, hdrawn, positions, -, rfl, hpicks⟩ :=
    hextracts (Nat.le_succ 2)
  have hsize : triple.population.size = 3 := rfl
  rw [hsize, positions_triple] at hpicks
  exact ⟨⟨deme, next, hextract, hpicks, hsampled, hpopulation, hdrawn.draws_eq⟩,
    hfails (Nat.lt_succ_self 3)⟩

end Archipelago.Proofs.Extraction
