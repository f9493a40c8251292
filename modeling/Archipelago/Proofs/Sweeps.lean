import Archipelago.Proofs.SingleVector
import Mathlib.Data.List.Rotate

namespace Archipelago.Proofs.Sweeps

open Annealing

variable {σ α β : Type} [Scalar α] [Elementary α] [Source σ α]

/-- What each move of a walk has to tell, in order. -/
def record (course : Course α) (tell : Walk σ α → Move → List β) : Walk σ α → List Move → List β
  | _, [] => []
  | walk, move :: moves => tell walk move ++ record course tell (walk.move course move) moves

theorem follow_append (course : Course α) (walk : Walk σ α) (first rest : List Move) :
    walk.follow course (first ++ rest) = (walk.follow course first).follow course rest :=
  List.foldl_append

theorem record_append (course : Course α) (tell : Walk σ α → Move → List β) (walk : Walk σ α)
    (first rest : List Move) :
    record course tell walk (first ++ rest) =
      record course tell walk first ++ record course tell (walk.follow course first) rest := by
  induction first generalizing walk with
  | nil => rfl
  | cons move first ih =>
      rw [List.cons_append, record, record, ih, List.append_assoc]
      rfl

/-- The component that a move makes a proposal for. -/
def visit (course : Course α) (walk : Walk σ α) : Move → List Nat
  | .propose => [(walk.propose course).position]
  | _ => []

def visits (course : Course α) (walk : Walk σ α) (moves : List Move) : List Nat :=
  record course (visit course) walk moves

theorem propose_effect (course : Course α) (walk : Walk σ α) :
    let next := (walk.position + 1) % course.problem.continuousDimension
    (walk.propose course).position = next ∧ (walk.propose course).steps = walk.steps ∧
      ((walk.propose course).accepted = walk.accepted ∧
          (walk.propose course).tally.accepted = walk.tally.accepted ∨
        (walk.propose course).accepted = walk.accepted.modify next (· + 1) ∧
          (walk.propose course).tally.accepted = walk.tally.accepted + 1) := by
  intro next
  rw [Walk.propose]
  simp only
  split_ifs
  · exact ⟨rfl, rfl, .inl ⟨rfl, rfl⟩⟩
  · rw [Walk.judge]
    simp only
    split_ifs
    · exact ⟨rfl, rfl, .inr ⟨rfl, rfl⟩⟩
    · exact ⟨rfl, rfl, .inr ⟨rfl, rfl⟩⟩
    · exact ⟨rfl, rfl, .inl ⟨rfl, rfl⟩⟩

section Visits

variable (course : Course α) (walk : Walk σ α)

theorem visits_append (first rest : List Move) :
    visits course walk (first ++ rest) =
      visits course walk first ++ visits course (walk.follow course first) rest :=
  record_append course (visit course) walk first rest

theorem visits_proposals (n : Nat) :
    visits course walk (List.replicate n .propose) =
      (List.range n).map fun i => (walk.position + 1 + i) % course.problem.continuousDimension := by
  induction n generalizing walk with
  | zero => rfl
  | succ n ih =>
      have hnext : (walk.propose course).position =
          (walk.position + 1) % course.problem.continuousDimension := (propose_effect course walk).1
      have hvisits : visits course walk (List.replicate (n + 1) .propose) =
          (walk.propose course).position ::
            visits course (walk.propose course) (List.replicate n .propose) := rfl
      rw [hvisits, ih, hnext, List.range_succ_eq_map, List.map_cons, List.map_map]
      congr 1
      apply List.map_congr_left
      intro i _
      rw [Function.comp_apply, Nat.add_assoc, Nat.mod_add_mod]
      congr 1
      omega

/-- A sweep goes through the components in turn, from wherever it begins. -/
theorem visits_sweep :
    visits course walk (sweep course.problem.continuousDimension) =
      (List.range course.problem.continuousDimension).rotate
        ((walk.aim course).position + 1) := by
  have hvisits : visits course walk (sweep course.problem.continuousDimension) =
      visits course (walk.aim course)
        (List.replicate course.problem.continuousDimension .propose) := rfl
  rw [hvisits, visits_proposals]
  apply List.ext_getElem
  · rw [List.length_map, List.length_rotate]
  · intro i hi hi'
    rw [List.getElem_map, List.getElem_rotate, List.getElem_range, List.getElem_range,
      List.length_range, Nat.add_comm]

theorem visits_sweep_perm :
    (visits course walk (sweep course.problem.continuousDimension)).Perm
      (List.range course.problem.continuousDimension) := by
  rw [visits_sweep]
  exact List.rotate_perm _ _

theorem count_visits_sweeps {i : Nat} (hi : i < course.problem.continuousDimension) (n : Nat) :
    (visits course walk
      (List.replicate n (sweep course.problem.continuousDimension)).flatten).count i = n := by
  induction n generalizing walk with
  | zero => rfl
  | succ n ih =>
      have hone : (visits course walk (sweep course.problem.continuousDimension)).count i = 1 := by
        rw [(visits_sweep_perm course walk).count_eq]
        exact List.count_eq_one_of_mem List.nodup_range (List.mem_range.mpr hi)
      rw [List.replicate_succ, List.flatten_cons, visits_append, List.count_append, hone, ih,
        Nat.add_comm]

end Visits

omit [Scalar α] [Elementary α] [Source σ α] in
theorem append_eq_append_cons {first rest before after : List β} {x : β}
    (h : first ++ rest = before ++ x :: after) :
    (∃ middle, first = before ++ x :: middle ∧ after = middle ++ rest) ∨
      ∃ middle, before = first ++ middle ∧ rest = middle ++ x :: after := by
  rcases List.append_eq_append_iff.mp h with ⟨middle, hbefore, hrest⟩ | ⟨middle, hfirst, hafter⟩
  · exact .inr ⟨middle, hbefore, hrest⟩
  · cases middle with
    | nil => exact .inr ⟨[], by rw [hfirst, List.append_nil, List.append_nil], hafter.symm⟩
    | cons y middle =>
        obtain ⟨rfl, rfl⟩ := List.cons.inj hafter
        exact .inl ⟨middle, hfirst, rfl⟩

/-- Whoever takes aim makes a whole sweep. -/
def Swept (components : Nat) (moves : List Move) : Prop :=
  ∀ before after, moves = before ++ .aim :: after →
    ∃ rest, after = List.replicate components .propose ++ rest

section Swept

variable {components : Nat} {first rest : List Move}

theorem Swept.append (hfirst : Swept components first) (hrest : Swept components rest) :
    Swept components (first ++ rest) := by
  intro before after h
  rcases append_eq_append_cons h with ⟨middle, heq, rfl⟩ | ⟨middle, -, heq⟩
  · obtain ⟨last, rfl⟩ := hfirst before middle heq
    exact ⟨last ++ rest, List.append_assoc _ _ _⟩
  · exact hrest middle after heq

theorem swept_of_not_mem (h : .aim ∉ first) : Swept components first := by
  rintro before after rfl
  exact absurd List.mem_append_cons_self h

theorem swept_sweep : Swept components (sweep components) := by
  intro before after h
  cases before with
  | nil => exact ⟨[], by rw [List.append_nil]; exact (List.cons.inj h).2.symm⟩
  | cons move before =>
      have hmem : Move.aim ∈ List.replicate components Move.propose := by
        rw [(List.cons.inj h).2]
        exact List.mem_append_cons_self
      exact absurd (List.eq_of_mem_replicate hmem) (by decide)

theorem swept_flatten {parts : List (List Move)} (h : ∀ part ∈ parts, Swept components part) :
    Swept components parts.flatten := by
  induction parts with
  | nil => exact swept_of_not_mem List.not_mem_nil
  | cons part parts ih =>
      obtain ⟨hpart, hparts⟩ := List.forall_mem_cons.mp h
      exact hpart.append (ih hparts)

theorem swept_block (sweeps : Nat) : Swept components (block sweeps components) := by
  refine Swept.append (swept_flatten fun part hpart => ?_) (swept_of_not_mem (by decide))
  rw [List.eq_of_mem_replicate hpart]
  exact swept_sweep

theorem swept_schedule (stages blocks sweeps : Nat) :
    Swept components (schedule stages blocks sweeps components) := by
  rw [schedule, List.flatMap_def]
  refine swept_flatten fun part hpart => ?_
  obtain ⟨index, -, rfl⟩ := List.mem_map.mp hpart
  refine Swept.append (swept_flatten fun part hpart => ?_) (swept_of_not_mem (by simp))
  rw [List.eq_of_mem_replicate hpart]
  exact swept_block sweeps

end Swept

end Archipelago.Proofs.Sweeps
