import Archipelago.Proofs.Layering
import Archipelago.Proofs.StrictPreference
import Mathlib.Data.List.GetD
import Mathlib.Logic.Relation

namespace Archipelago.Proofs.Completeness

open Chains
open Layering
open OrderedScalars
open Relation
open StrictPreference

variable {α : Type} [Scalar α]

/-- The vector at one position dominates the one at another position. -/
def DominatesAt (objectives : List (List α)) (i j : Nat) : Prop :=
  ∃ a b, objectives[i]? = some a ∧ objectives[j]? = some b ∧ dominates a b = true

theorem dominance_eq_right_iff {a b : List α} :
    dominance a b = .right ↔ dominates b a = true := by
  rw [dominates, dominance, dominance]
  cases winsSomewhere a b <;> cases winsSomewhere b a <;> simp

theorem dominates_eq_dominatesAt (objectives : List (List α)) :
    Dominates objectives.length
        (fun i j => dominance (objectives.getD i []) (objectives.getD j [])) =
      DominatesAt objectives := by
  funext i j
  simp only [Dominates, dominance_eq_right_iff]
  refine propext ⟨?_, ?_⟩
  · rintro (⟨h, hij, hj⟩ | ⟨h, hji, hi⟩)
    · have hi := hij.trans hj
      rw [List.getD_eq_getElem _ _ hi, List.getD_eq_getElem _ _ hj] at h
      exact ⟨_, _, List.getElem?_eq_getElem hi, List.getElem?_eq_getElem hj,
        decide_eq_true h⟩
    · have hj := hji.trans hi
      rw [List.getD_eq_getElem _ _ hi, List.getD_eq_getElem _ _ hj] at h
      exact ⟨_, _, List.getElem?_eq_getElem hi, List.getElem?_eq_getElem hj, h⟩
  · rintro ⟨a, b, ha, hb, h⟩
    have hi := (List.getElem?_eq_some_iff.mp ha).1
    have hj := (List.getElem?_eq_some_iff.mp hb).1
    rw [List.getD_eq_getElem?_getD, List.getD_eq_getElem?_getD, ha, hb]
    rcases Nat.lt_trichotomy i j with hij | rfl | hji
    · exact .inl ⟨of_decide_eq_true h, hij, hj⟩
    · obtain rfl := Option.some.inj (ha.symm.trans hb)
      rw [dominates_irrefl] at h
      contradiction
    · exact .inr ⟨h, hji, hi⟩

theorem layered_ofObjectives (objectives : List (List α)) :
    Layered objectives.length (DominatesAt objectives) (Ranking.ofObjectives objectives) := by
  rw [← dominates_eq_dominatesAt]
  exact layered_sort _ _

/-- The vector `a` wins somewhere against `b`, and loses in no column but `k`. -/
def Precedes (k : Nat) (a b : List α) : Prop :=
  winsSomewhere a b = true ∧
    ∀ i ≠ k, ∀ x y, a[i]? = some x → b[i]? = some y → ¬y < x

theorem precedes_of_dominates {a b : List α} (h : dominates a b = true) (k : Nat) :
    Precedes k a b := by
  obtain ⟨hwins, hloses⟩ := dominates_iff.mp h
  refine ⟨hwins, fun i _ x y hx hy hlt => ?_⟩
  rw [Bool.eq_false_iff] at hloses
  exact hloses (winsSomewhere_iff.mpr ⟨i, y, x, hy, hx, hlt⟩)

/-- All vectors have length `d` and are defined in all columns but `k`. -/
structure DefinedBut (k d : Nat) (objectives : List (List α)) : Prop where
  length_eq : ∀ v ∈ objectives, v.length = d
  defined : ∀ v ∈ objectives, ∀ i ≠ k, ∀ x, v[i]? = some x → x ≤ x

variable [OrderedScalar α]

theorem not_precedes_self (k : Nat) (a : List α) : ¬Precedes k a a := by
  rintro ⟨h, -⟩
  obtain ⟨i, x, y, hx, hy, hlt⟩ := winsSomewhere_iff.mp h
  cases hx.symm.trans hy
  exact OrderedScalar.lt_irrefl x hlt

section Column

variable {k d : Nat} {objectives : List (List α)} (h : DefinedBut k d objectives)

include h

omit [OrderedScalar α] in
theorem DefinedBut.exists_entry {u v : List α} (hu : u ∈ objectives) (hv : v ∈ objectives) {i : Nat}
    {x : α} (hx : u[i]? = some x) : ∃ y, v[i]? = some y ∧ (i ≠ k → y ≤ y) := by
  have hi : i < v.length := by
    rw [h.length_eq v hv, ← h.length_eq u hu]
    exact (List.getElem?_eq_some_iff.mp hx).1
  have hy : v[i]? = some v[i] := List.getElem?_eq_getElem hi
  exact ⟨v[i], hy, fun hne => h.defined v hv i hne v[i] hy⟩

/-- A win outside the column `k` lasts, because later vectors do not lose there, and wins in the
column `k` add up. -/
theorem DefinedBut.precedes_trans {a b c : List α} (ha : a ∈ objectives) (hb : b ∈ objectives)
    (hc : c ∈ objectives) (hab : Precedes k a b) (hbc : Precedes k b c) : Precedes k a c := by
  obtain ⟨hwins, hkeeps⟩ := hab
  obtain ⟨hwins', hkeeps'⟩ := hbc
  obtain ⟨i, x, y, hx, hy, hxy⟩ := winsSomewhere_iff.mp hwins
  obtain ⟨j, y', z', hy', hz', hyz'⟩ := winsSomewhere_iff.mp hwins'
  constructor
  · rw [winsSomewhere_iff]
    by_cases hi : i = k
    · by_cases hj : j = k
      · subst hi
        subst hj
        cases hy.symm.trans hy'
        exact ⟨_, x, z', hx, hz', OrderedScalar.lt_trans hxy hyz'⟩
      · obtain ⟨x', hx', hdefined⟩ := h.exists_entry hb ha hy'
        rcases OrderedScalar.lt_or_lt (hdefined hj) hyz' with hlt | hlt
        · exact absurd hlt (hkeeps j hj x' y' hx' hy')
        · exact ⟨j, x', z', hx', hz', hlt⟩
    · obtain ⟨z, hz, hdefined⟩ := h.exists_entry hb hc hy
      rcases OrderedScalar.lt_or_lt (hdefined hi) hxy with hlt | hlt
      · exact ⟨i, x, z, hx, hz, hlt⟩
      · exact absurd hlt (hkeeps' i hi y z hy hz)
  · intro m hm x z hx hz hzx
    obtain ⟨y, hy, hdefined⟩ := h.exists_entry ha hb hx
    rcases OrderedScalar.lt_or_lt (hdefined hm) hzx with hlt | hlt
    · exact hkeeps' m hm y z hy hz hlt
    · exact hkeeps m hm x y hx hy hlt

theorem DefinedBut.precedes_of_transGen {i j : Nat}
    (hpath : TransGen (DominatesAt objectives) i j) :
    ∃ a b, objectives[i]? = some a ∧ objectives[j]? = some b ∧ Precedes k a b := by
  induction hpath with
  | single hij =>
      obtain ⟨a, b, ha, hb, hab⟩ := hij
      exact ⟨a, b, ha, hb, precedes_of_dominates hab k⟩
  | tail _ hij ih =>
      obtain ⟨a, b, ha, hb, hab⟩ := ih
      obtain ⟨b', c, hb', hc, hbc⟩ := hij
      obtain rfl := Option.some.inj (hb.symm.trans hb')
      exact ⟨a, c, ha, hc, h.precedes_trans (List.mem_of_getElem? ha) (List.mem_of_getElem? hb)
        (List.mem_of_getElem? hc) hab (precedes_of_dominates hbc k)⟩

theorem DefinedBut.not_belowCycle (i : Nat) : ¬BelowCycle (DominatesAt objectives) i := by
  rintro ⟨c, -, hcycle⟩
  obtain ⟨a, b, ha, hb, hab⟩ := h.precedes_of_transGen hcycle
  obtain rfl := Option.some.inj (ha.symm.trans hb)
  exact not_precedes_self k a hab

end Column

/-- Sorting objective vectors puts none of them into two fronts, and leaves out those that are below
a cycle of dominance, with rank zero.  It leaves out none of them if they have a common length and
no more than one objective with undefined values. -/
theorem sorting_is_complete (objectives : List (List α)) :
    (Ranking.ofObjectives objectives).fronts.flatten.Nodup ∧
    (∀ i < objectives.length,
      (i ∉ (Ranking.ofObjectives objectives).fronts.flatten ↔
        BelowCycle (DominatesAt objectives) i) ∧
      (i ∉ (Ranking.ofObjectives objectives).fronts.flatten →
        (Ranking.ofObjectives objectives).ranks.getD i 0 = 0)) ∧
    ∀ k d, DefinedBut k d objectives →
      (Ranking.ofObjectives objectives).fronts.flatten.Perm (List.range objectives.length) ∧
      ∀ i < objectives.length, ∀ rank,
        (Ranking.ofObjectives objectives).ranks.getD i 0 = rank ↔
          i ∈ (Ranking.ofObjectives objectives).fronts.getD rank [] := by
  have hlayered := layered_ofObjectives objectives
  refine ⟨hlayered.nodup, ?_, ?_⟩
  · intro i hi
    refine ⟨?_, hlayered.rank_eq_zero i⟩
    rw [hlayered.mem_fronts_iff i hi, not_not]
  · intro k d h
    have hplaced : ∀ i < objectives.length,
        i ∈ (Ranking.ofObjectives objectives).fronts.flatten := fun i hi =>
      (hlayered.mem_fronts_iff i hi).mpr (h.not_belowCycle i)
    constructor
    · rw [List.perm_ext_iff_of_nodup hlayered.nodup List.nodup_range]
      intro i
      rw [List.mem_range]
      exact ⟨hlayered.lt_of_mem i, hplaced i⟩
    · intro i hi rank
      rw [hlayered.mem_front_iff i hi, hlayered.rank_eq_iff i (hplaced i hi)]

theorem pair_sorting_is_complete :
    (Ranking.ofObjectives [[0, Binary64.invalid], [1, 0]]).fronts.flatten.Perm [0, 1] := by
  have hlength : ∀ v ∈ ([[0, Binary64.invalid], [1, 0]] : List (List Binary64)), v.length = 2 := by
    simp
  have hdefined : ∀ v ∈ ([[0, Binary64.invalid], [1, 0]] : List (List Binary64)), ∀ i ≠ 1, ∀ x,
      v[i]? = some x → x ≤ x := by
    intro v hv i hi x hx
    have hzero : i = 0 := by
      have hlt := (List.getElem?_eq_some_iff.mp hx).1
      rw [hlength v hv] at hlt
      omega
    subst hzero
    simp only [List.mem_cons, List.not_mem_nil, or_false] at hv
    rcases hv with rfl | rfl
    · cases hx
      decide +kernel
    · cases hx
      decide +kernel
  exact ((sorting_is_complete _).2.2 1 2 ⟨hlength, hdefined⟩).1

/-- Each of three vectors dominates the next one, where undefined values hide two comparisons. -/
example :
    Ranking.ofObjectives
        [[0, Binary64.invalid, 1], [1, 0, Binary64.invalid], [Binary64.invalid, 1, 0]] =
      { fronts := [], ranks := [0, 0, 0] } := by
  decide +kernel

end Archipelago.Proofs.Completeness
