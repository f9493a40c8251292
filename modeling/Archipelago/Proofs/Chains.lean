import Mathlib.Data.Fintype.Card
import Mathlib.Data.Fintype.EquivFin
import Mathlib.Logic.Relation
import Mathlib.Order.WellFounded

namespace Archipelago.Proofs.Chains

open Relation

/-- Some chain of `k` steps of `r` ends at an item. -/
inductive Chain (r : Nat → Nat → Prop) : Nat → Nat → Prop
  | start (x : Nat) : Chain r 0 x
  | step {k x y : Nat} (chain : Chain r k x) (above : r x y) : Chain r (k + 1) y

/-- The longest chain that ends at an item has `k` steps. -/
def LongestChain (r : Nat → Nat → Prop) (k x : Nat) : Prop :=
  Chain r k x ∧ ∀ m, Chain r m x → m ≤ k

/-- Some chain that ends at an item starts in a cycle. -/
def BelowCycle (r : Nat → Nat → Prop) (x : Nat) : Prop :=
  ∃ c, ReflTransGen r c x ∧ TransGen r c c

theorem LongestChain.unique {r : Nat → Nat → Prop} {k m x : Nat}
    (hk : LongestChain r k x) (hm : LongestChain r m x) : k = m :=
  Nat.le_antisymm (hm.2 k hk.1) (hk.2 m hm.1)

theorem longestChain_zero_iff {r : Nat → Nat → Prop} {y : Nat} :
    LongestChain r 0 y ↔ ∀ x, ¬r x y := by
  constructor
  · intro h x hx
    have hle := h.2 1 (.step (.start x) hx)
    omega
  · intro h
    refine ⟨.start y, fun m hm => ?_⟩
    cases hm with
    | start => rfl
    | step _ above => exact absurd above (h _)

theorem longestChain_succ {r : Nat → Nat → Prop} {k y : Nat}
    (hle : ∀ x, r x y → ∃ m, m ≤ k ∧ LongestChain r m x)
    (hk : ∃ x, r x y ∧ LongestChain r k x) : LongestChain r (k + 1) y := by
  obtain ⟨x, hx, hchain⟩ := hk
  refine ⟨.step hchain.1 hx, fun m hm => ?_⟩
  cases hm with
  | start => omega
  | step chain above =>
      obtain ⟨bound, hbound, hlongest⟩ := hle _ above
      have := hlongest.2 _ chain
      omega

theorem Chain.append {r : Nat → Nat → Prop} {k x y : Nat} (chain : Chain r k x)
    (path : ReflTransGen r x y) : ∃ m, k ≤ m ∧ Chain r m y := by
  induction path with
  | refl => exact ⟨k, le_rfl, chain⟩
  | tail _ above ih =>
      obtain ⟨m, hm, hchain⟩ := ih
      exact ⟨m + 1, by omega, .step hchain above⟩

theorem exists_chain_of_cycle {r : Nat → Nat → Prop} {c : Nat} (cycle : TransGen r c c) (k : Nat) :
    ∃ m, k ≤ m ∧ Chain r m c := by
  induction k with
  | zero => exact ⟨0, le_rfl, .start c⟩
  | succ k ih =>
      obtain ⟨m, hm, chain⟩ := ih
      obtain ⟨d, hfirst, hrest⟩ := TransGen.head'_iff.mp cycle
      obtain ⟨l, hl, hchain⟩ := (Chain.step chain hfirst).append hrest
      exact ⟨l, by omega, hchain⟩

theorem not_belowCycle_of_longestChain {r : Nat → Nat → Prop} {k x : Nat}
    (h : LongestChain r k x) : ¬BelowCycle r x := by
  rintro ⟨c, hpath, hcycle⟩
  obtain ⟨m, hm, chain⟩ := exists_chain_of_cycle hcycle (k + 1)
  obtain ⟨l, hl, hchain⟩ := chain.append hpath
  have := h.2 l hchain
  omega

/-- In a finite set in which every item has another one above it, every item is below a cycle. -/
theorem belowCycle_of_forall_exists {r : Nat → Nat → Prop} {n : Nat} (s : Nat → Prop)
    (hbound : ∀ x, s x → x < n) (habove : ∀ y, s y → ∃ x, s x ∧ r x y) {y : Nat} (hy : s y) :
    BelowCycle r y := by
  by_contra hacyclic
  let Above := { x : Fin n // ReflTransGen r x y }
  let before : Above → Above → Prop := fun a b => TransGen r a.1 b.1
  have : IsTrans Above before := ⟨fun _ _ _ hab hbc => TransGen.trans hab hbc⟩
  have : Std.Irrefl before := ⟨fun a ha => hacyclic ⟨a.1, a.2, ha⟩⟩
  have wf : WellFounded before := Finite.wellFounded_of_trans_of_irrefl before
  obtain ⟨least, hleast, hmin⟩ :=
    wf.has_min { a : Above | s a.1 } ⟨⟨⟨y, hbound y hy⟩, .refl⟩, hy⟩
  obtain ⟨x, hx, hr⟩ := habove least.1 hleast
  exact hmin ⟨⟨x, hbound x hx⟩, .head hr least.2⟩ hx (.single hr)

end Archipelago.Proofs.Chains
