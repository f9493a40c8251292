import Archipelago.Proofs.Independence

namespace Archipelago.Proofs.Settlement

open Actions
open Independence
open OrderedScalars
open Runs
open StrictPreference

variable {σ α : Type} [Scalar α]

omit [Scalar α] in
theorem checkPicks_eq_ok_iff {size : Nat} {seen picks : List Nat} :
    Deme.checkPicks (α := α) size seen picks = .ok () ↔
      (∀ pick ∈ picks, pick < size ∧ pick ∉ seen) ∧ picks.Nodup := by
  induction picks generalizing seen with
  | nil => exact iff_of_true rfl ⟨List.forall_mem_nil _, List.nodup_nil⟩
  | cons pick picks ih =>
      rw [Deme.checkPicks, List.forall_mem_cons, List.nodup_cons]
      split_ifs with hsize hseen
      · refine iff_of_false ?_ fun h => hsize.not_gt h.1.1.1
        intro h
        contradiction
      · refine iff_of_false ?_ fun h => h.1.1.2 hseen
        intro h
        contradiction
      · rw [ih]
        constructor
        · rintro ⟨hpicks, hnodup⟩
          exact ⟨⟨⟨not_le.mp hsize, hseen⟩, fun other hother =>
            ⟨(hpicks other hother).1, List.not_mem_of_not_mem_cons (hpicks other hother).2⟩⟩,
            fun hmem => (hpicks pick hmem).2 List.mem_cons_self, hnodup⟩
        · rintro ⟨⟨-, hpicks⟩, hpick, hnodup⟩
          refine ⟨fun other hother => ⟨(hpicks other hother).1, ?_⟩, hnodup⟩
          rw [List.mem_cons, not_or]
          exact ⟨fun heq => hpick (heq ▸ hother), (hpicks other hother).2⟩

theorem check_eq_ok_iff_arrivals {deme : Deme α} {p : Population α}
    (hlength : deme.individuals.length = deme.picks.length) :
    deme.check p = .ok () ↔
      (deme.arrivals.map Prod.snd).Nodup ∧
        ∀ arrival ∈ deme.arrivals,
          arrival.2 < p.size ∧ arrival.1.checkShape p.problem = .ok () := by
  have hindividuals : deme.arrivals.map Prod.fst = deme.individuals :=
    List.map_fst_zip hlength.le
  have hpicks : deme.arrivals.map Prod.snd = deme.picks := List.map_snd_zip hlength.ge
  rw [check_eq_ok_iff, checkPicks_eq_ok_iff, ← hindividuals, ← hpicks]
  simp only [List.forall_mem_map, List.length_map, List.not_mem_nil, not_false_eq_true, and_true,
    true_and]
  constructor
  · rintro ⟨⟨hbound, hnodup⟩, hshape⟩
    exact ⟨hnodup, fun arrival harrival => ⟨hbound arrival harrival, hshape arrival harrival⟩⟩
  · rintro ⟨hnodup, h⟩
    exact ⟨⟨fun arrival harrival => (h arrival harrival).1, hnodup⟩,
      fun arrival harrival => (h arrival harrival).2⟩

section Checks

variable {deme other : Deme α} {p q : Population α}

theorem check_perm (hcheck : deme.check p = .ok ())
    (hlength : other.individuals.length = other.picks.length)
    (hperm : other.arrivals.Perm deme.arrivals) : other.check p = .ok () := by
  rw [check_eq_ok_iff_arrivals (check_eq_ok_iff.mp hcheck).1] at hcheck
  rw [check_eq_ok_iff_arrivals hlength, (hperm.map Prod.snd).nodup_iff]
  exact ⟨hcheck.1, fun arrival harrival => hcheck.2 arrival (hperm.mem_iff.mp harrival)⟩

theorem size_eq_of_perm (hcheck : deme.check p = .ok ())
    (hlength : other.individuals.length = other.picks.length)
    (hperm : other.arrivals.Perm deme.arrivals) : other.size = deme.size := by
  have hcount := hperm.length_eq
  rw [Deme.arrivals, Deme.arrivals, List.length_zip, List.length_zip, ← hlength, Nat.min_self,
    ← (check_eq_ok_iff.mp hcheck).1, Nat.min_self] at hcount
  exact hcount

end Checks

/-- Each arrival has been settled with the individual that `p` holds in its slot. -/
structure Settled (choose : Individual α → Individual α → Individual α)
    (arrivals : List (Individual α × Nat)) (p q : Population α) : Prop where
  problem_eq : q.problem = p.problem
  size_eq : q.size = p.size
  picked : ∀ arrival ∈ arrivals, ∃ occupant, p.individuals[arrival.2]? = some occupant ∧
    q.individuals[arrival.2]? = some (choose arrival.1 occupant)
  others : ∀ slot, slot ∉ arrivals.map Prod.snd → q.individuals[slot]? = p.individuals[slot]?

section Settling

variable {choose : Individual α → Individual α → Individual α}
  {arrivals others : List (Individual α × Nat)} {p q r : Population α}

theorem Settled.cons {arrival : Individual α × Nat} {occupant : Individual α}
    (hoccupant : p.individuals[arrival.2]? = some occupant)
    (hnot : arrival.2 ∉ arrivals.map Prod.snd)
    (h : Settled choose arrivals (p.set arrival.2 (choose arrival.1 occupant)) q) :
    Settled choose (arrival :: arrivals) p q where
  problem_eq := h.problem_eq
  size_eq := h.size_eq.trans List.length_set
  picked later hlater := by
    rcases List.mem_cons.mp hlater with rfl | hlater
    · refine ⟨occupant, hoccupant, ?_⟩
      rw [h.others later.2 hnot]
      exact List.getElem?_set_self (List.getElem?_eq_some_iff.mp hoccupant).1
    · have hne : arrival.2 ≠ later.2 := fun heq =>
        hnot (heq ▸ List.mem_map_of_mem hlater)
      obtain ⟨found, hfound, hq⟩ := h.picked later hlater
      exact ⟨found, (List.getElem?_set_ne hne).symm.trans hfound, hq⟩
  others slot hslot := by
    rw [List.map_cons, List.mem_cons, not_or] at hslot
    rw [h.others slot hslot.2]
    exact List.getElem?_set_ne (Ne.symm hslot.1)

theorem Settled.unique (hq : Settled choose arrivals p q) (hr : Settled choose others p r)
    (hmem : ∀ arrival, arrival ∈ others ↔ arrival ∈ arrivals) : q = r := by
  refine AgreeOn.eq ⟨hq.problem_eq.trans hr.problem_eq.symm, hq.size_eq.trans hr.size_eq.symm, ?_⟩
  intro slot _
  by_cases hslot : slot ∈ arrivals.map Prod.snd
  · obtain ⟨arrival, harrival, rfl⟩ := List.mem_map.mp hslot
    obtain ⟨occupant, hoccupant, hleft⟩ := hq.picked arrival harrival
    obtain ⟨found, hfound, hright⟩ := hr.picked arrival ((hmem arrival).mpr harrival)
    cases hoccupant.symm.trans hfound
    exact hleft.trans hright.symm
  · have hslot' : slot ∉ others.map Prod.snd := by
      simp only [List.mem_map, hmem] at hslot ⊢
      exact hslot
    exact (hq.others slot hslot).trans (hr.others slot hslot').symm

/-- What has been settled stays if the same arrivals come again. -/
theorem Settled.again (hchoose : ∀ a b, choose a (choose a b) = choose a b)
    (h : Settled choose arrivals p q) : Settled choose arrivals q q where
  problem_eq := rfl
  size_eq := rfl
  picked arrival harrival := by
    obtain ⟨occupant, -, hq⟩ := h.picked arrival harrival
    exact ⟨_, hq, by rw [hchoose]; exact hq⟩
  others _ _ := rfl

end Settling

/-- The individual that stays in a slot for which another one competes. -/
def survivor (problem : Problem α) (incomer occupant : Individual α) : Individual α :=
  if incomer.isPreferredOver problem occupant then incomer else occupant

/-- The arrival is preferred over the individual in its slot. -/
def takesSlot (p : Population α) (arrival : Individual α × Nat) : Bool :=
  (p.get? arrival.2).any (arrival.1.isPreferredOver p.problem)

theorem compete_eq {p : Population α} {arrival : Individual α × Nat} {occupant : Individual α}
    (hoccupant : p.individuals[arrival.2]? = some occupant) (count : Nat) :
    Population.compete (p, count) arrival =
      (p.set arrival.2 (survivor p.problem arrival.1 occupant),
        count + if takesSlot p arrival then 1 else 0) := by
  rw [Population.compete, takesSlot, survivor, Population.get?, hoccupant]
  simp only [Option.any_some]
  split
  · rfl
  · have hset : p.individuals.set arrival.2 occupant = p.individuals := by
      obtain ⟨hlt, heq⟩ := List.getElem?_eq_some_iff.mp hoccupant
      rw [← heq, List.set_getElem_self hlt]
    rw [Population.set, hset]
    rfl

theorem takesSlot_set {p : Population α} {arrival : Individual α × Nat} {slot : Nat}
    (hne : slot ≠ arrival.2) (individual : Individual α) :
    takesSlot (p.set slot individual) arrival = takesSlot p arrival := by
  rw [takesSlot, takesSlot, Population.get?, Population.get?, Population.set,
    List.getElem?_set_ne hne]

section Arrivals

variable {arrivals : List (Individual α × Nat)} {p : Population α}
  (hnodup : (arrivals.map Prod.snd).Nodup) (hbound : ∀ arrival ∈ arrivals, arrival.2 < p.size)

include hnodup hbound

theorem merge_settled :
    Settled (survivor p.problem) arrivals p (p.merge arrivals).1 ∧
      (p.merge arrivals).2 = arrivals.countP (takesSlot p) := by
  rw [Population.merge, ← Nat.zero_add (arrivals.countP _)]
  generalize 0 = count
  induction arrivals generalizing p count with
  | nil => exact ⟨⟨rfl, rfl, List.forall_mem_nil _, fun _ _ => rfl⟩, rfl⟩
  | cons arrival arrivals ih =>
      obtain ⟨hnot, hnodup⟩ := List.nodup_cons.mp hnodup
      obtain ⟨hslot, hbound⟩ := List.forall_mem_cons.mp hbound
      have hoccupant : p.individuals[arrival.2]? = some p.individuals[arrival.2] :=
        List.getElem?_eq_getElem hslot
      rw [List.foldl_cons, compete_eq hoccupant]
      let next := p.set arrival.2 (survivor p.problem arrival.1 p.individuals[arrival.2])
      have hsize : next.size = p.size := List.length_set
      obtain ⟨hsettled, hcount⟩ := ih hnodup (p := next)
        (fun later hlater => hsize ▸ hbound later hlater)
        (count + if takesSlot p arrival then 1 else 0)
      refine ⟨hsettled.cons hoccupant hnot, ?_⟩
      -- the arrival does not touch the slots that are counted after it
      have hlater : arrivals.countP (takesSlot next) = arrivals.countP (takesSlot p) := by
        refine List.countP_congr fun later hlater => ?_
        have hne : arrival.2 ≠ later.2 := fun heq => hnot (heq ▸ List.mem_map_of_mem hlater)
        rw [takesSlot_set hne]
      rw [hcount, hlater, List.countP_cons]
      omega

theorem overwrite_settled :
    Settled (fun incomer _ => incomer) arrivals p (p.overwrite arrivals) := by
  rw [Population.overwrite]
  induction arrivals generalizing p with
  | nil => exact ⟨rfl, rfl, List.forall_mem_nil _, fun _ _ => rfl⟩
  | cons arrival arrivals ih =>
      obtain ⟨hnot, hnodup⟩ := List.nodup_cons.mp hnodup
      obtain ⟨hslot, hbound⟩ := List.forall_mem_cons.mp hbound
      have hsize : (p.set arrival.2 arrival.1).size = p.size := List.length_set
      rw [List.foldl_cons]
      exact Settled.cons (List.getElem?_eq_getElem hslot) hnot
        (ih hnodup fun later hlater => hsize ▸ hbound later hlater)

end Arrivals

section Standard

variable [OrderedScalar α] {problem : Problem α} (hstandard : problem.preference = .standard)

include hstandard

theorem survivor_not_beaten (incomer occupant : Individual α) :
    incomer.isPreferredOver problem (survivor problem incomer occupant) = false := by
  rw [survivor]
  split
  case isTrue => exact isPreferredOver_irrefl hstandard incomer
  case isFalse h => exact Bool.eq_false_iff.mpr h

theorem survivor_again (incomer occupant : Individual α) :
    survivor problem incomer (survivor problem incomer occupant) =
      survivor problem incomer occupant := by
  have hnot := survivor_not_beaten hstandard incomer occupant
  rw [survivor, hnot]
  rfl

end Standard

section Insertions

variable {deme other : Deme α} {island next : Island σ α}

theorem insertDeme_eq_ok_iff {replaced : Nat} :
    Island.insertDeme deme island = .ok replaced next ↔
      deme.check island.population = .ok () ∧
        (island.population.merge deme.arrivals).2 = replaced ∧
        { population := (island.population.merge deme.arrivals).1
          session := (Session.report (.merged replaced deme.size) island.session).2 } = next := by
  rw [insertDeme_eq]
  cases deme.check island.population with
  | error => exact iff_of_false nofun nofun
  | ok =>
      simp only [EStateM.Result.ok.injEq, true_and]
      constructor
      · rintro ⟨rfl, rfl⟩
        exact ⟨rfl, rfl⟩
      · rintro ⟨rfl, rfl⟩
        exact ⟨rfl, rfl⟩

theorem insertDemeForced_eq_ok_iff :
    Island.insertDemeForced deme island = .ok () next ↔
      deme.check island.population = .ok () ∧
        { island with population := island.population.overwrite deme.arrivals } = next := by
  rw [insertDemeForced_eq]
  cases deme.check island.population with
  | error => exact iff_of_false nofun nofun
  | ok => simp

section Checked

variable {p : Population α} (hcheck : deme.check p = .ok ())

include hcheck

theorem merge_settled_of_check :
    Settled (survivor p.problem) deme.arrivals p (p.merge deme.arrivals).1 ∧
      (p.merge deme.arrivals).2 = deme.arrivals.countP (takesSlot p) := by
  obtain ⟨hnodup, harrivals⟩ :=
    (check_eq_ok_iff_arrivals (check_eq_ok_iff.mp hcheck).1).mp hcheck
  exact merge_settled hnodup fun arrival harrival => (harrivals arrival harrival).1

theorem overwrite_settled_of_check :
    Settled (fun incomer _ => incomer) deme.arrivals p (p.overwrite deme.arrivals) := by
  obtain ⟨hnodup, harrivals⟩ :=
    (check_eq_ok_iff_arrivals (check_eq_ok_iff.mp hcheck).1).mp hcheck
  exact overwrite_settled hnodup fun arrival harrival => (harrivals arrival harrival).1

theorem Settled.check {choose : Individual α → Individual α → Individual α} {q : Population α}
    (h : Settled choose deme.arrivals p q) : deme.check q = .ok () := by
  rw [Deme.check, h.problem_eq, h.size_eq]
  exact hcheck

variable (hlength : other.individuals.length = other.picks.length)
  (hperm : other.arrivals.Perm deme.arrivals)

include hlength hperm

theorem merge_perm : p.merge other.arrivals = p.merge deme.arrivals := by
  obtain ⟨hsettled, hcount⟩ := merge_settled_of_check hcheck
  obtain ⟨hsettled', hcount'⟩ := merge_settled_of_check (check_perm hcheck hlength hperm)
  refine Prod.ext ?_ ?_
  · exact (hsettled.unique hsettled' fun _ => hperm.mem_iff).symm
  · rw [hcount, hcount', hperm.countP_eq]

theorem overwrite_perm : p.overwrite other.arrivals = p.overwrite deme.arrivals :=
  ((overwrite_settled_of_check hcheck).unique
    (overwrite_settled_of_check (check_perm hcheck hlength hperm)) fun _ => hperm.mem_iff).symm

end Checked

variable [OrderedScalar α]

theorem merge_again {p : Population α} (hcheck : deme.check p = .ok ())
    (hstandard : p.problem.preference = .standard) :
    (p.merge deme.arrivals).1.merge deme.arrivals = ((p.merge deme.arrivals).1, 0) := by
  obtain ⟨hsettled, -⟩ := merge_settled_of_check hcheck
  obtain ⟨hsettled', hcount'⟩ := merge_settled_of_check (hsettled.check hcheck)
  rw [hsettled.problem_eq] at hsettled'
  refine Prod.ext ?_ ?_
  · exact hsettled'.unique (hsettled.again (survivor_again hstandard)) fun _ => Iff.rfl
  · rw [hcount', List.countP_eq_zero]
    intro arrival harrival
    obtain ⟨occupant, -, hslot⟩ := hsettled.picked arrival harrival
    rw [takesSlot, Population.get?, hslot, hsettled.problem_eq, Option.any_some,
      survivor_not_beaten hstandard]
    exact Bool.false_ne_true

/-- Merging a deme settles all of it at once: each migrant is compared with the individual that was
in its slot before any of them came.  The order of the migrants makes no difference, and merging the
deme once more changes nothing.  The same holds if the migrants need not compete. -/
theorem insertions_settle (deme : Deme α) (island : Island σ α)
    (hstandard : island.population.problem.preference = .standard) :
    (∀ replaced next, Island.insertDeme deme island = .ok replaced next →
      Settled (survivor island.population.problem) deme.arrivals island.population
          next.population ∧
        replaced = deme.arrivals.countP (takesSlot island.population) ∧
        (∀ other : Deme α, other.individuals.length = other.picks.length →
          other.arrivals.Perm deme.arrivals →
            Island.insertDeme other island = .ok replaced next) ∧
        ∃ last, Island.insertDeme deme next = .ok 0 last ∧ last.population = next.population) ∧
    (∀ next, Island.insertDemeForced deme island = .ok () next →
      Settled (fun incomer _ => incomer) deme.arrivals island.population next.population ∧
        (∀ other : Deme α, other.individuals.length = other.picks.length →
          other.arrivals.Perm deme.arrivals → Island.insertDemeForced other island = .ok () next) ∧
        Island.insertDemeForced deme next = .ok () next) := by
  constructor
  · intro replaced next h
    obtain ⟨hcheck, rfl, rfl⟩ := insertDeme_eq_ok_iff.mp h
    obtain ⟨hsettled, hcount⟩ := merge_settled_of_check hcheck
    refine ⟨hsettled, hcount, ?_, ?_⟩
    · intro other hlength hperm
      rw [insertDeme_eq_ok_iff, merge_perm hcheck hlength hperm,
        size_eq_of_perm hcheck hlength hperm]
      exact ⟨check_perm hcheck hlength hperm, rfl, rfl⟩
    · refine ⟨_, insertDeme_eq_ok_iff.mpr ⟨hsettled.check hcheck, ?_, rfl⟩, ?_⟩
      · rw [merge_again hcheck hstandard]
      · rw [merge_again hcheck hstandard]
  · intro next h
    obtain ⟨hcheck, rfl⟩ := insertDemeForced_eq_ok_iff.mp h
    have hsettled := overwrite_settled_of_check hcheck
    refine ⟨hsettled, ?_, ?_⟩
    · intro other hlength hperm
      rw [insertDemeForced_eq_ok_iff, overwrite_perm hcheck hlength hperm]
      exact ⟨check_perm hcheck hlength hperm, rfl⟩
    · have hcheck' := hsettled.check hcheck
      have hagain := (overwrite_settled_of_check hcheck').unique
        (hsettled.again fun _ _ => rfl) fun _ => Iff.rfl
      rw [insertDemeForced_eq_ok_iff]
      exact ⟨hcheck', by rw [hagain]⟩

end Insertions

/-- Both ends of the interval, bound for the two slots of the pair. -/
def ends : Deme Binary64 where
  individuals := [evaluated interval [-1] [0], evaluated interval [1] [0]]
  picks := [0, 1]

def endsReversed : Deme Binary64 where
  individuals := ends.individuals.reverse
  picks := ends.picks.reverse

theorem check_ends : ends.check pair.population = .ok () := by
  have hpicks : Deme.checkPicks (α := Binary64) 2 [] [0, 1] = .ok () :=
    checkPicks_eq_ok_iff.mpr (by decide)
  refine check_eq_ok_iff.mpr ⟨rfl, hpicks, List.forall_mem_cons.mpr ⟨?_, ?_⟩⟩
  · exact checkShape_eq_ok_iff.mpr ⟨rfl, rfl, rfl, rfl⟩
  · intro individual hindividual
    rw [List.mem_singleton.mp hindividual]
    exact checkShape_eq_ok_iff.mpr ⟨rfl, rfl, rfl, rfl⟩

theorem pair_settles :
    ∃ next last, Island.insertDeme ends pair = .ok 1 next ∧
      Island.insertDeme endsReversed pair = .ok 1 next ∧
      Island.insertDeme ends next = .ok 0 last ∧ last.population = next.population := by
  have hinsert : ∃ next, Island.insertDeme ends pair = .ok 1 next :=
    ⟨_, insertDeme_eq_ok_iff.mpr ⟨check_ends, rfl, rfl⟩⟩
  obtain ⟨next, hinsert⟩ := hinsert
  obtain ⟨-, -, hperm, last, hagain, hsame⟩ :=
    (insertions_settle ends pair rfl).1 1 next hinsert
  have hreversed : endsReversed.arrivals.Perm ends.arrivals :=
    List.Perm.swap (evaluated interval [-1] [0], 0) (evaluated interval [1] [0], 1) []
  exact ⟨next, last, hinsert, hperm endsReversed rfl hreversed, hagain, hsame⟩

end Archipelago.Proofs.Settlement
