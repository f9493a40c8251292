import Archipelago.Proofs.Chains
import Archipelago.Ranking
import Mathlib.Data.List.Basic
import Mathlib.Data.List.Nodup
import Mathlib.Data.List.Sort

/-!
Sorting by dominance places an item by the longest chain of items above it, and leaves out the
items below a cycle.  Nothing is assumed of the relation.
-/

namespace Archipelago.Proofs.Layering

open Chains
open Ranking

/-- Item `i` dominates item `j` by a relation that is asked about ascending pairs of items below
`n`. -/
def Dominates (n : Nat) (relation : Nat → Nat → Dominance) (i j : Nat) : Prop :=
  relation i j = .left ∧ i < j ∧ j < n ∨ relation j i = .right ∧ j < i ∧ i < n

/-- A relation that puts on record which pairs it is asked about. -/
def asking (relation : Nat → Nat → Dominance) (i j : Nat) : StateM (List (Nat × Nat)) Dominance :=
  fun asked => (relation i j, asked ++ [(i, j)])

theorem mem_pairs_iff {n i j : Nat} : (i, j) ∈ pairs n ↔ i < j ∧ j < n := by
  simp only [pairs, List.mem_flatMap, List.mem_range, List.mem_map, List.mem_range'_1,
    Prod.mk.injEq]
  constructor
  · rintro ⟨a, ha, b, hb, rfl, rfl⟩
    omega
  · rintro ⟨hij, hj⟩
    exact ⟨i, by omega, j, by omega, rfl, rfl⟩

theorem nodup_pairs (n : Nat) : (pairs n).Nodup := by
  rw [pairs, List.nodup_flatMap]
  constructor
  · intro i _
    have hnodup : (List.range' (i + 1) (n - (i + 1))).Nodup := List.nodup_range'
    exact hnodup.map fun a b h => (Prod.mk.inj h).2
  · refine List.nodup_range.imp fun {a b} hne => ?_
    simp only [Function.onFun, List.disjoint_left, List.mem_map]
    rintro _ ⟨c, _, rfl⟩ ⟨d, _, heq⟩
    exact hne (Prod.mk.inj heq).1.symm

/-- What a ledger knows once some pairs of items below `n` have been asked about. -/
structure Informed (n : Nat) (relation : Nat → Nat → Dominance) (asked : List (Nat × Nat))
    (ledger : Ledger) : Prop where
  counts_length : ledger.counts.length = n
  dominated_length : ledger.dominated.length = n
  mem_row_iff : ∀ i j, j ∈ ledger.row i ↔
    relation i j = .left ∧ (i, j) ∈ asked ∨ relation j i = .right ∧ (j, i) ∈ asked
  counts_eq : ∀ j, ledger.counts.getD j 0 = ledger.dominated.flatten.count j

theorem informed_blank (n : Nat) (relation : Nat → Nat → Dominance) :
    Informed n relation [] (.blank n) where
  counts_length := by simp [Ledger.blank]
  dominated_length := by simp [Ledger.blank]
  mem_row_iff i j := by
    rcases Nat.lt_or_ge i n with hi | hi
    · simp [Ledger.row, Ledger.blank, hi]
    · simp [Ledger.row, Ledger.blank, hi]
  counts_eq j := by
    rcases Nat.lt_or_ge j n with hj | hj
    · simp [Ledger.blank, hj]
    · simp [Ledger.blank, hj]

theorem count_flatten_modify {rows : List (List Nat)} {i : Nat} (hi : i < rows.length)
    (j x : Nat) :
    (rows.modify i (· ++ [j])).flatten.count x = rows.flatten.count x + [j].count x := by
  induction rows generalizing i with
  | nil => simp at hi
  | cons row rows ih =>
      cases i with
      | zero =>
          simp only [List.modify_zero_cons, List.flatten_cons, List.count_append]
          omega
      | succ i =>
          have := ih (i := i) (by simpa using hi)
          simp only [List.modify_succ_cons, List.flatten_cons, List.count_append, this]
          omega

theorem getD_modify_succ {counts : List Nat} {j : Nat} (hj : j < counts.length) (x : Nat) :
    (counts.modify j (· + 1)).getD x 0 = counts.getD x 0 + [j].count x := by
  rw [List.getD_eq_getElem?_getD, List.getElem?_modify, List.getD_eq_getElem?_getD]
  by_cases h : j = x
  · subst h
    simp [hj]
  · simp [h]

theorem mem_row_note {ledger : Ledger} {i : Nat} (hi : i < ledger.dominated.length)
    (j a b : Nat) :
    b ∈ (ledger.note i j).row a ↔ b ∈ ledger.row a ∨ a = i ∧ b = j := by
  simp only [Ledger.row, Ledger.note, List.getD_eq_getElem?_getD, List.getElem?_modify]
  by_cases h : i = a
  · subst h
    simp [hi]
  · simp [h, Ne.symm h]

theorem counts_eq_note {ledger : Ledger} {i j : Nat} (hi : i < ledger.dominated.length)
    (hj : j < ledger.counts.length)
    (hcounts : ∀ x, ledger.counts.getD x 0 = ledger.dominated.flatten.count x) (x : Nat) :
    (ledger.note i j).counts.getD x 0 = (ledger.note i j).dominated.flatten.count x := by
  simp only [Ledger.note]
  rw [getD_modify_succ hj, count_flatten_modify hi, hcounts]

theorem informed_enter {n : Nat} {relation : Nat → Nat → Dominance} {asked : List (Nat × Nat)}
    {ledger : Ledger} (h : Informed n relation asked ledger) {i j : Nat} (hi : i < n)
    (hj : j < n) :
    Informed n relation (asked ++ [(i, j)]) (ledger.enter i j (relation i j)) := by
  have hcounts : ∀ x, x < n → x < ledger.counts.length := by simp [h.counts_length]
  have hrows : ∀ x, x < n → x < ledger.dominated.length := by simp [h.dominated_length]
  cases hverdict : relation i j with
  | left =>
      refine ⟨by simp [Ledger.enter, Ledger.note, h.counts_length],
        by simp [Ledger.enter, Ledger.note, h.dominated_length], fun a b => ?_,
        counts_eq_note (hrows i hi) (hcounts j hj) h.counts_eq⟩
      rw [Ledger.enter, mem_row_note (hrows i hi), h.mem_row_iff]
      grind
  | right =>
      refine ⟨by simp [Ledger.enter, Ledger.note, h.counts_length],
        by simp [Ledger.enter, Ledger.note, h.dominated_length], fun a b => ?_,
        counts_eq_note (hrows j hj) (hcounts i hi) h.counts_eq⟩
      rw [Ledger.enter, mem_row_note (hrows j hj), h.mem_row_iff]
      grind
  | neither =>
      refine ⟨h.counts_length, h.dominated_length, fun a b => ?_, h.counts_eq⟩
      rw [Ledger.enter, h.mem_row_iff]
      grind

/-- The ledger once all of the given pairs have been asked about. -/
def entered (relation : Nat → Nat → Dominance) (pairs : List (Nat × Nat)) (ledger : Ledger) :
    Ledger :=
  pairs.foldl (fun ledger pair => ledger.enter pair.1 pair.2 (relation pair.1 pair.2)) ledger

theorem survey_pure (relation : Nat → Nat → Dominance) (pairs : List (Nat × Nat))
    (ledger : Ledger) :
    Id.run (survey (fun i j => pure (relation i j)) pairs ledger) =
      entered relation pairs ledger := by
  induction pairs generalizing ledger with
  | nil => rfl
  | cons pair pairs ih => exact ih _

theorem survey_asking (relation : Nat → Nat → Dominance) (pairs : List (Nat × Nat))
    (ledger : Ledger) (asked : List (Nat × Nat)) :
    survey (asking relation) pairs ledger asked =
      (entered relation pairs ledger, asked ++ pairs) := by
  induction pairs generalizing ledger asked with
  | nil =>
      change (ledger, asked) = (ledger, asked ++ [])
      rw [List.append_nil]
  | cons pair pairs ih =>
      change survey (asking relation) pairs _ (asked ++ [pair]) = _
      rw [ih]
      simp [entered]

theorem informed_entered {n : Nat} {relation : Nat → Nat → Dominance}
    {asked pairs : List (Nat × Nat)} {ledger : Ledger} (h : Informed n relation asked ledger)
    (hpairs : ∀ pair ∈ pairs, pair.1 < n ∧ pair.2 < n) :
    Informed n relation (asked ++ pairs) (entered relation pairs ledger) := by
  induction pairs generalizing asked ledger with
  | nil => simpa [entered] using h
  | cons pair pairs ih =>
      have hpair := hpairs pair (by simp)
      have hnext := informed_enter h hpair.1 hpair.2
      simpa [entered] using ih hnext fun other hother => hpairs other (by simp [hother])

def fullLedger (n : Nat) (relation : Nat → Nat → Dominance) : Ledger :=
  entered relation (pairs n) (.blank n)

theorem informed_fullLedger (n : Nat) (relation : Nat → Nat → Dominance) :
    Informed n relation (pairs n) (fullLedger n relation) := by
  have hpairs : ∀ pair ∈ pairs n, pair.1 < n ∧ pair.2 < n := by
    rintro ⟨i, j⟩ hpair
    have := mem_pairs_iff.mp hpair
    omega
  rw [fullLedger, ← List.nil_append (pairs n)]
  exact informed_entered (informed_blank n relation) hpairs

theorem mem_row_fullLedger {n i j : Nat} {relation : Nat → Nat → Dominance} :
    j ∈ (fullLedger n relation).row i ↔ Dominates n relation i j := by
  rw [(informed_fullLedger n relation).mem_row_iff, mem_pairs_iff, mem_pairs_iff]
  rfl

theorem sort_eq_ofLedger (n : Nat) (relation : Nat → Nat → Dominance) :
    sort n relation = ofLedger n (fullLedger n relation) := by
  rw [fullLedger, ← survey_pure]
  rfl

theorem sortM_asking (n : Nat) (relation : Nat → Nat → Dominance) :
    sortM n (asking relation) [] = (sort n relation, pairs n) := by
  change (fun s => (ofLedger n s.1, s.2)) (survey (asking relation) (pairs n) (.blank n) []) = _
  rw [survey_asking, sort_eq_ofLedger]
  rfl

theorem strike_of_last {p : Peeling} {item : Nat} (h : p.count item - 1 = 0) :
    p.strike item =
      { p with
        counts := p.counts.set item 0
        ranks := p.ranks.set item (p.fronts.length + 1)
        freed := p.freed ++ [item] } := by
  simp [Peeling.strike, h]

theorem strike_of_not_last {p : Peeling} {item : Nat} (h : p.count item - 1 ≠ 0) :
    p.strike item = { p with counts := p.counts.set item (p.count item - 1) } := by
  simp [Peeling.strike, h]

theorem strike_fronts (p : Peeling) (item : Nat) : (p.strike item).fronts = p.fronts := by
  by_cases h : p.count item - 1 = 0
  · simp [strike_of_last h]
  · simp [strike_of_not_last h]

theorem strike_ranks_length (p : Peeling) (item : Nat) :
    (p.strike item).ranks.length = p.ranks.length := by
  by_cases h : p.count item - 1 = 0
  · simp [strike_of_last h]
  · simp [strike_of_not_last h]

theorem strike_count (p : Peeling) (item j : Nat) :
    (p.strike item).count j = p.count j - if item = j then 1 else 0 := by
  have hcounts : (p.strike item).counts = p.counts.set item (p.count item - 1) := by
    by_cases h : p.count item - 1 = 0
    · rw [strike_of_last h, h]
    · rw [strike_of_not_last h]
  rw [Peeling.count, hcounts, List.getD_eq_getElem?_getD, List.getElem?_set]
  by_cases hj : item = j
  · subst hj
    by_cases hlt : item < p.counts.length
    · simp [hlt]
    · simp [hlt, Peeling.count]
  · simp [hj, Peeling.count]

theorem foldl_strike_count (items : List Nat) (p : Peeling) (j : Nat) :
    (items.foldl Peeling.strike p).count j = p.count j - items.count j := by
  induction items generalizing p with
  | nil => simp
  | cons item items ih =>
      simp only [List.foldl_cons, ih, strike_count, List.count_cons, beq_iff_eq]
      omega

theorem foldl_strike_ranks_length (items : List Nat) (p : Peeling) :
    (items.foldl Peeling.strike p).ranks.length = p.ranks.length := by
  induction items generalizing p with
  | nil => rfl
  | cons item items ih => rw [List.foldl_cons, ih, strike_ranks_length]

/-- No count is too small for a number of strikes. -/
def Affordable (p : Peeling) (items : List Nat) : Prop :=
  ∀ j, items.count j ≤ p.count j

theorem Affordable.head_pos {p : Peeling} {item : Nat} {items : List Nat}
    (h : Affordable p (item :: items)) : 0 < p.count item := by
  have := h item
  rw [List.count_cons_self] at this
  omega

theorem Affordable.tail {p : Peeling} {item : Nat} {items : List Nat}
    (h : Affordable p (item :: items)) : Affordable (p.strike item) items := by
  intro j
  have := h j
  simp only [List.count_cons, beq_iff_eq] at this
  rw [strike_count]
  omega

/-- No strike in a row of them meets a count of zero. -/
def NeverOverdrawn (p : Peeling) (items : List Nat) : Prop :=
  ∀ before item after, items = before ++ item :: after →
    0 < (before.foldl Peeling.strike p).count item

theorem Affordable.neverOverdrawn {p : Peeling} {items : List Nat} (h : Affordable p items) :
    NeverOverdrawn p items := by
  intro before item after heq
  subst heq
  induction before generalizing p with
  | nil => exact h.head_pos
  | cons first before ih => exact ih h.tail

def UsedUp (p : Peeling) (items : List Nat) (j : Nat) : Prop :=
  j ∈ items ∧ items.count j = p.count j

theorem usedUp_cons_iff {p : Peeling} {item : Nat} {items : List Nat}
    (h : Affordable p (item :: items)) (j : Nat) :
    UsedUp p (item :: items) j ↔
      j = item ∧ p.count item - 1 = 0 ∨ UsedUp (p.strike item) items j := by
  have hj := h j
  have hpos := h.head_pos
  simp only [UsedUp, strike_count, List.count_cons, beq_iff_eq, ← List.one_le_count_iff] at hj ⊢
  by_cases heq : item = j
  · subst heq
    simp only [↓reduceIte, true_and] at hj ⊢
    omega
  · simp only [if_neg heq] at hj ⊢
    omega

theorem mem_foldl_strike_freed {items : List Nat} {p : Peeling} (h : Affordable p items)
    (j : Nat) :
    j ∈ (items.foldl Peeling.strike p).freed ↔ j ∈ p.freed ∨ UsedUp p items j := by
  induction items generalizing p with
  | nil => simp [UsedUp]
  | cons item items ih =>
      rw [List.foldl_cons, ih h.tail, usedUp_cons_iff h]
      by_cases hlast : p.count item - 1 = 0
      · simp [strike_of_last hlast, hlast, or_assoc]
      · simp [strike_of_not_last hlast, hlast]

theorem nodup_foldl_strike_freed {items : List Nat} {p : Peeling} (h : Affordable p items)
    (hnodup : p.freed.Nodup) (hzero : ∀ j ∈ p.freed, p.count j = 0) :
    (items.foldl Peeling.strike p).freed.Nodup := by
  induction items generalizing p with
  | nil => exact hnodup
  | cons item items ih =>
      have hpos := h.head_pos
      have hnew : item ∉ p.freed := fun hmem => by
        have := hzero item hmem
        omega
      apply ih h.tail
      · by_cases hlast : p.count item - 1 = 0
        · simp only [strike_of_last hlast]
          exact List.Nodup.append hnodup (by simp) (by simpa using hnew)
        · simpa only [strike_of_not_last hlast] using hnodup
      · intro j hj
        rw [strike_count]
        by_cases hlast : p.count item - 1 = 0
        · simp only [strike_of_last hlast, List.mem_append, List.mem_singleton] at hj
          rcases hj with hj | rfl
          · simp [hzero j hj]
          · simpa using hlast
        · simp only [strike_of_not_last hlast] at hj
          simp [hzero j hj]

theorem foldl_strike_rank {items : List Nat} {p : Peeling} (h : Affordable p items) {j : Nat}
    (hj : j < p.ranks.length) :
    (UsedUp p items j →
        (items.foldl Peeling.strike p).ranks.getD j 0 = p.fronts.length + 1) ∧
      (¬UsedUp p items j →
        (items.foldl Peeling.strike p).ranks.getD j 0 = p.ranks.getD j 0) := by
  induction items generalizing p with
  | nil => simp [UsedUp]
  | cons item items ih =>
      have hrest := ih h.tail (by rwa [strike_ranks_length])
      rw [strike_fronts] at hrest
      rw [List.foldl_cons, usedUp_cons_iff h]
      by_cases hlast : p.count item - 1 = 0
      · -- A used up item is struck no more, so that its rank stays.
        have hranks : (p.strike item).ranks.getD j 0 =
            if item = j then p.fronts.length + 1 else p.ranks.getD j 0 := by
          rw [strike_of_last hlast, List.getD_eq_getElem?_getD, List.getElem?_set]
          by_cases heq : item = j
          · simp [heq, hj]
          · simp [heq]
        grind
      · have hranks : (p.strike item).ranks = p.ranks := by rw [strike_of_not_last hlast]
        rw [hranks] at hrest
        simpa [hlast] using hrest

def Above (ledger : Ledger) (i j : Nat) : Prop :=
  j ∈ ledger.row i

/-- The items below `n` that are in none of some fronts. -/
def remaining (n : Nat) (fronts : List (List Nat)) : List Nat :=
  (List.range n).filter fun i => i ∉ fronts.flatten

theorem mem_remaining_iff {n : Nat} {fronts : List (List Nat)} {i : Nat} :
    i ∈ remaining n fronts ↔ i < n ∧ i ∉ fronts.flatten := by
  simp [remaining]

theorem nodup_remaining (n : Nat) (fronts : List (List Nat)) : (remaining n fronts).Nodup :=
  List.nodup_range.filter _

/-- A ledger about items below `n`. -/
structure Bounded (n : Nat) (ledger : Ledger) : Prop where
  lt_of_mem_row : ∀ i j, j ∈ ledger.row i → i < n ∧ j < n
  count_eq : ∀ j, ledger.counts.getD j 0 = ((List.range n).flatMap ledger.row).count j

/-- What holds between two rounds. -/
structure Peeled (n : Nat) (ledger : Ledger) (p : Peeling) : Prop where
  count_eq : ∀ j, p.count j = ((remaining n p.fronts).flatMap ledger.row).count j
  mem_current_iff : ∀ j, j ∈ p.current ↔ j < n ∧ j ∉ p.fronts.flatten ∧ p.count j = 0
  current_ascending : p.current.Pairwise (· < ·)
  taken : ∀ j ∈ p.fronts.flatten, j < n ∧ p.count j = 0
  front_ne_nil : ∀ front ∈ p.fronts, front ≠ []
  front_ascending : ∀ front ∈ p.fronts, front.Pairwise (· < ·)
  nodup : p.fronts.flatten.Nodup
  freed_eq_nil : p.freed = []
  ranks_length : p.ranks.length = n
  placed : ∀ k front, (p.fronts ++ [p.current])[k]? = some front → ∀ j ∈ front,
    LongestChain (Above ledger) k j ∧ p.ranks.getD j 0 = k
  rank_eq_zero : ∀ j, j ∉ (p.fronts ++ [p.current]).flatten → p.ranks.getD j 0 = 0

section Round

variable {n : Nat} {ledger : Ledger} {p : Peeling}

theorem Peeled.lt_of_mem (h : Peeled n ledger p) {j : Nat}
    (hj : j ∈ (p.fronts ++ [p.current]).flatten) : j < n ∧ p.count j = 0 := by
  simp only [List.flatten_append, List.flatten_singleton, List.mem_append] at hj
  rcases hj with hj | hj
  · exact h.taken j hj
  · have := (h.mem_current_iff j).mp hj
    exact ⟨this.1, this.2.2⟩

theorem Peeled.remaining_perm (h : Peeled n ledger p) :
    (remaining n p.fronts).Perm (p.current ++ remaining n (p.fronts ++ [p.current])) := by
  have hcurrent : p.current.Nodup := h.current_ascending.imp Nat.ne_of_lt
  have hdisjoint : p.current.Disjoint (remaining n (p.fronts ++ [p.current])) := by
    intro j hj hrest
    simp [mem_remaining_iff, hj] at hrest
  refine (List.perm_ext_iff_of_nodup (nodup_remaining _ _)
    (hcurrent.append (nodup_remaining _ _) hdisjoint)).mpr fun j => ?_
  have := h.mem_current_iff j
  simp only [mem_remaining_iff, List.flatten_append, List.flatten_singleton, List.mem_append]
  tauto

theorem Peeled.count_split (h : Peeled n ledger p) (j : Nat) :
    p.count j = (p.strikes ledger).count j +
      ((remaining n (p.fronts ++ [p.current])).flatMap ledger.row).count j := by
  rw [h.count_eq, (h.remaining_perm.flatMap_right ledger.row).count_eq, List.flatMap_append,
    List.count_append, Peeling.strikes]

theorem Peeled.affordable (h : Peeled n ledger p) : Affordable p (p.strikes ledger) := by
  intro j
  have := h.count_split j
  omega

theorem round_count (j : Nat) :
    (p.round ledger).count j = p.count j - (p.strikes ledger).count j :=
  foldl_strike_count (p.strikes ledger) p j

theorem Peeled.usedUp_iff (h : Peeled n ledger p) (hledger : Bounded n ledger) (j : Nat) :
    UsedUp p (p.strikes ledger) j ↔
      j < n ∧ j ∉ (p.fronts ++ [p.current]).flatten ∧ (p.round ledger).count j = 0 := by
  have hle := h.affordable j
  rw [round_count, UsedUp]
  constructor
  · rintro ⟨hmem, hcount⟩
    obtain ⟨i, -, hrow⟩ := List.mem_flatMap.mp hmem
    have hpos := List.count_pos_iff.mpr hmem
    refine ⟨(hledger.lt_of_mem_row i j hrow).2, fun hplaced => ?_, by omega⟩
    have := (h.lt_of_mem hplaced).2
    omega
  · rintro ⟨hj, hplaced, hcount⟩
    have hpos : p.count j ≠ 0 := fun hzero => hplaced (by
      by_cases htaken : j ∈ p.fronts.flatten
      · simp [htaken]
      · simp [(h.mem_current_iff j).mpr ⟨hj, htaken, hzero⟩])
    exact ⟨List.count_pos_iff.mp (by omega), by omega⟩

theorem Peeled.mem_round_current (h : Peeled n ledger p) (j : Nat) :
    j ∈ (p.round ledger).current ↔ UsedUp p (p.strikes ledger) j := by
  change j ∈ List.mergeSort _ ↔ _
  rw [List.mem_mergeSort, mem_foldl_strike_freed h.affordable, h.freed_eq_nil]
  simp

/-- An item stands in the front after the current one if the current front holds items above it and
no item above it is left. -/
theorem Peeled.longestChain_succ (h : Peeled n ledger p) (hledger : Bounded n ledger) {j : Nat}
    (hj : UsedUp p (p.strikes ledger) j) :
    LongestChain (Above ledger) (p.fronts.length + 1) j := by
  apply Chains.longestChain_succ
  · intro i hi
    have hplaced : i ∈ (p.fronts ++ [p.current]).flatten := by
      by_contra hleft
      have hrest : i ∈ remaining n (p.fronts ++ [p.current]) :=
        mem_remaining_iff.mpr ⟨(hledger.lt_of_mem_row i j hi).1, hleft⟩
      have hpos := List.count_pos_iff.mpr (List.mem_flatMap.mpr ⟨i, hrest, hi⟩)
      have := h.count_split j
      have := hj.2
      omega
    obtain ⟨front, hfront, hi⟩ := List.mem_flatten.mp hplaced
    obtain ⟨k, hk⟩ := List.mem_iff_getElem?.mp hfront
    have hlt : k < (p.fronts ++ [p.current]).length := (List.getElem?_eq_some_iff.mp hk).1
    rw [List.length_append, List.length_singleton] at hlt
    exact ⟨k, by omega, (h.placed k front hk i hi).1⟩
  · obtain ⟨i, hi, hrow⟩ := List.mem_flatMap.mp hj.1
    exact ⟨i, hrow, (h.placed _ p.current (by simp) i hi).1⟩

theorem round_fronts : (p.round ledger).fronts = p.fronts ++ [p.current] :=
  rfl

theorem Peeled.round_ranks_length (h : Peeled n ledger p) : (p.round ledger).ranks.length = n :=
  (foldl_strike_ranks_length _ p).trans h.ranks_length

theorem Peeled.round_rank_of_usedUp (h : Peeled n ledger p) (hledger : Bounded n ledger) {j : Nat}
    (hused : UsedUp p (p.strikes ledger) j) :
    (p.round ledger).ranks.getD j 0 = p.fronts.length + 1 := by
  have hj : j < p.ranks.length := h.ranks_length.symm ▸ ((h.usedUp_iff hledger j).mp hused).1
  exact (foldl_strike_rank h.affordable hj).1 hused

theorem Peeled.round_rank_of_not_usedUp (h : Peeled n ledger p) {j : Nat}
    (hkept : ¬UsedUp p (p.strikes ledger) j) :
    (p.round ledger).ranks.getD j 0 = p.ranks.getD j 0 := by
  rcases Nat.lt_or_ge j n with hj | hj
  · exact (foldl_strike_rank h.affordable (h.ranks_length.symm ▸ hj)).2 hkept
  · have hlength := h.round_ranks_length
    simp [hlength, h.ranks_length, hj]

theorem Peeled.round_current_ascending (h : Peeled n ledger p) :
    (p.round ledger).current.Pairwise (· < ·) := by
  have hfreed := nodup_foldl_strike_freed h.affordable (by simp [h.freed_eq_nil])
    (by simp [h.freed_eq_nil])
  have hperm := List.mergeSort_perm ((p.strikes ledger).foldl Peeling.strike p).freed (· ≤ ·)
  have hsorted : (p.round ledger).current.Pairwise (· ≤ ·) :=
    List.pairwise_mergeSort' (· ≤ ·) _
  exact hsorted.imp₂ (fun _ _ hle hne => Nat.lt_of_le_of_ne hle hne) (hperm.nodup_iff.mpr hfreed)

theorem Peeled.round_placed (h : Peeled n ledger p) (hledger : Bounded n ledger) {k : Nat}
    {front : List Nat}
    (hk : ((p.round ledger).fronts ++ [(p.round ledger).current])[k]? = some front) {j : Nat}
    (hj : j ∈ front) :
    LongestChain (Above ledger) k j ∧ (p.round ledger).ranks.getD j 0 = k := by
  rw [round_fronts] at hk
  rcases Nat.lt_or_ge k (p.fronts ++ [p.current]).length with hlt | hge
  · rw [List.getElem?_append_left hlt] at hk
    have hplaced : j ∈ (p.fronts ++ [p.current]).flatten :=
      List.mem_flatten.mpr ⟨front, List.mem_iff_getElem?.mpr ⟨k, hk⟩, hj⟩
    obtain ⟨hlongest, hrank⟩ := h.placed k front hk j hj
    refine ⟨hlongest, (h.round_rank_of_not_usedUp ?_).trans hrank⟩
    intro hused
    exact ((h.usedUp_iff hledger j).mp hused).2.1 hplaced
  · have hlt := (List.getElem?_eq_some_iff.mp hk).1
    simp only [List.length_append, List.length_singleton] at hlt hge
    obtain rfl : k = p.fronts.length + 1 := by omega
    have hcurrent : (p.round ledger).current = front := by simpa using hk
    have hused := (h.mem_round_current j).mp (hcurrent ▸ hj)
    exact ⟨h.longestChain_succ hledger hused, h.round_rank_of_usedUp hledger hused⟩

theorem peeled_round (h : Peeled n ledger p) (hledger : Bounded n ledger)
    (hcurrent : p.current ≠ []) : Peeled n ledger (p.round ledger) := by
  constructor
  case count_eq =>
    intro j
    have := h.count_split j
    rw [round_count, round_fronts]
    omega
  case mem_current_iff =>
    intro j
    rw [h.mem_round_current, h.usedUp_iff hledger, round_fronts]
  case current_ascending => exact h.round_current_ascending
  case taken =>
    intro j hj
    have := h.lt_of_mem hj
    rw [round_count]
    omega
  case front_ne_nil =>
    intro front hfront
    rw [round_fronts, List.mem_append, List.mem_singleton] at hfront
    rcases hfront with hfront | rfl
    · exact h.front_ne_nil front hfront
    · exact hcurrent
  case front_ascending =>
    intro front hfront
    rw [round_fronts, List.mem_append, List.mem_singleton] at hfront
    rcases hfront with hfront | rfl
    · exact h.front_ascending front hfront
    · exact h.current_ascending
  case nodup =>
    have hnodup : p.current.Nodup := h.current_ascending.imp Nat.ne_of_lt
    rw [round_fronts, List.flatten_append, List.flatten_singleton]
    apply h.nodup.append hnodup
    intro j htaken hj
    exact ((h.mem_current_iff j).mp hj).2.1 htaken
  case freed_eq_nil => rfl
  case ranks_length => exact h.round_ranks_length
  case placed => exact fun _ _ hk _ hj => h.round_placed hledger hk hj
  case rank_eq_zero =>
    intro j hj
    rw [List.flatten_append, List.flatten_singleton, List.mem_append, not_or] at hj
    rw [h.round_rank_of_not_usedUp fun hused => hj.2 ((h.mem_round_current j).mpr hused)]
    exact h.rank_eq_zero j hj.1

end Round

theorem peeled_start {n : Nat} {ledger : Ledger} (hledger : Bounded n ledger) :
    Peeled n ledger (.start n ledger) where
  count_eq j := by
    simpa [remaining, Peeling.start, Peeling.count] using hledger.count_eq j
  mem_current_iff j := by simp [Peeling.start, Peeling.count]
  current_ascending := List.pairwise_lt_range.filter _
  taken := by simp [Peeling.start]
  front_ne_nil := by simp [Peeling.start]
  front_ascending := by simp [Peeling.start]
  nodup := by simp [Peeling.start]
  freed_eq_nil := rfl
  ranks_length := by simp [Peeling.start]
  placed k front hk j hj := by
    obtain ⟨rfl, rfl⟩ : k = 0 ∧ (Peeling.start n ledger).current = front := by
      cases k with
      | zero => simpa [Peeling.start] using hk
      | succ k => simp [Peeling.start] at hk
    obtain ⟨hlt, hzero⟩ : j < n ∧ ledger.counts.getD j 0 = 0 := by
      simpa [Peeling.start] using hj
    rw [hledger.count_eq, List.count_eq_zero] at hzero
    refine ⟨longestChain_zero_iff.mpr fun i hi => hzero ?_, by simp [Peeling.start, hlt]⟩
    exact List.mem_flatMap.mpr ⟨i, List.mem_range.mpr (hledger.lt_of_mem_row i j hi).1, hi⟩
  rank_eq_zero j _ := by
    rcases Nat.lt_or_ge j n with hj | hj
    · simp [Peeling.start, hj]
    · simp [Peeling.start, hj]

/-- Every round takes away an item that no other round takes away. -/
theorem peeled_peel {n : Nat} {ledger : Ledger} (hledger : Bounded n ledger) (rounds : Nat)
    {p : Peeling} (h : Peeled n ledger p) :
    Peeled n ledger (Peeling.peel ledger rounds p) ∧
      (n ≤ p.fronts.flatten.length + rounds → (Peeling.peel ledger rounds p).current = []) := by
  induction rounds generalizing p with
  | zero =>
      refine ⟨h, fun hlength => List.eq_nil_iff_forall_not_mem.mpr fun j hj => ?_⟩
      have hsubset : p.fronts.flatten ⊆ List.range n := fun i hi =>
        List.mem_range.mpr (h.taken i hi).1
      have hperm := (List.subperm_of_subset h.nodup hsubset).perm_of_length_le
        (by simpa using hlength)
      have hj := (h.mem_current_iff j).mp hj
      exact hj.2.1 (hperm.mem_iff.mpr (List.mem_range.mpr hj.1))
  | succ rounds ih =>
      rw [Peeling.peel]
      by_cases hcurrent : p.current = []
      · simp [hcurrent, h]
      · rw [if_neg (by simpa using hcurrent)]
        obtain ⟨hpeeled, hend⟩ := ih (peeled_round h hledger hcurrent)
        refine ⟨hpeeled, fun hlength => hend ?_⟩
        have hpos := List.length_pos_iff.mpr hcurrent
        have hfronts : (p.round ledger).fronts = p.fronts ++ [p.current] := rfl
        rw [hfronts, List.flatten_append, List.flatten_singleton, List.length_append]
        omega

theorem flatMap_row {n : Nat} {ledger : Ledger} (h : ledger.dominated.length = n) :
    (List.range n).flatMap ledger.row = ledger.dominated.flatten := by
  rw [List.flatMap_def]
  congr 1
  refine List.ext_getElem (by simp [h]) fun i hi _ => ?_
  rw [List.length_map, List.length_range, ← h] at hi
  simp [Ledger.row, hi]

theorem bounded_fullLedger (n : Nat) (relation : Nat → Nat → Dominance) :
    Bounded n (fullLedger n relation) where
  lt_of_mem_row i j hj := by
    rcases mem_row_fullLedger.mp hj with ⟨_, h⟩ | ⟨_, h⟩
    · omega
    · omega
  count_eq j := by
    have h := informed_fullLedger n relation
    rw [flatMap_row h.dominated_length, h.counts_eq]

theorem above_fullLedger (n : Nat) (relation : Nat → Nat → Dominance) :
    Above (fullLedger n relation) = Dominates n relation :=
  funext fun _ => funext fun _ => propext mem_row_fullLedger

def rounds (n : Nat) (relation : Nat → Nat → Dominance) (k : Nat) : Peeling :=
  Peeling.peel (fullLedger n relation) k (.start n (fullLedger n relation))

theorem peeled_rounds (n : Nat) (relation : Nat → Nat → Dominance) (k : Nat) :
    Peeled n (fullLedger n relation) (rounds n relation k) :=
  (peeled_peel (bounded_fullLedger n relation) k (peeled_start (bounded_fullLedger n relation))).1

theorem rounds_current (n : Nat) (relation : Nat → Nat → Dominance) :
    (rounds n relation n).current = [] :=
  (peeled_peel (bounded_fullLedger n relation) n
    (peeled_start (bounded_fullLedger n relation))).2 (by omega)

theorem sort_eq_rounds (n : Nat) (relation : Nat → Nat → Dominance) :
    sort n relation =
      { fronts := (rounds n relation n).fronts, ranks := (rounds n relation n).ranks } :=
  sort_eq_ofLedger n relation

/-- A ranking of the items below `n` by the longest chain of items above them. -/
structure Layered (n : Nat) (above : Nat → Nat → Prop) (ranking : Ranking) : Prop where
  front_ne_nil : ∀ front ∈ ranking.fronts, front ≠ []
  front_ascending : ∀ front ∈ ranking.fronts, front.Pairwise (· < ·)
  nodup : ranking.fronts.flatten.Nodup
  ranks_length : ranking.ranks.length = n
  mem_fronts_iff : ∀ i < n, i ∈ ranking.fronts.flatten ↔ ¬BelowCycle above i
  lt_of_mem : ∀ i ∈ ranking.fronts.flatten, i < n
  mem_front_iff : ∀ i < n, ∀ k, i ∈ ranking.fronts.getD k [] ↔ LongestChain above k i
  rank_eq_iff : ∀ i ∈ ranking.fronts.flatten, ∀ k,
    ranking.ranks.getD i 0 = k ↔ LongestChain above k i
  rank_eq_zero : ∀ i, i ∉ ranking.fronts.flatten → ranking.ranks.getD i 0 = 0

theorem rounds_placed {n k : Nat} {relation : Nat → Nat → Dominance} {front : List Nat}
    (hk : (rounds n relation n).fronts[k]? = some front) {j : Nat} (hj : j ∈ front) :
    LongestChain (Dominates n relation) k j ∧ (rounds n relation n).ranks.getD j 0 = k := by
  have hlt := (List.getElem?_eq_some_iff.mp hk).1
  rw [← above_fullLedger]
  exact (peeled_rounds n relation n).placed k front (by rwa [List.getElem?_append_left hlt]) j hj

theorem exists_front {fronts : List (List Nat)} {i : Nat} (hi : i ∈ fronts.flatten) :
    ∃ (k : Nat) (front : List Nat), fronts[k]? = some front ∧ i ∈ front := by
  obtain ⟨front, hfront, hi⟩ := List.mem_flatten.mp hi
  obtain ⟨k, hk⟩ := List.mem_iff_getElem?.mp hfront
  exact ⟨k, front, hk, hi⟩

theorem belowCycle_of_left {n : Nat} {relation : Nat → Nat → Dominance} {i : Nat} (hi : i < n)
    (hleft : i ∉ (rounds n relation n).fronts.flatten) :
    BelowCycle (Dominates n relation) i := by
  have h := peeled_rounds n relation n
  have hend := rounds_current n relation
  apply belowCycle_of_forall_exists fun j => j ∈ remaining n (rounds n relation n).fronts
  · intro j hj
    exact (mem_remaining_iff.mp hj).1
  · intro j hj
    have hj := mem_remaining_iff.mp hj
    -- It has a count, because the last front is empty.
    have hpos : (rounds n relation n).count j ≠ 0 := fun hzero => by
      have := (h.mem_current_iff j).mpr ⟨hj.1, hj.2, hzero⟩
      simp [hend] at this
    rw [h.count_eq, Ne, List.count_eq_zero, not_not, List.mem_flatMap] at hpos
    obtain ⟨x, hx, hrow⟩ := hpos
    exact ⟨x, hx, mem_row_fullLedger.mp hrow⟩
  · exact mem_remaining_iff.mpr ⟨hi, hleft⟩

theorem layered_sort (n : Nat) (relation : Nat → Nat → Dominance) :
    Layered n (Dominates n relation) (sort n relation) := by
  have h := peeled_rounds n relation n
  rw [sort_eq_rounds]
  constructor
  case front_ne_nil => exact h.front_ne_nil
  case front_ascending => exact h.front_ascending
  case nodup => exact h.nodup
  case ranks_length => exact h.ranks_length
  case lt_of_mem => exact fun i hi => (h.taken i hi).1
  case mem_fronts_iff =>
    intro i hi
    constructor
    · intro hplace
      obtain ⟨k, front, hk, hfront⟩ := exists_front hplace
      exact not_belowCycle_of_longestChain (rounds_placed hk hfront).1
    · intro hacyclic
      by_contra hleft
      exact hacyclic (belowCycle_of_left hi hleft)
  case mem_front_iff =>
    intro i hi k
    rw [List.getD_eq_getElem?_getD]
    constructor
    · intro hfront
      cases hk : (rounds n relation n).fronts[k]? with
      | none => simp [hk] at hfront
      | some front => exact (rounds_placed hk (by simpa [hk] using hfront)).1
    · intro hlongest
      have hplace : i ∈ (rounds n relation n).fronts.flatten := by
        by_contra hleft
        exact not_belowCycle_of_longestChain hlongest (belowCycle_of_left hi hleft)
      obtain ⟨m, front, hm, hfront⟩ := exists_front hplace
      obtain rfl := (rounds_placed hm hfront).1.unique hlongest
      simpa [hm] using hfront
  case rank_eq_iff =>
    intro i hi k
    obtain ⟨m, front, hm, hfront⟩ := exists_front hi
    obtain ⟨hlongest, hrank⟩ := rounds_placed hm hfront
    rw [hrank]
    exact ⟨fun heq => heq ▸ hlongest, fun hk => hlongest.unique hk⟩
  case rank_eq_zero =>
    intro i hi
    apply h.rank_eq_zero i
    simpa [rounds_current] using hi

theorem Layered.rank_lt {n : Nat} {above : Nat → Nat → Prop} {ranking : Ranking}
    (h : Layered n above ranking) (hbound : ∀ i j, above i j → i < n) {i j : Nat}
    (hj : j ∈ ranking.fronts.flatten) (hij : above i j) :
    i ∈ ranking.fronts.flatten ∧ ranking.ranks.getD i 0 < ranking.ranks.getD j 0 := by
  have hacyclic := (h.mem_fronts_iff j (h.lt_of_mem j hj)).mp hj
  have hi : i ∈ ranking.fronts.flatten := by
    refine (h.mem_fronts_iff i (hbound i j hij)).mpr fun hcycle => hacyclic ?_
    obtain ⟨c, hpath, hcycle⟩ := hcycle
    exact ⟨c, hpath.tail hij, hcycle⟩
  have hchain := ((h.rank_eq_iff i hi _).mp rfl).1
  exact ⟨hi, ((h.rank_eq_iff j hj _).mp rfl).2 _ (.step hchain hij)⟩

theorem Layered.exists_rank_succ {n : Nat} {above : Nat → Nat → Prop} {ranking : Ranking}
    (h : Layered n above ranking) (hbound : ∀ i j, above i j → i < n) {j : Nat}
    (hj : j ∈ ranking.fronts.flatten) (hrank : ranking.ranks.getD j 0 ≠ 0) :
    ∃ i, above i j ∧ ranking.ranks.getD i 0 + 1 = ranking.ranks.getD j 0 := by
  obtain ⟨hchain, -⟩ := (h.rank_eq_iff j hj _).mp rfl
  generalize hk : ranking.ranks.getD j 0 = k at hchain hrank
  cases hchain with
  | start => exact absurd rfl hrank
  | @step k i _ hchain hij =>
      obtain ⟨hi, hlt⟩ := h.rank_lt hbound hj hij
      have hle := ((h.rank_eq_iff i hi _).mp rfl).2 k hchain
      exact ⟨i, hij, by omega⟩

/-- Sorting the items below `n` asks about each ascending pair once, never lowers a count that is
zero, stops because no item is free, and places the items by the longest chains above them. -/
theorem sort_layers_by_longest_chain (n : Nat) (relation : Nat → Nat → Dominance) :
    sortM n (asking relation) [] = (sort n relation, pairs n) ∧
      (∀ i j, (pairs n).count (i, j) = if i < j ∧ j < n then 1 else 0) ∧
      sort n relation =
        { fronts := (rounds n relation n).fronts, ranks := (rounds n relation n).ranks } ∧
      (rounds n relation n).current = [] ∧
      (∀ k, NeverOverdrawn (rounds n relation k)
        ((rounds n relation k).strikes (fullLedger n relation))) ∧
      Layered n (Dominates n relation) (sort n relation) ∧
      ∀ j ∈ (sort n relation).fronts.flatten,
        ((sort n relation).ranks.getD j 0 = 0 ↔ ∀ i, ¬Dominates n relation i j) ∧
        (∀ i, Dominates n relation i j →
          (sort n relation).ranks.getD i 0 < (sort n relation).ranks.getD j 0) ∧
        ((sort n relation).ranks.getD j 0 ≠ 0 → ∃ i, Dominates n relation i j ∧
          (sort n relation).ranks.getD i 0 + 1 = (sort n relation).ranks.getD j 0) := by
  have hlayered := layered_sort n relation
  have hbound : ∀ i j, Dominates n relation i j → i < n := by
    rintro i j (⟨-, h⟩ | ⟨-, h⟩)
    · omega
    · omega
  refine ⟨sortM_asking n relation, fun i j => ?_, sort_eq_rounds n relation,
    rounds_current n relation, fun k => (peeled_rounds n relation k).affordable.neverOverdrawn,
    hlayered, fun j hj => ?_⟩
  · simp only [(nodup_pairs n).count, mem_pairs_iff]
  · refine ⟨?_, fun i hi => (hlayered.rank_lt hbound hj hi).2,
      hlayered.exists_rank_succ hbound hj⟩
    rw [hlayered.rank_eq_iff j hj, longestChain_zero_iff]

end Archipelago.Proofs.Layering
