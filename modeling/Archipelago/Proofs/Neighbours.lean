import Archipelago.Binary64
import Archipelago.Proofs.CrowdingDistances
import Mathlib.Data.List.Infix
import Mathlib.Data.List.Nodup

/-!
The distance of a slot depends on its neighbours only, objective by objective.  Which slots these
are is a matter of the values and, among equal ones, of the objectives before.
-/

namespace Archipelago.Proofs.Neighbours

/-- The total order of the numbers is transitive and total. -/
class LawfulExtended (α : Type) [Extended α] : Prop where
  totalLe_trans : ∀ a b c : α, Extended.totalLe a b → Extended.totalLe b c → Extended.totalLe a c
  totalLe_total : ∀ a b : α, Extended.totalLe a b || Extended.totalLe b a

instance : LawfulExtended Binary64 where
  totalLe_trans a b c hab hbc :=
    decide_eq_true (Int.le_trans (of_decide_eq_true hab) (of_decide_eq_true hbc))
  totalLe_total a b := by
    simp only [Extended.totalLe, Bool.or_eq_true, decide_eq_true_eq]
    exact Int.le_total _ _

section Doubles

variable {x y : Binary64}

theorem le_of_totalLe (hx : x.isNaN = false) (hy : y.isNaN = false)
    (h : Extended.totalLe x y = true) : x ≤ y := by
  refine ⟨hx, hy, ?_⟩
  have hposition : x.position ≤ y.position := of_decide_eq_true h
  simp only [Binary64.position, Binary64.signed] at hposition ⊢
  split_ifs at hposition ⊢ <;> omega

theorem totalLe_of_lt (h : x < y) :
    Extended.totalLe x y = true ∧ Extended.totalLe y x = false := by
  have hsigned : x.signed < y.signed := h.2.2
  have hposition : x.position < y.position := by
    simp only [Binary64.position, Binary64.signed] at hsigned ⊢
    split_ifs at hsigned ⊢ <;> omega
  exact ⟨decide_eq_true (Int.le_of_lt hposition), decide_eq_false (Int.not_le.mpr hposition)⟩

end Doubles

section Widening

variable {α : Type} [Scalar α] {value : Nat → α} {span : α} {slot : Nat}

theorem widen_outside {order : List Nat} {distances : List α} (h : slot ∉ order.tail.dropLast) :
    (Crowding.widen value span order distances)[slot]? = distances[slot]? := by
  fun_induction Crowding.widen value span order distances with
  | case1 before other after rest distances ih =>
      rw [List.tail_cons, List.dropLast_cons_cons, List.mem_cons, not_or] at h
      rw [ih h.2, List.getElem?_modify_ne _ _ (Ne.symm h.1)]
  | case2 => rfl

theorem not_mem_inner {order : List Nat} (hnodup : order.Nodup)
    (h : order.headD 0 = slot ∨ order.getLastD 0 = slot) : slot ∉ order.tail.dropLast := by
  intro hmem
  rcases h with rfl | rfl
  · match order with
    | low :: rest => exact (List.nodup_cons.mp hnodup).1 (List.mem_of_mem_dropLast hmem)
  · rcases List.eq_nil_or_concat' order with rfl | ⟨start, high, rfl⟩
    · simp at hmem
    · rw [← List.tail_dropLast, List.dropLast_concat, List.getLastD_concat] at hmem
      exact List.disjoint_of_nodup_append hnodup (List.mem_of_mem_tail hmem) (by simp)

theorem exists_widen_cons (value : Nat → α) (span : α) (first : Nat) {order : List Nat}
    (distances : List α) (h : order.head? ≠ some slot) :
    ∃ left : List α, left[slot]? = distances[slot]? ∧
      Crowding.widen value span (first :: order) distances =
        Crowding.widen value span order left := by
  match order with
  | [] | [_] => exact ⟨distances, rfl, rfl⟩
  | other :: after :: rest =>
      have hne : other ≠ slot := fun heq => h (congrArg some heq)
      rw [Crowding.widen]
      exact ⟨_, List.getElem?_modify_ne _ _ hne, rfl⟩

theorem widen_inside {front rest : List Nat} {before after : Nat} {distances : List α}
    (hnodup : (front ++ before :: slot :: after :: rest).Nodup) :
    (Crowding.widen value span (front ++ before :: slot :: after :: rest) distances)[slot]? =
      distances[slot]?.map (· + (value after - value before) / span) := by
  induction front generalizing distances with
  | nil =>
      have houtside : slot ∉ (slot :: after :: rest).tail.dropLast :=
        not_mem_inner hnodup.of_cons (.inl rfl)
      rw [List.nil_append, Crowding.widen, widen_outside houtside, List.getElem?_modify_eq]
      rfl
  | cons first front ih =>
      rw [List.cons_append] at hnodup ⊢
      have hhead : (front ++ before :: slot :: after :: rest).head? ≠ some slot := by
        rintro hhead
        rcases front with - | ⟨second, front⟩
        · simp_all
        · simp_all
      obtain ⟨left, hleft, hwiden⟩ := exists_widen_cons value span first distances hhead
      rw [hwiden, ih hnodup.of_cons, hleft]

end Widening

variable {α : Type} [Scalar α] [Extended α]

/-- The value of one objective in a slot of the front. -/
def value (front : List (List α)) (objective slot : Nat) : α :=
  (front.getD slot []).getD objective 0

/-- The order of the slots by the last one of some objectives, by the ones before it where values
are equal, and by the slots themselves at last. -/
def Precedes (front : List (List α)) : (objectives : Nat) → (a b : Nat) → Prop
  | 0, a, b => a < b
  | objective + 1, a, b =>
    Extended.totalLe (value front objective a) (value front objective b) ∧
      (Extended.totalLe (value front objective b) (value front objective a) →
        Precedes front objective a b)

instance decidablePrecedes (front : List (List α)) :
    ∀ objectives a b, Decidable (Precedes front objectives a b)
  | 0, a, b => inferInstanceAs (Decidable (a < b))
  | objective + 1, a, b =>
    have := decidablePrecedes front objective a b
    inferInstanceAs (Decidable (_ ∧ (_ → _)))

section Order

variable {front : List (List α)} {k a b c : Nat}

theorem not_precedes_self : ¬Precedes front k a a := by
  induction k with
  | zero => exact Nat.lt_irrefl a
  | succ k ih => exact fun ⟨hle, h⟩ => ih (h hle)

variable [LawfulExtended α]

open LawfulExtended

theorem Precedes.trans (hab : Precedes front k a b) (hbc : Precedes front k b c) :
    Precedes front k a c := by
  induction k with
  | zero => exact Nat.lt_trans hab hbc
  | succ k ih =>
      refine ⟨totalLe_trans _ _ _ hab.1 hbc.1, fun hca => ih ?_ ?_⟩
      · exact hab.2 (totalLe_trans _ _ _ hbc.1 hca)
      · exact hbc.2 (totalLe_trans _ _ _ hca hab.1)

theorem Precedes.asymm (hab : Precedes front k a b) : ¬Precedes front k b a :=
  fun hba => not_precedes_self (hab.trans hba)

theorem precedes_or (h : a ≠ b) : Precedes front k a b ∨ Precedes front k b a := by
  induction k with
  | zero => exact Nat.lt_or_gt_of_ne h
  | succ k ih =>
      have htotal := totalLe_total (value front k a) (value front k b)
      rw [Bool.or_eq_true] at htotal
      by_cases hab : Extended.totalLe (value front k a) (value front k b) = true
      · by_cases hba : Extended.totalLe (value front k b) (value front k a) = true
        · exact ih.imp (⟨hab, fun _ => ·⟩) (⟨hba, fun _ => ·⟩)
        · exact .inl ⟨hab, fun h => absurd h hba⟩
      · exact .inr ⟨htotal.resolve_left hab, fun h => absurd h hab⟩

end Order

/-- No slot is before this one. -/
def First (front : List (List α)) (objectives slot : Nat) : Prop :=
  slot < front.length ∧ ∀ other < front.length, ¬Precedes front objectives other slot

/-- No slot is behind this one. -/
def Last (front : List (List α)) (objectives slot : Nat) : Prop :=
  slot < front.length ∧ ∀ other < front.length, ¬Precedes front objectives slot other

/-- The first slot comes right before the second one. -/
structure Follows (front : List (List α)) (objectives a b : Nat) : Prop where
  left : a < front.length
  right : b < front.length
  precedes : Precedes front objectives a b
  directly : ∀ c < front.length, ¬(Precedes front objectives a c ∧ Precedes front objectives c b)

instance (front : List (List α)) (objectives slot : Nat) :
    Decidable (First front objectives slot) :=
  inferInstanceAs (Decidable (_ ∧ _))

instance (front : List (List α)) (objectives slot : Nat) :
    Decidable (Last front objectives slot) :=
  inferInstanceAs (Decidable (_ ∧ _))

instance (front : List (List α)) (objectives a b : Nat) :
    Decidable (Follows front objectives a b) :=
  decidable_of_iff (a < front.length ∧ b < front.length ∧ Precedes front objectives a b ∧
      ∀ c < front.length, ¬(Precedes front objectives a c ∧ Precedes front objectives c b))
    ⟨fun ⟨hleft, hright, hprecedes, hdirectly⟩ => ⟨hleft, hright, hprecedes, hdirectly⟩,
      fun h => ⟨h.left, h.right, h.precedes, h.directly⟩⟩

/-- All slots of a front in the order by some objectives. -/
structure Sorted (front : List (List α)) (objectives : Nat) (order : List Nat) : Prop where
  perm : order.Perm (List.range front.length)
  pairwise : order.Pairwise (Precedes front objectives)

section Sorting

variable {front : List (List α)} {k slot : Nat} {order : List Nat}

theorem sorted_range (front : List (List α)) : Sorted front 0 (List.range front.length) :=
  ⟨List.Perm.refl _, List.pairwise_lt_range⟩

theorem Sorted.mem_iff (h : Sorted front k order) : slot ∈ order ↔ slot < front.length := by
  rw [h.perm.mem_iff, List.mem_range]

theorem Sorted.nodup (h : Sorted front k order) : order.Nodup :=
  h.perm.nodup_iff.mpr List.nodup_range

theorem Sorted.length (h : Sorted front k order) : order.length = front.length := by
  rw [h.perm.length_eq, List.length_range]

theorem not_sublist_swap {a b : Nat} (hnodup : order.Nodup) (hab : [a, b].Sublist order) :
    ¬[b, a].Sublist order := by
  intro hba
  obtain ⟨start, rest, rfl, ha, hb⟩ := List.cons_sublist_iff.mp hab
  have hdisjoint := List.disjoint_of_nodup_append hnodup
  rw [List.singleton_sublist] at hb
  obtain ⟨left, right, heq, hleft, hright⟩ := List.sublist_append_iff.mp hba
  match left with
  | [] =>
      rw [List.nil_append] at heq
      exact hdisjoint ha (hright.subset (by simp [← heq]))
  | first :: left =>
      obtain ⟨rfl, -⟩ := List.cons.inj heq
      exact hdisjoint (hleft.subset List.mem_cons_self) hb

variable [LawfulExtended α]

theorem Sorted.sublist (h : Sorted front k order) {a b : Nat} (ha : a ∈ order) (hb : b ∈ order)
    (hab : Precedes front k a b) : [a, b].Sublist order := by
  have hne : a ≠ b := fun heq => not_precedes_self (heq ▸ hab)
  obtain ⟨before, after, rfl⟩ := List.append_of_mem ha
  rcases List.mem_append.mp hb with hbefore | hafter
  · have hba := (List.pairwise_append.mp h.pairwise).2.2 b hbefore a List.mem_cons_self
    exact absurd hba hab.asymm
  · have hmem := (List.mem_cons.mp hafter).resolve_left hne.symm
    exact ((List.singleton_sublist.mpr hmem).cons_cons a).trans (List.sublist_append_right _ _)

/-- Sorting by one more objective keeps the order of the slots with equal values. -/
theorem Sorted.mergeSort (h : Sorted front k order) :
    Sorted front (k + 1)
      (order.mergeSort fun a b => Extended.totalLe (value front k a) (value front k b)) := by
  have htrans : ∀ a b c : Nat, Extended.totalLe (value front k a) (value front k b) →
      Extended.totalLe (value front k b) (value front k c) →
        Extended.totalLe (value front k a) (value front k c) :=
    fun a b c => LawfulExtended.totalLe_trans _ _ _
  have htotal : ∀ a b : Nat, Extended.totalLe (value front k a) (value front k b) ||
      Extended.totalLe (value front k b) (value front k a) :=
    fun a b => LawfulExtended.totalLe_total _ _
  have hperm := List.mergeSort_perm order
    fun a b => Extended.totalLe (value front k a) (value front k b)
  have hnodup := hperm.nodup_iff.mpr h.nodup
  refine ⟨hperm.trans h.perm, List.pairwise_iff_forall_sublist.mpr fun {a b} hab => ⟨?_, ?_⟩⟩
  · exact List.pairwise_iff_forall_sublist.mp (List.pairwise_mergeSort htrans htotal order) hab
  · intro hba
    have ha : a ∈ order := hperm.mem_iff.mp (hab.subset (by simp))
    have hb : b ∈ order := hperm.mem_iff.mp (hab.subset (by simp))
    have hne : a ≠ b := by
      rintro rfl
      have := hnodup.sublist hab
      simp at this
    refine (precedes_or hne).resolve_right fun hprecedes => ?_
    exact not_sublist_swap hnodup hab
      (List.pair_sublist_mergeSort htrans htotal hba (h.sublist hb ha hprecedes))

theorem Sorted.first {rest : List Nat} (h : Sorted front k (slot :: rest)) :
    First front k slot := by
  refine ⟨h.mem_iff.mp List.mem_cons_self, fun other hother hprecedes => ?_⟩
  rcases List.mem_cons.mp (h.mem_iff.mpr hother) with rfl | hmem
  · exact not_precedes_self hprecedes
  · exact hprecedes.asymm ((List.pairwise_cons.mp h.pairwise).1 other hmem)

theorem Sorted.last {rest : List Nat} (h : Sorted front k (rest ++ [slot])) :
    Last front k slot := by
  refine ⟨h.mem_iff.mp (by simp), fun other hother hprecedes => ?_⟩
  rcases List.mem_append.mp (h.mem_iff.mpr hother) with hmem | hmem
  · exact hprecedes.asymm ((List.pairwise_append.mp h.pairwise).2.2 other hmem slot (by simp))
  · rw [List.mem_singleton.mp hmem] at hprecedes
    exact not_precedes_self hprecedes

theorem Sorted.first_headD (h : Sorted front k order) (hne : order ≠ []) :
    First front k (order.headD 0) := by
  cases order with
  | nil => contradiction
  | cons low rest => exact h.first

theorem Sorted.last_getLastD (h : Sorted front k order) (hne : order ≠ []) :
    Last front k (order.getLastD 0) := by
  rcases List.eq_nil_or_concat' order with rfl | ⟨rest, high, rfl⟩
  · contradiction
  · rw [List.getLastD_concat]
    exact h.last

theorem Sorted.follows {start rest : List Nat} {a b : Nat}
    (h : Sorted front k (start ++ a :: b :: rest)) : Follows front k a b := by
  obtain ⟨-, hpairs, hstart⟩ := List.pairwise_append.mp h.pairwise
  obtain ⟨ha, hpairs⟩ := List.pairwise_cons.mp hpairs
  have hrest := (List.pairwise_cons.mp hpairs).1
  refine ⟨h.mem_iff.mp (by simp), h.mem_iff.mp (by simp), ha b List.mem_cons_self, ?_⟩
  rintro c hc ⟨hac, hcb⟩
  have hmem := h.mem_iff.mpr hc
  rw [List.mem_append, List.mem_cons, List.mem_cons] at hmem
  rcases hmem with hmem | rfl | rfl | hmem
  · exact hac.asymm (hstart c hmem a List.mem_cons_self)
  · exact not_precedes_self hac
  · exact not_precedes_self hcb
  · exact hcb.asymm (hrest c hmem)

end Sorting

theorem Follows.not_first {front : List (List α)} {k a b : Nat} (h : Follows front k a b) :
    ¬First front k b :=
  fun hfirst => hfirst.2 a h.left h.precedes

theorem Follows.not_last {front : List (List α)} {k a b : Nat} (h : Follows front k a b) :
    ¬Last front k a :=
  fun hlast => hlast.2 b h.right h.precedes

section Places

variable [LawfulExtended α] {front : List (List α)} {k a b slot : Nat}

theorem Follows.left_unique (ha : Follows front k a slot) (hb : Follows front k b slot) :
    a = b := by
  by_contra hne
  have hor : Precedes front k a b ∨ Precedes front k b a := precedes_or hne
  rcases hor with hab | hba
  · exact ha.directly b hb.left ⟨hab, hb.precedes⟩
  · exact hb.directly a ha.left ⟨hba, ha.precedes⟩

theorem Follows.right_unique (ha : Follows front k slot a) (hb : Follows front k slot b) :
    a = b := by
  by_contra hne
  have hor : Precedes front k a b ∨ Precedes front k b a := precedes_or hne
  rcases hor with hab | hba
  · exact hb.directly a ha.right ⟨ha.precedes, hab⟩
  · exact ha.directly b hb.right ⟨hb.precedes, hba⟩

theorem Follows.two_lt (ha : Follows front k a slot) (hb : Follows front k slot b) :
    2 < front.length := by
  have hne : ∀ {a b : Nat}, Precedes front k a b → a ≠ b := fun h heq =>
    not_precedes_self (heq ▸ h)
  have hleft := hne ha.precedes
  have hright := hne hb.precedes
  have hboth := hne (ha.precedes.trans hb.precedes)
  obtain ⟨hlta, hlt, -, -⟩ := ha
  have hltb := hb.right
  omega

end Places

theorem value_le_of_not_precedes {front : List (List Binary64)} {k a b : Nat}
    (ha : (value front k a).isNaN = false) (hb : (value front k b).isNaN = false)
    (h : ¬Precedes front (k + 1) b a) : value front k a ≤ value front k b := by
  rcases eq_or_ne a b with rfl | hne
  · exact ⟨ha, ha, Int.le_refl _⟩
  · exact le_of_totalLe ha hb ((precedes_or hne).resolve_right h).1

/-- What an objective makes of the distance of a slot. -/
inductive Widens (front : List (List α)) (objective slot : Nat) : α → α → Prop
  | extreme (d : α) (h : First front (objective + 1) slot ∨ Last front (objective + 1) slot) :
    Widens front objective slot d Extended.infinity
  | between {before after low high : Nat} (d : α)
      (hbefore : Follows front (objective + 1) before slot)
      (hafter : Follows front (objective + 1) slot after) (hlow : First front (objective + 1) low)
      (hhigh : Last front (objective + 1) high) :
    Widens front objective slot d
      (if 0 < value front objective high - value front objective low then
        d + (value front objective after - value front objective before) /
          (value front objective high - value front objective low)
      else d)

/-- The distance of a slot after some objectives. -/
inductive Widened (front : List (List α)) (slot : Nat) : (objectives : Nat) → α → Prop
  | zero : Widened front slot 0 0
  | succ {objective : Nat} {d d' : α} (h : Widened front slot objective d)
      (hstep : Widens front objective slot d d') : Widened front slot (objective + 1) d'

section Spreads

variable {front : List (List α)} {k slot : Nat}

theorem spread_snd {state : List Nat × List α} {order : List Nat}
    (h : (Crowding.spread front state k).1 = order) :
    (Crowding.spread front state k).2 =
      if 0 < value front k (order.getLastD 0) - value front k (order.headD 0) then
        Crowding.widen (value front k)
          (value front k (order.getLastD 0) - value front k (order.headD 0)) order
          ((state.2.set (order.headD 0) Extended.infinity).set (order.getLastD 0)
            Extended.infinity)
      else
        (state.2.set (order.headD 0) Extended.infinity).set (order.getLastD 0)
          Extended.infinity := by
  subst h
  rfl

theorem spread_extreme {state : List Nat × List α} {order : List Nat}
    (h : (Crowding.spread front state k).1 = order) (hnodup : order.Nodup)
    (hslot : slot < state.2.length)
    (hextreme : order.headD 0 = slot ∨ order.getLastD 0 = slot) :
    (Crowding.spread front state k).2[slot]? = some Extended.infinity := by
  have hset : ((state.2.set (order.headD 0) Extended.infinity).set (order.getLastD 0)
      Extended.infinity)[slot]? = some Extended.infinity := by
    rw [List.getElem?_set, List.getElem?_set]
    split_ifs with hlast _ hfirst <;> simp_all
  rw [spread_snd h]
  split_ifs
  · rw [widen_outside (not_mem_inner hnodup hextreme), hset]
  · exact hset

theorem ofFront_small (hsmall : front.length ≤ 2) (hslot : slot < front.length) :
    (Crowding.ofFront front)[slot]? = some Extended.infinity := by
  rw [Crowding.ofFront, if_pos hsmall]
  exact List.getElem?_replicate_of_lt hslot

variable [LawfulExtended α]

theorem Sorted.spread {state : List Nat × List α} (h : Sorted front k state.1) :
    Sorted front (k + 1) (Crowding.spread front state k).1 :=
  h.mergeSort

theorem spread_between {state : List Nat × List α} {start rest : List Nat} {before after : Nat}
    {d : α} (h : (Crowding.spread front state k).1 = start ++ before :: slot :: after :: rest)
    (hsorted : Sorted front (k + 1) (start ++ before :: slot :: after :: rest))
    (hd : state.2[slot]? = some d) :
    ∃ d', (Crowding.spread front state k).2[slot]? = some d' ∧ Widens front k slot d d' := by
  have hbefore := hsorted.follows
  have hafter : Follows front (k + 1) slot after := by
    rw [List.append_cons] at hsorted
    exact hsorted.follows
  have hlow := hsorted.first_headD (by simp)
  have hhigh := hsorted.last_getLastD (by simp)
  have hne : (start ++ before :: slot :: after :: rest).headD 0 ≠ slot := fun heq =>
    hbefore.not_first (heq ▸ hlow)
  have hne' : (start ++ before :: slot :: after :: rest).getLastD 0 ≠ slot := fun heq =>
    hafter.not_last (heq ▸ hhigh)
  refine ⟨_, ?_, .between d hbefore hafter hlow hhigh⟩
  rw [spread_snd h]
  split_ifs
  · rw [widen_inside hsorted.nodup, List.getElem?_set_ne hne', List.getElem?_set_ne hne, hd]
    rfl
  · rw [List.getElem?_set_ne hne', List.getElem?_set_ne hne, hd]

theorem exists_widens {state : List Nat × List α} {d : α} (hsorted : Sorted front k state.1)
    (hlength : state.2.length = front.length) (hd : state.2[slot]? = some d) :
    ∃ d', (Crowding.spread front state k).2[slot]? = some d' ∧ Widens front k slot d d' := by
  obtain ⟨hslot, -⟩ := List.getElem?_eq_some_iff.mp hd
  obtain ⟨order, horder⟩ : ∃ order, (Crowding.spread front state k).1 = order := ⟨_, rfl⟩
  have h : Sorted front (k + 1) order := horder ▸ hsorted.spread
  obtain ⟨start, rest, rfl⟩ := List.append_of_mem (h.mem_iff.mpr (hlength ▸ hslot))
  rcases List.eq_nil_or_concat' start with rfl | ⟨start, before, rfl⟩
  · exact ⟨_, spread_extreme horder h.nodup hslot (.inl rfl), .extreme d (.inl h.first)⟩
  · rcases rest with - | ⟨after, rest⟩
    · exact ⟨_, spread_extreme horder h.nodup hslot (.inr List.getLastD_concat),
        .extreme d (.inr h.last)⟩
    · rw [← List.append_cons] at h horder
      exact spread_between horder h hd

theorem foldl_spread (front : List (List α)) (objectives : Nat) {state : List Nat × List α}
    (h : (List.range objectives).foldl (Crowding.spread front)
      (List.range front.length, List.replicate front.length 0) = state) :
    Sorted front objectives state.1 ∧ state.2.length = front.length ∧
      ∀ slot < front.length, ∃ d, state.2[slot]? = some d ∧ Widened front slot objectives d := by
  induction objectives generalizing state with
  | zero =>
      obtain rfl := h
      refine ⟨sorted_range front, List.length_replicate, fun slot hslot => ⟨0, ?_, .zero⟩⟩
      exact List.getElem?_replicate_of_lt hslot
  | succ objectives ih =>
      rw [List.range_succ, List.foldl_append] at h
      obtain ⟨hsorted, hlength, hwidened⟩ := ih rfl
      obtain rfl := h
      refine ⟨hsorted.spread, ?_, fun slot hslot => ?_⟩
      · exact (CrowdingDistances.spread_length ..).trans hlength
      · obtain ⟨d, hd, hwidened⟩ := hwidened slot hslot
        obtain ⟨d', hd', hstep⟩ := exists_widens hsorted hlength hd
        exact ⟨d', hd', hwidened.succ hstep⟩

theorem exists_sorted (k : Nat) (hne : front ≠ []) : ∃ order ≠ [], Sorted front k order := by
  have hsorted := (foldl_spread front k rfl).1
  refine ⟨_, fun hnil => hne (List.eq_nil_of_length_eq_zero ?_), hsorted⟩
  rw [← hsorted.length, hnil, List.length_nil]

theorem exists_first (k : Nat) (hne : front ≠ []) : ∃ slot, First front k slot := by
  obtain ⟨order, horder, hsorted⟩ := exists_sorted k hne
  exact ⟨_, hsorted.first_headD horder⟩

theorem exists_last (k : Nat) (hne : front ≠ []) : ∃ slot, Last front k slot := by
  obtain ⟨order, horder, hsorted⟩ := exists_sorted k hne
  exact ⟨_, hsorted.last_getLastD horder⟩

/-- In a front of three or more, the distances are what the objectives make of zero. -/
theorem exists_widened (hlarge : 2 < front.length) (hslot : slot < front.length) :
    ∃ d, (Crowding.ofFront front)[slot]? = some d ∧
      Widened front slot (front.headD []).length d := by
  rw [Crowding.ofFront, if_neg (Nat.not_le.mpr hlarge)]
  exact (foldl_spread front _ rfl).2.2 slot hslot

end Spreads

end Archipelago.Proofs.Neighbours
