import Archipelago.Proofs.Neighbours
import Archipelago.Proofs.Shares
import Mathlib.Data.List.Nodup
import Mathlib.Data.List.Pairwise

namespace Archipelago.Proofs.Isolation

open CrowdingDistances
open Infinities
open Magnitudes
open Neighbours
open OrderedScalars
open Roundings
open Shares
open Steps

def Lowest (values : List Binary64) (x : Binary64) : Prop :=
  x ∈ values ∧ ∀ y ∈ values, x ≤ y

def Highest (values : List Binary64) (x : Binary64) : Prop :=
  x ∈ values ∧ ∀ y ∈ values, y ≤ x

def Extreme (values : List Binary64) (x : Binary64) : Prop :=
  Lowest values x ∨ Highest values x

/-- The gap between the values right below and right above `x`, as a share of the range of all of
them. -/
def Share (values : List Binary64) (x share : Binary64) : Prop :=
  ∃ low high before after, Lowest values low ∧ Highest values high ∧
    Highest (values.filter (· < x)) before ∧ Lowest (values.filter (x < ·)) after ∧
      share = (after - before) / (high - low)

/-- Different as numbers: the two zeros are not. -/
def Differs (x y : Binary64) : Prop :=
  ¬x == y

instance (values : List Binary64) (x : Binary64) : Decidable (x ∈ values) :=
  decidable_of_iff (∃ y ∈ values, y = x) exists_eq_right

instance (values : List Binary64) (x : Binary64) : Decidable (Lowest values x) :=
  inferInstanceAs (Decidable (_ ∧ _))

instance (values : List Binary64) (x : Binary64) : Decidable (Highest values x) :=
  inferInstanceAs (Decidable (_ ∧ _))

instance (values : List Binary64) (x : Binary64) : Decidable (Extreme values x) :=
  inferInstanceAs (Decidable (_ ∨ _))

instance : DecidableRel Differs := fun x y =>
  inferInstanceAs (Decidable (¬x == y))

/-- Distinct numbers whose range does not overflow. -/
structure Separated (values : List Binary64) : Prop where
  distinct : values.Pairwise Differs
  defined : ∀ x ∈ values, x.isNaN = false
  bounded : ∀ low high, Lowest values low → Highest values high → IsFinite (high - low)

section Values

variable {values others : List Binary64} {x y : Binary64}

theorem differs_iff : Differs x y ↔ ¬(x ≤ y ∧ y ≤ x) :=
  not_congr decide_eq_true_iff

instance : Std.Symm Differs where
  symm _ _ h := differs_iff.mpr fun hle => differs_iff.mp h hle.symm

theorem eq_of_le_of_le (hdistinct : values.Pairwise Differs) (hx : x ∈ values)
    (hy : y ∈ values) (hxy : x ≤ y) (hyx : y ≤ x) : x = y := by
  by_contra hne
  exact differs_iff.mp (hdistinct.forall hx hy hne) ⟨hxy, hyx⟩

theorem Lowest.unique (hdistinct : values.Pairwise Differs) (hx : Lowest values x)
    (hy : Lowest values y) : x = y :=
  eq_of_le_of_le hdistinct hx.1 hy.1 (hx.2 y hy.1) (hy.2 x hx.1)

theorem Highest.unique (hdistinct : values.Pairwise Differs) (hx : Highest values x)
    (hy : Highest values y) : x = y :=
  eq_of_le_of_le hdistinct hx.1 hy.1 (hy.2 x hx.1) (hx.2 y hy.1)

theorem Share.unique (hdistinct : values.Pairwise Differs) {share other : Binary64}
    (h : Share values x share) (h' : Share values x other) : share = other := by
  obtain ⟨low, high, before, after, hlow, hhigh, hbefore, hafter, rfl⟩ := h
  obtain ⟨low', high', before', after', hlow', hhigh', hbefore', hafter', rfl⟩ := h'
  rw [hlow.unique hdistinct hlow', hhigh.unique hdistinct hhigh',
    hbefore.unique (hdistinct.filter _) hbefore', hafter.unique (hdistinct.filter _) hafter']

-- Extremes and shares depend on which values there are, and not on their order.

theorem lowest_congr (h : ∀ y, y ∈ values ↔ y ∈ others) : Lowest values x ↔ Lowest others x := by
  simp only [Lowest, h]

theorem highest_congr (h : ∀ y, y ∈ values ↔ y ∈ others) :
    Highest values x ↔ Highest others x := by
  simp only [Highest, h]

theorem extreme_congr (h : ∀ y, y ∈ values ↔ y ∈ others) :
    Extreme values x ↔ Extreme others x := by
  rw [Extreme, Extreme, lowest_congr h, highest_congr h]

theorem share_congr (h : ∀ y, y ∈ values ↔ y ∈ others) {share : Binary64} :
    Share values x share ↔ Share others x share := by
  have hfilter : ∀ p : Binary64 → Bool, ∀ y, y ∈ values.filter p ↔ y ∈ others.filter p := by
    simp [h]
  simp only [Share, lowest_congr h, highest_congr h, lowest_congr (hfilter _),
    highest_congr (hfilter _)]

theorem Separated.perm (h : Separated values) (hperm : values.Perm others) :
    Separated others := by
  refine ⟨?_, fun x hx => h.defined x (hperm.mem_iff.mpr hx), fun low high hlow hhigh => ?_⟩
  · exact (hperm.pairwise_iff fun {_ _} h => Std.Symm.symm _ _ h).mp h.distinct
  · exact h.bounded low high ((lowest_congr fun y => hperm.mem_iff).mpr hlow)
      ((highest_congr fun y => hperm.mem_iff).mpr hhigh)

end Values

/-- The values of an objective. -/
def column (vectors : List (List Binary64)) (objective : Nat) : List Binary64 :=
  vectors.map (·.getD objective 0)

/-- How far a vector is away from those around it. -/
inductive Isolated (vectors : List (List Binary64)) (vector : List Binary64) (objectives : Nat) :
    Binary64 → Prop
  | extreme {objective : Nat} (hlt : objective < objectives)
      (h : Extreme (column vectors objective) (vector.getD objective 0)) :
    Isolated vectors vector objectives Binary64.infinity
  | inner {shares : List Binary64}
      (hinner : ∀ objective < objectives,
        ¬Extreme (column vectors objective) (vector.getD objective 0))
      (hshares : List.Forall₂
        (fun objective => Share (column vectors objective) (vector.getD objective 0))
        (List.range objectives) shares) :
    Isolated vectors vector objectives (shares.foldl (· + ·) 0)

section Vectors

variable {vectors others : List (List Binary64)} {vector : List Binary64} {m : Nat}

theorem Isolated.unique (hseparated : ∀ k < m, Separated (column vectors k)) {d d' : Binary64}
    (h : Isolated vectors vector m d) (h' : Isolated vectors vector m d') : d = d' := by
  rcases h with ⟨hlt, hextreme⟩ | ⟨hinner, hshares⟩
  · rcases h' with - | ⟨hinner, -⟩
    · rfl
    · exact absurd hextreme (hinner _ hlt)
  · rcases h' with ⟨hlt, hextreme⟩ | ⟨-, hshares'⟩
    · exact absurd hextreme (hinner _ hlt)
    · congr 1
      obtain ⟨hlength, hget⟩ := List.forall₂_iff_get.mp hshares
      obtain ⟨hlength', hget'⟩ := List.forall₂_iff_get.mp hshares'
      refine List.ext_getElem (hlength.symm.trans hlength') fun k hk hk' => ?_
      have hlt : k < (List.range m).length := hlength ▸ hk
      refine (hget k hlt hk).unique ?_ (hget' k hlt hk')
      exact (hseparated _ (List.mem_range.mp (List.get_mem _ _))).distinct

theorem mem_column_congr (h : vectors.Perm others) (k : Nat) (y : Binary64) :
    y ∈ column vectors k ↔ y ∈ column others k :=
  (h.map _).mem_iff

theorem isolated_congr (h : vectors.Perm others) {d : Binary64}
    (hisolated : Isolated vectors vector m d) : Isolated others vector m d := by
  rcases hisolated with ⟨hlt, hextreme⟩ | ⟨hinner, hshares⟩
  · exact .extreme hlt ((extreme_congr (mem_column_congr h _)).mp hextreme)
  · refine .inner (fun k hk hextreme => ?_) (hshares.imp fun k share hshare => ?_)
    · exact hinner k hk ((extreme_congr (mem_column_congr h k)).mpr hextreme)
    · exact (share_congr (mem_column_congr h k)).mp hshare

end Vectors

section Slots

variable {vectors : List (List Binary64)} {k a b slot : Nat}

theorem column_getElem? (h : slot < vectors.length) :
    (column vectors k)[slot]? = some (value vectors k slot) := by
  simp [column, value, h]

theorem value_mem_column (h : slot < vectors.length) :
    value vectors k slot ∈ column vectors k :=
  List.mem_of_getElem? (column_getElem? h)

theorem exists_value {x : Binary64} (h : x ∈ column vectors k) :
    ∃ slot < vectors.length, value vectors k slot = x := by
  obtain ⟨slot, hslot, rfl⟩ := List.getElem_of_mem h
  have hlt : slot < vectors.length := by simpa [column] using hslot
  refine ⟨slot, hlt, ?_⟩
  have hvalue := column_getElem? (k := k) hlt
  rw [List.getElem?_eq_getElem hslot] at hvalue
  exact (Option.some.inj hvalue).symm

section Defined

variable (hdefined : ∀ x ∈ column vectors k, x.isNaN = false)

include hdefined

theorem le_of_not_precedes (ha : a < vectors.length) (hb : b < vectors.length)
    (h : ¬Precedes vectors (k + 1) b a) : value vectors k a ≤ value vectors k b :=
  value_le_of_not_precedes (hdefined _ (value_mem_column ha)) (hdefined _ (value_mem_column hb)) h

theorem lowest_of_first (h : First vectors (k + 1) slot) :
    Lowest (column vectors k) (value vectors k slot) := by
  refine ⟨value_mem_column h.1, fun y hy => ?_⟩
  obtain ⟨other, hother, rfl⟩ := exists_value hy
  exact le_of_not_precedes hdefined h.1 hother (h.2 other hother)

theorem highest_of_last (h : Last vectors (k + 1) slot) :
    Highest (column vectors k) (value vectors k slot) := by
  refine ⟨value_mem_column h.1, fun y hy => ?_⟩
  obtain ⟨other, hother, rfl⟩ := exists_value hy
  exact le_of_not_precedes hdefined hother h.1 (h.2 other hother)

end Defined

variable (hseparated : Separated (column vectors k))

include hseparated

theorem value_lt_or_lt (ha : a < vectors.length) (hb : b < vectors.length) (hne : a ≠ b) :
    value vectors k a < value vectors k b ∨ value vectors k b < value vectors k a := by
  have hdiffers : ∀ {a b : Nat}, a < vectors.length → b < vectors.length → a < b →
      Differs (value vectors k a) (value vectors k b) := by
    intro a b ha hb hlt
    obtain ⟨ha', hvalue⟩ := List.getElem?_eq_some_iff.mp (column_getElem? (k := k) ha)
    obtain ⟨hb', hvalue'⟩ := List.getElem?_eq_some_iff.mp (column_getElem? (k := k) hb)
    rw [← hvalue, ← hvalue']
    exact List.pairwise_iff_getElem.mp hseparated.distinct a b ha' hb' hlt
  have hne' : Differs (value vectors k a) (value vectors k b) := by
    rcases Nat.lt_or_gt_of_ne hne with hlt | hgt
    · exact hdiffers ha hb hlt
    · exact Std.Symm.symm _ _ (hdiffers hb ha hgt)
  have ha' := hseparated.defined _ (value_mem_column ha)
  have hb' := hseparated.defined _ (value_mem_column hb)
  by_contra hnot
  obtain ⟨hab, hba⟩ := not_or.mp hnot
  exact differs_iff.mp hne' ⟨le_of_not_lt ha' hb' hba, le_of_not_lt hb' ha' hab⟩

theorem precedes_iff (ha : a < vectors.length) (hb : b < vectors.length) :
    Precedes vectors (k + 1) a b ↔ value vectors k a < value vectors k b := by
  constructor
  · intro hprecedes
    have hne : a ≠ b := fun heq => not_precedes_self (heq ▸ hprecedes)
    refine (value_lt_or_lt hseparated ha hb hne).resolve_right fun hlt => ?_
    exact absurd hprecedes.1 (by simp [(totalLe_of_lt hlt).2])
  · intro hlt
    exact ⟨(totalLe_of_lt hlt).1, fun hle => absurd hle (by simp [(totalLe_of_lt hlt).2])⟩

theorem value_lt_of_follows (h : Follows vectors (k + 1) a b) :
    value vectors k a < value vectors k b :=
  (precedes_iff hseparated h.left h.right).mp h.precedes

theorem highest_below (h : Follows vectors (k + 1) a slot) :
    Highest ((column vectors k).filter (· < value vectors k slot)) (value vectors k a) := by
  refine ⟨List.mem_filter.mpr ⟨value_mem_column h.left, ?_⟩, fun y hy => ?_⟩
  · exact decide_eq_true (value_lt_of_follows hseparated h)
  · obtain ⟨hmem, hlt⟩ := List.mem_filter.mp hy
    obtain ⟨other, hother, rfl⟩ := exists_value hmem
    refine le_of_not_precedes hseparated.defined hother h.left fun hprecedes => ?_
    refine h.directly other hother ⟨hprecedes, ?_⟩
    exact (precedes_iff hseparated hother h.right).mpr (of_decide_eq_true hlt)

theorem lowest_above (h : Follows vectors (k + 1) slot b) :
    Lowest ((column vectors k).filter (value vectors k slot < ·)) (value vectors k b) := by
  refine ⟨List.mem_filter.mpr ⟨value_mem_column h.right, ?_⟩, fun y hy => ?_⟩
  · exact decide_eq_true (value_lt_of_follows hseparated h)
  · obtain ⟨hmem, hlt⟩ := List.mem_filter.mp hy
    obtain ⟨other, hother, rfl⟩ := exists_value hmem
    refine le_of_not_precedes hseparated.defined h.right hother fun hprecedes => ?_
    refine h.directly other hother ⟨?_, hprecedes⟩
    exact (precedes_iff hseparated h.left hother).mpr (of_decide_eq_true hlt)

theorem not_extreme (hbefore : Follows vectors (k + 1) a slot)
    (hafter : Follows vectors (k + 1) slot b) :
    ¬Extreme (column vectors k) (value vectors k slot) := by
  rintro (⟨-, hleast⟩ | ⟨-, hgreatest⟩)
  · have hlt := value_lt_of_follows hseparated hbefore
    exact Binary64.not_lt_of_le (hleast _ (value_mem_column hbefore.left)) hlt
  · have hlt := value_lt_of_follows hseparated hafter
    exact Binary64.not_lt_of_le (hgreatest _ (value_mem_column hafter.right)) hlt

theorem exists_share {d : Binary64} {before after low high : Nat}
    (hbefore : Follows vectors (k + 1) before slot) (hafter : Follows vectors (k + 1) slot after)
    (hlow : First vectors (k + 1) low) (hhigh : Last vectors (k + 1) high) :
    ∃ share, Share (column vectors k) (value vectors k slot) share ∧ 0 ≤ share ∧
      (if 0 < value vectors k high - value vectors k low then
        d + (value vectors k after - value vectors k before) /
          (value vectors k high - value vectors k low)
      else d) = d + share := by
  have hlow' := lowest_of_first hseparated.defined hlow
  have hhigh' := highest_of_last hseparated.defined hhigh
  have hbounded := hseparated.bounded _ _ hlow' hhigh'
  obtain ⟨hfinite, hfinite'⟩ := operands_of_sub hbounded
  have hlt := value_lt_of_follows hseparated hbefore
  have hlt' := value_lt_of_follows hseparated hafter
  have hbottom := hlow'.2 _ (value_mem_column hbefore.left)
  have htop := hhigh'.2 _ (value_mem_column hafter.right)
  have hgap : value vectors k before ≤ value vectors k after :=
    Binary64.le_of_lt (OrderedScalar.lt_trans hlt hlt')
  have hspan : 0 < value vectors k high - value vectors k low := by
    apply sub_pos hfinite hfinite'
    exact Binary64.lt_of_le_of_lt hbottom
      (Binary64.lt_of_lt_of_le (OrderedScalar.lt_trans hlt hlt') htop)
  refine ⟨_, ⟨_, _, _, _, hlow', hhigh', highest_below hseparated hbefore,
    lowest_above hseparated hafter, rfl⟩, ?_, if_pos hspan⟩
  exact share_nonneg hfinite' hfinite hbottom hgap htop
    (isFinite_gap hfinite' hfinite hbottom hgap htop hbounded) hspan

end Slots

/-- The distance of a slot is isolation, from one objective to the next. -/
theorem isolated_of_widened {vectors : List (List Binary64)} {slot k : Nat} {d : Binary64}
    (hseparated : ∀ objective < k, Separated (column vectors objective))
    (h : Widened vectors slot k d) : Isolated vectors (vectors.getD slot []) k d := by
  induction h with
  | zero => exact .inner (fun objective hlt => absurd hlt (Nat.not_lt_zero _)) .nil
  | @succ k d d' h hstep ih =>
      have hisolated := ih fun objective hlt => hseparated objective (hlt.trans k.lt_succ_self)
      have hlast := hseparated k k.lt_succ_self
      rcases hstep with ⟨_, hfirst | hlast'⟩ | ⟨_, hbefore, hafter, hlow, hhigh⟩
      · exact .extreme k.lt_succ_self (.inl (lowest_of_first hlast.defined hfirst))
      · exact .extreme k.lt_succ_self (.inr (highest_of_last hlast.defined hlast'))
      · obtain ⟨share, hshare, hnonneg, hsum⟩ :=
          exists_share (d := d) hlast hbefore hafter hlow hhigh
        rw [hsum]
        rcases hisolated with ⟨hlt, hextreme⟩ | ⟨hinner, hshares⟩
        · rw [infinity_add hnonneg]
          exact .extreme (hlt.trans k.lt_succ_self) hextreme
        · rw [← List.foldl_concat (· + ·)]
          refine .inner (fun objective hlt => ?_) ?_
          · rcases Nat.lt_succ_iff_lt_or_eq.mp hlt with hlt | rfl
            · exact hinner objective hlt
            · exact not_extreme hlast hbefore hafter
          · rw [List.range_succ]
            exact List.rel_append hshares (.cons hshare .nil)

/-- Vectors of one length, and fronts without common members. -/
structure Arranged (m : Nat) (objectives : List (List Binary64)) (fronts : List (List Nat)) :
    Prop where
  aligned : ∀ vector ∈ objectives, vector.length = m
  valid : ∀ front ∈ fronts, ∀ i ∈ front, i < objectives.length
  nodup : ∀ front ∈ fronts, front.Nodup
  disjoint : fronts.Pairwise List.Disjoint

/-- The vectors of a front. -/
def members (objectives : List (List Binary64)) (front : List Nat) : List (List Binary64) :=
  front.map fun i => objectives.getD i []

section Fronts

variable {m : Nat} {objectives : List (List Binary64)} {fronts : List (List Nat)}
  {front : List Nat}

theorem byFront_outside {i : Nat} (hi : i < objectives.length) (hnot : i ∉ fronts.flatten) :
    (Crowding.byFront objectives fronts)[i]? = some 0 := by
  rw [Crowding.byFront, foldl_assign_of_not_mem hnot]
  exact List.getElem?_replicate_of_lt hi

theorem Arranged.byFront_eq (h : Arranged m objectives fronts) (hfront : front ∈ fronts)
    {i place : Nat} (hplace : front[place]? = some i) :
    (Crowding.byFront objectives fronts)[i]? =
      (Crowding.ofFront (members objectives front))[place]? :=
  byFront_of_mem (List.nodup_flatten.mpr ⟨h.nodup, h.disjoint⟩)
    (h.valid front hfront i (List.mem_of_getElem? hplace)) hfront hplace

theorem Arranged.byFront_small (h : Arranged m objectives fronts) (hfront : front ∈ fronts)
    (hsmall : front.length ≤ 2) {i : Nat} (hi : i ∈ front) :
    (Crowding.byFront objectives fronts)[i]? = some Binary64.infinity := by
  obtain ⟨place, hplace⟩ := List.getElem?_of_mem hi
  rw [h.byFront_eq hfront hplace]
  apply ofFront_small
  · simpa [members] using hsmall
  · simpa [members] using (List.getElem?_eq_some_iff.mp hplace).1

theorem Arranged.byFront_large (h : Arranged m objectives fronts) (hfront : front ∈ fronts)
    (hlarge : 2 < front.length)
    (hseparated : ∀ k < m, Separated (column (members objectives front) k)) {i : Nat}
    (hi : i ∈ front) (d : Binary64) :
    (Crowding.byFront objectives fronts)[i]? = some d ↔
      Isolated (members objectives front) (objectives.getD i []) m d := by
  obtain ⟨place, hplace⟩ := List.getElem?_of_mem hi
  have hlength : (members objectives front).length = front.length := by simp [members]
  have hhead : ((members objectives front).headD []).length = m := by
    match front with
    | j :: rest =>
        have hj := h.valid _ hfront j List.mem_cons_self
        refine h.aligned _ ?_
        simp [members, hj]
  have hvector : (members objectives front).getD place [] = objectives.getD i [] := by
    simp [members, hplace]
  have hslot : place < (members objectives front).length :=
    hlength ▸ (List.getElem?_eq_some_iff.mp hplace).1
  obtain ⟨d', hd', hwidened⟩ := exists_widened (hlength ▸ hlarge) hslot
  rw [hhead] at hwidened
  have hisolated := isolated_of_widened hseparated hwidened
  rw [hvector] at hisolated
  rw [h.byFront_eq hfront hplace, hd', Option.some.injEq]
  exact ⟨fun heq => heq ▸ hisolated, fun hd => hisolated.unique hseparated hd⟩

theorem members_perm {others : List (List Binary64)} {front' : List Nat}
    (hperm : front.Perm front') (hsame : ∀ i ∈ front, others[i]? = objectives[i]?) :
    (members objectives front).Perm (members others front') := by
  have heq : members objectives front = members others front :=
    List.map_congr_left fun i hi => by simp [hsame i hi]
  rw [heq]
  exact hperm.map _

theorem distance_eq_byFront (objectives : List (List Binary64)) :
    Crowding.distance objectives =
      Crowding.byFront objectives [List.range objectives.length] := by
  have hmembers : members objectives (List.range objectives.length) = objectives := by
    refine List.ext_getElem (by simp [members]) fun i hi hi' => ?_
    simp [members, hi']
  refine List.ext_getElem? fun i => ?_
  rcases Nat.lt_or_ge i objectives.length with hlt | hge
  · have hplace : (List.range objectives.length)[i]? = some i := by simp [hlt]
    rw [byFront_of_mem (by simp [List.nodup_range]) hlt List.mem_cons_self hplace]
    change _ = (Crowding.ofFront (members objectives _))[i]?
    rw [hmembers]
    rfl
  · have hlength : (Crowding.distance objectives).length = objectives.length :=
      ofFront_length objectives
    rw [List.getElem?_eq_none (hlength ▸ hge),
      List.getElem?_eq_none ((byFront_length objectives _).symm ▸ hge)]

end Fronts

/-- Crowding distances front by front, in terms of the values alone. -/
structure CrowdsByIsolation (m : Nat) (objectives : List (List Binary64))
    (fronts : List (List Nat)) : Prop where
  outside : ∀ i < objectives.length, i ∉ fronts.flatten →
    (Crowding.byFront objectives fronts)[i]? = some 0
  small : ∀ front ∈ fronts, front.length ≤ 2 → ∀ i ∈ front,
    (Crowding.byFront objectives fronts)[i]? = some Binary64.infinity
  large : ∀ front ∈ fronts, 2 < front.length → ∀ i ∈ front, ∀ d,
    (Crowding.byFront objectives fronts)[i]? = some d ↔
      Isolated (members objectives front) (objectives.getD i []) m d
  /-- Neither the order of the members matters, nor what is outside of the front. -/
  localized : ∀ others fronts', Arranged m others fronts' → ∀ front ∈ fronts, ∀ front' ∈ fronts',
    front.Perm front' → (∀ i ∈ front, others[i]? = objectives[i]?) → ∀ i ∈ front,
      (Crowding.byFront others fronts')[i]? = (Crowding.byFront objectives fronts)[i]?
  whole : Crowding.distance objectives =
    Crowding.byFront objectives [List.range objectives.length]

theorem crowding_is_isolation {m : Nat} {objectives : List (List Binary64)}
    {fronts : List (List Nat)} (h : Arranged m objectives fronts)
    (hseparated : ∀ front ∈ fronts, 2 < front.length → ∀ k < m,
      Separated (column (members objectives front) k)) :
    CrowdsByIsolation m objectives fronts where
  outside _ hi hnot := byFront_outside hi hnot
  small _ hfront hsmall _ hi := h.byFront_small hfront hsmall hi
  large front hfront hlarge _ hi :=
    h.byFront_large hfront hlarge (hseparated front hfront hlarge) hi
  localized others fronts' h' front hfront front' hfront' hperm hsame i hi := by
    have hi' : i ∈ front' := hperm.mem_iff.mp hi
    rcases Nat.lt_or_ge 2 front.length with hlarge | hsmall
    · have hvectors := members_perm hperm hsame
      have hvector : others.getD i [] = objectives.getD i [] := by simp [hsame i hi]
      have hseparated' : ∀ k < m, Separated (column (members others front') k) := fun k hk =>
        (hseparated front hfront hlarge k hk).perm (hvectors.map _)
      have hlt : i < (Crowding.byFront objectives fronts).length := by
        rw [byFront_length]
        exact h.valid front hfront i hi
      have hd := List.getElem?_eq_getElem hlt
      rw [hd, h'.byFront_large hfront' (hperm.length_eq ▸ hlarge) hseparated' hi', hvector]
      rw [h.byFront_large hfront hlarge (hseparated front hfront hlarge) hi] at hd
      exact isolated_congr hvectors hd
    · rw [h.byFront_small hfront hsmall hi,
        h'.byFront_small hfront' (hperm.length_eq ▸ hsmall) hi']
  whole := distance_eq_byFront objectives

/-- Two fronts, one of which lies between the members of the other one. -/
def scattered : List (List Binary64) :=
  [[0, .ofNat 4], [.ofNat 9, .ofNat 9], [1, 1], [.ofNat 8, .ofNat 8], [.ofNat 4, 0]]

theorem scattered_arranged : Arranged 2 scattered [[0, 2, 4], [1, 3]] where
  aligned := by decide
  valid := by decide
  nodup := by decide
  disjoint := by simp [List.Disjoint]

theorem scattered_separated {k : Nat} (hk : k < 2) :
    Separated (column (members scattered [0, 2, 4]) k) := by
  have hbounded : ∀ low ∈ column (members scattered [0, 2, 4]) k,
      ∀ high ∈ column (members scattered [0, 2, 4]) k, IsFinite (high - low) := by
    match k, hk with
    | 0, _ | 1, _ => decide +kernel
  refine ⟨?_, ?_, fun low high hlow hhigh => hbounded low hlow.1 high hhigh.1⟩
  · match k, hk with
    | 0, _ | 1, _ => decide +kernel
  · match k, hk with
    | 0, _ | 1, _ => decide +kernel

theorem scattered_crowding :
    (Crowding.byFront scattered [[0, 2, 4], [1, 3]])[0]? = some Binary64.infinity ∧
      (Crowding.byFront scattered [[0, 2, 4], [1, 3]])[2]? = some (.ofNat 2) ∧
        (Crowding.byFront scattered [[0, 2, 4], [1, 3]])[3]? = some Binary64.infinity := by
  have hseparated : ∀ front ∈ [[0, 2, 4], [1, 3]], 2 < front.length → ∀ k < 2,
      Separated (column (members scattered front) k) := by
    intro front hfront hlarge k hk
    rw [List.mem_pair] at hfront
    rcases hfront with rfl | rfl
    · exact scattered_separated hk
    · exact absurd hlarge (by decide)
  have hcrowds := crowding_is_isolation scattered_arranged hseparated
  have hshare : ∀ k < 2, Share (column (members scattered [0, 2, 4]) k) 1 1 := by
    intro k hk
    refine ⟨0, .ofNat 4, 0, .ofNat 4, ?_⟩
    match k, hk with
    | 0, _ | 1, _ => decide +kernel
  have hinner : Isolated (members scattered [0, 2, 4]) [1, 1] 2 ([1, 1].foldl (· + ·) 0) := by
    refine .inner (by decide +kernel) ?_
    exact .cons (hshare 0 (by decide)) (.cons (hshare 1 (by decide)) .nil)
  have htwo : ([1, 1] : List Binary64).foldl (· + ·) 0 = .ofNat 2 := by decide +kernel
  rw [htwo] at hinner
  refine ⟨?_, ?_, ?_⟩
  · refine (hcrowds.large [0, 2, 4] (by simp) (by decide) 0 (by simp) _).mpr ?_
    exact .extreme (show 0 < 2 by decide) (by decide +kernel)
  · exact (hcrowds.large [0, 2, 4] (by simp) (by decide) 2 (by simp) _).mpr hinner
  · exact hcrowds.small [1, 3] (by simp) (by decide) 3 (by simp)

end Archipelago.Proofs.Isolation
