import Archipelago.Population
import Mathlib.Data.List.TakeDrop
import Mathlib.Order.Bounds.Defs

namespace Archipelago.Proofs.Scans

/-- A relation that is a strict order on the entries of a list. -/
structure StrictOn {β : Type} (beats : β → β → Bool) (xs : List β) : Prop where
  irrefl : ∀ x ∈ xs, beats x x = false
  trans : ∀ x ∈ xs, ∀ y ∈ xs, ∀ z ∈ xs, beats x y = true → beats y z = true → beats x z = true

theorem StrictOn.asymm {β : Type} {beats : β → β → Bool} {xs : List β} (h : StrictOn beats xs)
    {x y : β} (hx : x ∈ xs) (hy : y ∈ xs) (hxy : beats x y = true) : beats y x = false := by
  rw [Bool.eq_false_iff]
  intro hyx
  have hxx := h.trans x hx y hy x hx hxy hyx
  rw [h.irrefl x hx] at hxx
  contradiction

theorem StrictOn.mono {β : Type} {beats : β → β → Bool} {xs ys : List β} (h : StrictOn beats xs)
    (hsubset : ys ⊆ xs) : StrictOn beats ys :=
  ⟨fun x hx => h.irrefl x (hsubset hx),
    fun x hx y hy z hz => h.trans x (hsubset hx) y (hsubset hy) z (hsubset hz)⟩

/-- A strict order in which any entry comes after the first or before the second one of two that are
in order, so that ties are transitive. -/
structure WeakOn {β : Type} (beats : β → β → Bool) (xs : List β) : Prop extends
    StrictOn beats xs where
  cut : ∀ x ∈ xs, ∀ y ∈ xs, ∀ z ∈ xs, beats x z = true → beats x y = true ∨ beats y z = true

theorem StrictOn.flip {β : Type} {beats : β → β → Bool} {xs : List β} (h : StrictOn beats xs) :
    StrictOn (fun x y => beats y x) xs :=
  ⟨h.irrefl, fun x hx y hy z hz hxy hyz => h.trans z hz y hy x hx hyz hxy⟩

theorem WeakOn.flip {β : Type} {beats : β → β → Bool} {xs : List β} (h : WeakOn beats xs) :
    WeakOn (fun x y => beats y x) xs :=
  ⟨h.toStrictOn.flip, fun x hx y hy z hz hxz => (h.cut z hz y hy x hx hxz).symm⟩

/-- Neither of two entries beats the other one. -/
def Tied {β : Type} (beats : β → β → Bool) (x y : β) : Prop :=
  beats x y = false ∧ beats y x = false

/-- Entries of a list that are tied with the same entry are tied with each other. -/
def TiesTransitiveOn {β : Type} (beats : β → β → Bool) (xs : List β) : Prop :=
  ∀ x ∈ xs, ∀ y ∈ xs, ∀ z ∈ xs, Tied beats x y → Tied beats y z → Tied beats x z

theorem StrictOn.weakOn {β : Type} {beats : β → β → Bool} {xs : List β} (h : StrictOn beats xs)
    (hties : TiesTransitiveOn beats xs) : WeakOn beats xs := by
  refine ⟨h, fun x hx y hy z hz hxz => ?_⟩
  by_contra hneither
  obtain ⟨hxy, hyz⟩ := not_or.mp hneither
  -- An entry that neither comes after the first nor before the last one would be tied with both.
  have hyx : ¬beats y x = true := fun hyx => hyz (h.trans y hy x hx z hz hyx hxz)
  have hzy : ¬beats z y = true := fun hzy => hxy (h.trans x hx z hz y hy hxz hzy)
  rw [Bool.not_eq_true] at hxy hyz hyx hzy
  have htied := hties x hx y hy z hz ⟨hxy, hyx⟩ ⟨hyz, hzy⟩
  rw [htied.1] at hxz
  contradiction

/-- One entry is another one, or beats it. -/
def Over {β : Type} (beats : β → β → Bool) (x y : β) : Prop :=
  x = y ∨ beats x y = true

theorem StrictOn.over_trans {β : Type} {beats : β → β → Bool} {xs : List β} (h : StrictOn beats xs)
    {x y z : β} (hx : x ∈ xs) (hy : y ∈ xs) (hz : z ∈ xs) (hxy : Over beats x y)
    (hyz : Over beats y z) : Over beats x z := by
  rcases hxy with rfl | hxy
  · exact hyz
  · rcases hyz with rfl | hyz
    · exact .inr hxy
    · exact .inr (h.trans x hx y hy z hz hxy hyz)

theorem StrictOn.not_beats_of_over {β : Type} {beats : β → β → Bool} {xs : List β}
    (h : StrictOn beats xs) {x y z : β} (hx : x ∈ xs) (hy : y ∈ xs) (hz : z ∈ xs)
    (hxz : beats x z = false) (hyz : Over beats y z) : beats x y = false := by
  rcases hyz with rfl | hyz
  · exact hxz
  · rw [Bool.eq_false_iff] at *
    intro hxy
    exact hxz (h.trans x hx y hy z hz hxy hyz)

/-- Keeps the winner so far unless a later entry beats it. -/
def scan {β : Type} (beats : β → β → Bool) (best : β × Nat) (entries : List (β × Nat)) : β × Nat :=
  entries.foldl (fun best entry => if beats entry.1 best.1 then entry else best) best

theorem scan_cons {β : Type} (beats : β → β → Bool) (best entry : β × Nat)
    (entries : List (β × Nat)) :
    scan beats best (entry :: entries) =
      scan beats (if beats entry.1 best.1 then entry else best) entries :=
  rfl

theorem scan_mem {β : Type} (beats : β → β → Bool) (best : β × Nat) (entries : List (β × Nat)) :
    scan beats best entries ∈ best :: entries := by
  induction entries generalizing best with
  | nil => exact List.mem_singleton_self best
  | cons entry entries ih =>
      rw [scan_cons]
      split
      · exact List.mem_cons_of_mem best (ih entry)
      · rcases List.mem_cons.mp (ih best) with h | h
        · rw [h]
          exact List.mem_cons_self
        · exact List.mem_cons_of_mem best (List.mem_cons_of_mem entry h)

/-- The scan ends at or over the winner that it starts from, and no entry beats what it finds. -/
theorem scan_spec {β : Type} {beats : β → β → Bool} {xs : List β} (h : StrictOn beats xs)
    {best : β × Nat} {entries : List (β × Nat)} (hbest : best.1 ∈ xs)
    (hentries : ∀ entry ∈ entries, entry.1 ∈ xs) :
    Over beats (scan beats best entries).1 best.1 ∧
      ∀ entry ∈ entries, beats entry.1 (scan beats best entries).1 = false := by
  induction entries generalizing best with
  | nil =>
      refine ⟨.inl rfl, ?_⟩
      intro entry hentry
      contradiction
  | cons entry entries ih =>
      have hentry : entry.1 ∈ xs := hentries entry List.mem_cons_self
      have hrest : ∀ entry ∈ entries, entry.1 ∈ xs := fun other hother =>
        hentries other (List.mem_cons_of_mem entry hother)
      -- The winner after this entry is over the one before it, and the entry does not beat it.
      obtain ⟨next, hnext, hmem, hover, hloses⟩ : ∃ next,
          (if beats entry.1 best.1 then entry else best) = next ∧ next.1 ∈ xs ∧
            Over beats next.1 best.1 ∧ beats entry.1 next.1 = false := by
        split
        case isTrue hbeats => exact ⟨entry, rfl, hentry, .inr hbeats, h.irrefl _ hentry⟩
        case isFalse hbeats =>
            exact ⟨best, rfl, hbest, .inl rfl, Bool.eq_false_iff.mpr hbeats⟩
      rw [scan_cons, hnext]
      obtain ⟨hfound, hnone⟩ := ih hmem hrest
      have hin : (scan beats next entries).1 ∈ xs := by
        rcases List.mem_cons.mp (scan_mem beats next entries) with heq | hfound
        · rwa [heq]
        · exact hrest _ hfound
      refine ⟨h.over_trans hin hmem hbest hfound hover, ?_⟩
      intro other hother
      rcases List.mem_cons.mp hother with rfl | hother
      · exact h.not_beats_of_over hentry hin hmem hloses hfound
      · exact hnone other hother

theorem scan_append {β : Type} (beats : β → β → Bool) (best : β × Nat)
    (first rest : List (β × Nat)) :
    scan beats best (first ++ rest) = scan beats (scan beats best first) rest :=
  List.foldl_append

theorem scan_zipIdx_eq_self_iff {β : Type} {beats : β → β → Bool} {x : β} {n m : Nat} (h : n < m)
    {ys : List β} :
    scan beats (x, n) (ys.zipIdx m) = (x, n) ↔ ∀ y ∈ ys, beats y x = false := by
  induction ys generalizing m with
  | nil => exact iff_of_true rfl nofun
  | cons y ys ih =>
      rw [List.zipIdx_cons, scan_cons, List.forall_mem_cons]
      cases hbeats : beats y x with
      | true =>
          rw [if_pos rfl]
          refine iff_of_false ?_ nofun
          intro hscan
          have hmem : scan beats (y, m) (ys.zipIdx (m + 1)) ∈ (y :: ys).zipIdx m := scan_mem _ _ _
          rw [hscan] at hmem
          have hle := List.le_snd_of_mem_zipIdx hmem
          exact absurd h (Nat.not_lt.mpr hle)
      | false => simpa using ih (Nat.lt_succ_of_lt h)

section FirstBest

variable {β : Type} {beats : β → β → Bool} {xs : List β}

theorem firstBest_eq_none_iff : firstBest beats xs = none ↔ xs = [] := by
  cases xs with
  | nil => exact iff_of_true rfl rfl
  | cons x xs => exact iff_of_false nofun nofun

theorem firstBest_getElem? {best : β} {i : Nat} (h : firstBest beats xs = some (best, i)) :
    xs[i]? = some best := by
  cases xs with
  | nil => contradiction
  | cons x xs =>
      have hscan : scan beats (x, 0) (xs.zipIdx 1) = (best, i) := Option.some.inj h
      have hmem : scan beats (x, 0) (xs.zipIdx 1) ∈ (x :: xs).zipIdx := scan_mem beats _ _
      rw [hscan] at hmem
      exact List.mk_mem_zipIdx_iff_getElem?.mp hmem

theorem firstBest_mem {found : β × Nat} (h : firstBest beats xs = some found) : found.1 ∈ xs :=
  List.mem_of_getElem? (firstBest_getElem? h)

theorem firstBest_not_beaten {best : β} {i : Nat} (h : firstBest beats xs = some (best, i))
    (hstrict : StrictOn beats xs) : ∀ x ∈ xs, beats x best = false := by
  cases xs with
  | nil => contradiction
  | cons first rest =>
      have hscan : scan beats (first, 0) (rest.zipIdx 1) = (best, i) := Option.some.inj h
      have hfirst : first ∈ first :: rest := List.mem_cons_self
      have hrest : ∀ entry ∈ rest.zipIdx 1, entry.1 ∈ first :: rest := fun entry hentry =>
        List.mem_cons_of_mem first (List.fst_mem_of_mem_zipIdx hentry)
      have hspec := scan_spec hstrict (show ((first, 0) : β × Nat).1 ∈ first :: rest from hfirst)
        hrest
      obtain ⟨hover, hnone⟩ := hspec
      rw [hscan] at hover hnone
      intro x hx
      rcases List.mem_cons.mp hx with rfl | hx
      · have hbest := List.mem_of_getElem? (firstBest_getElem? h)
        exact hstrict.not_beats_of_over hfirst hbest hfirst (hstrict.irrefl x hfirst) hover
      · rw [← List.zipIdx_map_fst 1 rest] at hx
        obtain ⟨entry, hentry, rfl⟩ := List.mem_map.mp hx
        exact hnone entry hentry

/-- An entry is the winner if it beats the one before it, and no later entry beats it. -/
theorem firstBest_append_cons_iff {before after : List β} {x : β} :
    firstBest beats (before ++ x :: after) = some (x, before.length) ↔
      (∀ found, firstBest beats before = some found → beats x found.1 = true) ∧
        ∀ y ∈ after, beats y x = false := by
  cases before with
  | nil =>
      change some (scan beats (x, 0) (after.zipIdx 1)) = some (x, 0) ↔ _
      rw [Option.some_inj, scan_zipIdx_eq_self_iff Nat.one_pos]
      exact ⟨fun h => ⟨nofun, h⟩, fun h => h.2⟩
  | cons first rest =>
      obtain ⟨found, hfound⟩ : ∃ found, scan beats (first, 0) (rest.zipIdx 1) = found := ⟨_, rfl⟩
      have hbefore : firstBest beats (first :: rest) = some found := congrArg some hfound
      have hposition : found.2 < rest.length + 1 := by
        have hmem : found ∈ (first :: rest).zipIdx := hfound ▸ scan_mem _ _ _
        have hlt : found.2 < (first :: rest).length + 0 := List.snd_lt_of_mem_zipIdx hmem
        exact hlt
      have hall : firstBest beats (first :: rest ++ x :: after) =
          some (scan beats (if beats x found.1 then (x, rest.length + 1) else found)
            (after.zipIdx (rest.length + 2))) := by
        change some (scan beats (first, 0) ((rest ++ x :: after).zipIdx 1)) = _
        rw [List.zipIdx_append, scan_append, hfound, List.zipIdx_cons, scan_cons, Nat.add_comm 1]
      simp only [hbefore, hall, Option.some_inj, forall_eq', List.length_cons]
      cases hbeats : beats x found.1 with
      | true =>
          rw [if_pos rfl, scan_zipIdx_eq_self_iff (Nat.lt_succ_self _)]
          exact ⟨fun h => ⟨rfl, h⟩, fun h => h.2⟩
      | false =>
          rw [if_neg Bool.false_ne_true]
          refine iff_of_false ?_ nofun
          intro hscan
          have hmem := scan_mem beats found (after.zipIdx (rest.length + 2))
          rw [hscan] at hmem
          rcases List.mem_cons.mp hmem with heq | hmem
          · rw [← heq] at hposition
            exact Nat.lt_irrefl _ hposition
          · exact absurd (List.le_snd_of_mem_zipIdx hmem) (Nat.not_le.mpr (Nat.lt_succ_self _))

theorem firstBest_eq_some_iff {best : β} {i : Nat} :
    firstBest beats xs = some (best, i) ↔ xs[i]? = some best ∧
      (∀ found, firstBest beats (xs.take i) = some found → beats best found.1 = true) ∧
        ∀ y ∈ xs.drop (i + 1), beats y best = false := by
  by_cases hbest : xs[i]? = some best
  · obtain ⟨hi, hget⟩ := List.getElem?_eq_some_iff.mp hbest
    have hsplit : xs.take i ++ best :: xs.drop (i + 1) = xs := by
      rw [← hget, List.cons_getElem_drop_succ, List.take_append_drop]
    have hiff : firstBest beats (xs.take i ++ best :: xs.drop (i + 1)) =
        some (best, (xs.take i).length) ↔ _ := firstBest_append_cons_iff
    rw [hsplit, List.length_take_of_le (Nat.le_of_lt hi)] at hiff
    rw [hiff, and_iff_right hbest]
  · exact iff_of_false (fun h => hbest (firstBest_getElem? h)) fun h => hbest h.1

theorem firstBest_set {best better : β} {i : Nat} (h : firstBest beats xs = some (best, i))
    (hstrict : StrictOn beats (better :: xs)) (hbetter : beats better best = true) :
    firstBest beats (xs.set i better) = some (better, i) := by
  obtain ⟨hbest, hbefore, hafter⟩ := firstBest_eq_some_iff.mp h
  have hi := (List.getElem?_eq_some_iff.mp hbest).1
  have hmem : best ∈ better :: xs := List.mem_cons_of_mem better (List.mem_of_getElem? hbest)
  refine firstBest_eq_some_iff.mpr ⟨List.getElem?_set_self hi, ?_, ?_⟩
  · intro found hfound
    rw [List.take_set_of_le (Nat.le_refl i)] at hfound
    have hin : found.1 ∈ better :: xs :=
      List.mem_cons_of_mem better (List.mem_of_mem_take (firstBest_mem hfound))
    exact hstrict.trans better List.mem_cons_self best hmem found.1 hin hbetter
      (hbefore found hfound)
  · intro y hy
    rw [List.drop_set_of_lt (Nat.lt_succ_self i)] at hy
    have hin : y ∈ better :: xs := List.mem_cons_of_mem better (List.mem_of_mem_drop hy)
    rw [Bool.eq_false_iff]
    intro hbeats
    have hworse := hstrict.trans y hin better List.mem_cons_self best hmem hbeats hbetter
    rw [hafter y hy] at hworse
    contradiction

theorem firstBest_beats_earlier {best : β} {i : Nat} (h : firstBest beats xs = some (best, i))
    (hweak : WeakOn beats xs) : ∀ x ∈ xs.take i, beats best x = true := by
  obtain ⟨hbest, hbefore, -⟩ := firstBest_eq_some_iff.mp h
  intro x hx
  have hsubset : xs.take i ⊆ xs := List.take_subset i xs
  cases hfound : firstBest beats (xs.take i) with
  | none =>
      rw [firstBest_eq_none_iff.mp hfound] at hx
      contradiction
  | some found =>
      have hnot : beats x found.1 = false := firstBest_not_beaten hfound (hweak.mono hsubset) x hx
      rcases hweak.cut best (List.mem_of_getElem? hbest) x (hsubset hx) found.1
        (hsubset (firstBest_mem hfound)) (hbefore found hfound) with h | h
      · exact h
      · rw [hnot] at h
        contradiction

/-- If ties are transitive, then the winner is the first entry that no other one beats. -/
theorem firstBest_isLeast {best : β} {i : Nat} (h : firstBest beats xs = some (best, i))
    (hweak : WeakOn beats xs) :
    IsLeast { j | ∃ x, xs[j]? = some x ∧ ∀ y ∈ xs, beats y x = false } i := by
  have hbest := firstBest_getElem? h
  refine ⟨⟨best, hbest, firstBest_not_beaten h hweak.toStrictOn⟩, ?_⟩
  rintro j ⟨x, hx, hnone⟩
  by_contra hlt
  have hmem : x ∈ xs.take i :=
    List.mem_of_getElem? ((List.getElem?_take_of_lt (Nat.lt_of_not_le hlt)).trans hx)
  have hbeaten := firstBest_beats_earlier h hweak x hmem
  rw [hnone best (List.mem_of_getElem? hbest)] at hbeaten
  contradiction

end FirstBest

end Archipelago.Proofs.Scans
