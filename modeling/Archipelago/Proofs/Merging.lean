import Archipelago.Migration
import Mathlib.Data.List.Basic

namespace Archipelago.Proofs.Merging

/-- Two lists of the same length with related entries in each slot. -/
structure SlotWise {β : Type} (r : β → β → Prop) (xs ys : List β) : Prop where
  length_eq : ys.length = xs.length
  related : ∀ (i : Nat) (x y : β), xs[i]? = some x → ys[i]? = some y → r x y

namespace SlotWise

variable {β : Type} {r : β → β → Prop} {xs ys : List β}

theorem refl (hr : ∀ x ∈ xs, r x x) : SlotWise r xs xs where
  length_eq := rfl
  related i x y hx hy := by
    obtain rfl := Option.some.inj (hx.symm.trans hy)
    exact hr x (List.mem_of_getElem? hx)

theorem set (h : SlotWise r xs ys) {i : Nat} {y : β} (hy : ∀ x, xs[i]? = some x → r x y) :
    SlotWise r xs (ys.set i y) where
  length_eq := by rw [List.length_set, h.length_eq]
  related j x z hx hz := by
    by_cases hij : i = j
    · subst hij
      have hi : i < ys.length := h.length_eq ▸ (List.getElem?_eq_some_iff.mp hx).1
      rw [List.getElem?_set_self hi] at hz
      cases hz
      exact hy x hx
    · rw [List.getElem?_set_ne hij] at hz
      exact h.related j x z hx hz

theorem exists_right (h : SlotWise r xs ys) {x : β} (hx : x ∈ xs) : ∃ y ∈ ys, r x y := by
  obtain ⟨i, hi⟩ := List.mem_iff_getElem?.mp hx
  have hlt : i < ys.length := h.length_eq ▸ (List.getElem?_eq_some_iff.mp hi).1
  exact ⟨ys[i], List.getElem_mem hlt, h.related i x ys[i] hi (List.getElem?_eq_getElem hlt)⟩

theorem exists_left (h : SlotWise r xs ys) {y : β} (hy : y ∈ ys) : ∃ x ∈ xs, r x y := by
  obtain ⟨i, hi⟩ := List.mem_iff_getElem?.mp hy
  have hlt : i < xs.length := h.length_eq ▸ (List.getElem?_eq_some_iff.mp hi).1
  exact ⟨xs[i], List.getElem_mem hlt, h.related i xs[i] y (List.getElem?_eq_getElem hlt) hi⟩

end SlotWise

section Arrivals

variable {α : Type} [Scalar α]

theorem compete_cases (p : Population α) (count : Nat) (arrival : Individual α × Nat) :
    Population.compete (p, count) arrival = (p, count) ∨
      ∃ occupant, p.individuals[arrival.2]? = some occupant ∧
        arrival.1.isPreferredOver p.problem occupant = true ∧
        Population.compete (p, count) arrival = (p.set arrival.2 arrival.1, count + 1) := by
  rw [Population.compete, Population.get?]
  cases hslot : p.individuals[arrival.2]? with
  | none => exact .inl rfl
  | some occupant =>
      simp only
      split
      case isTrue hpreferred => exact .inr ⟨occupant, rfl, hpreferred, rfl⟩
      case isFalse => exact .inl rfl

/-- What no arrival destroys when it takes a slot holds after merging all of them. -/
theorem merge_keeps {Keeps : Population α → Prop} {arrivals : List (Individual α × Nat)}
    (h : ∀ p : Population α, ∀ arrival ∈ arrivals, ∀ occupant, Keeps p →
      p.individuals[arrival.2]? = some occupant →
        arrival.1.isPreferredOver p.problem occupant = true → Keeps (p.set arrival.2 arrival.1))
    {p : Population α} (hp : Keeps p) : Keeps (p.merge arrivals).1 := by
  rw [Population.merge]
  generalize 0 = count
  induction arrivals generalizing p count with
  | nil => exact hp
  | cons arrival arrivals ih =>
      have hrest := fun p other hother => h p other (List.mem_cons_of_mem arrival hother)
      rw [List.foldl_cons]
      rcases compete_cases p count arrival with heq | ⟨occupant, hslot, hpreferred, heq⟩
      · rw [heq]
        exact ih hrest hp count
      · rw [heq]
        exact ih hrest (h p arrival List.mem_cons_self occupant hp hslot hpreferred) (count + 1)

theorem overwrite_keeps {Keeps : Population α → Prop} {arrivals : List (Individual α × Nat)}
    (h : ∀ p : Population α, ∀ arrival ∈ arrivals, Keeps p → Keeps (p.set arrival.2 arrival.1))
    {p : Population α} (hp : Keeps p) : Keeps (p.overwrite arrivals) := by
  rw [Population.overwrite]
  induction arrivals generalizing p with
  | nil => exact hp
  | cons arrival arrivals ih =>
      rw [List.foldl_cons]
      exact ih (fun p other hother => h p other (List.mem_cons_of_mem arrival hother))
        (h p arrival List.mem_cons_self hp)

end Arrivals

end Archipelago.Proofs.Merging
