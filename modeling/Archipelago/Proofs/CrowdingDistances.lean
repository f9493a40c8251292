import Archipelago.Crowding
import Mathlib.Data.List.Basic

namespace Archipelago.Proofs.CrowdingDistances

variable {α : Type} [Scalar α] [Extended α]

omit [Extended α] in
theorem widen_length (value : Nat → α) (span : α) (order : List Nat) (distances : List α) :
    (Crowding.widen value span order distances).length = distances.length := by
  fun_induction Crowding.widen value span order distances with
  | case1 distances before slot after rest ih => rw [ih, List.length_modify]
  | case2 => rfl

theorem spread_length (front : List (List α)) (state : List Nat × List α) (objective : Nat) :
    (Crowding.spread front state objective).2.length = state.2.length := by
  rw [Crowding.spread]
  split_ifs
  · simp only [widen_length, List.length_set]
  · simp only [List.length_set]

theorem ofFront_length (front : List (List α)) :
    (Crowding.ofFront front).length = front.length := by
  have hfold : ∀ (objectives : List Nat) (state : List Nat × List α),
      (objectives.foldl (Crowding.spread front) state).2.length = state.2.length := by
    intro objectives
    induction objectives with
    | nil => exact fun _ => rfl
    | cons objective objectives ih =>
        intro state
        rw [List.foldl_cons, ih, spread_length]
  rw [Crowding.ofFront]
  split_ifs
  · rw [List.length_replicate]
  · rw [hfold, List.length_replicate]

theorem assign_length (objectives : List (List α)) (distances : List α) (front : List Nat) :
    (Crowding.assign objectives distances front).length = distances.length := by
  rw [Crowding.assign]
  generalize front.zip _ = entries
  induction entries generalizing distances with
  | nil => rfl
  | cons entry entries ih => rw [List.foldl_cons, ih, List.length_set]

theorem byFront_length (objectives : List (List α)) (fronts : List (List Nat)) :
    (Crowding.byFront objectives fronts).length = objectives.length := by
  have hfold : ∀ distances : List α,
      (fronts.foldl (Crowding.assign objectives) distances).length = distances.length := by
    induction fronts with
    | nil => exact fun _ => rfl
    | cons front fronts ih =>
        intro distances
        rw [List.foldl_cons, ih, assign_length]
  rw [Crowding.byFront, hfold, List.length_replicate]

omit [Scalar α] [Extended α] in
theorem getElem?_foldl_set_of_not_mem {entries : List (Nat × α)} {distances : List α} {i : Nat}
    (hi : i ∉ entries.map Prod.fst) :
    (entries.foldl (fun distances entry => distances.set entry.1 entry.2) distances)[i]? =
      distances[i]? := by
  induction entries generalizing distances with
  | nil => rfl
  | cons entry entries ih =>
      rw [List.map_cons, List.mem_cons, not_or] at hi
      rw [List.foldl_cons, ih hi.2, List.getElem?_set_ne (Ne.symm hi.1)]

omit [Scalar α] [Extended α] in
theorem getElem?_foldl_set {entries : List (Nat × α)} {distances : List α} {i : Nat} {distance : α}
    (hnodup : (entries.map Prod.fst).Nodup) (hi : i < distances.length)
    (hentry : (i, distance) ∈ entries) :
    (entries.foldl (fun distances entry => distances.set entry.1 entry.2) distances)[i]? =
      some distance := by
  induction entries generalizing distances with
  | nil => contradiction
  | cons entry entries ih =>
      rw [List.map_cons, List.nodup_cons] at hnodup
      rw [List.foldl_cons]
      rcases List.mem_cons.mp hentry with rfl | hentry
      · rw [getElem?_foldl_set_of_not_mem hnodup.1, List.getElem?_set_self hi]
      · exact ih hnodup.2 (by rwa [List.length_set]) hentry

variable {objectives : List (List α)} {distances : List α}

theorem map_fst_zip_ofFront (front : List Nat) :
    (front.zip (Crowding.ofFront (front.map fun index => objectives.getD index []))).map Prod.fst =
      front :=
  List.map_fst_zip (Nat.le_of_eq (by rw [ofFront_length, List.length_map]))

theorem assign_of_not_mem {front : List Nat} {i : Nat} (hi : i ∉ front) :
    (Crowding.assign objectives distances front)[i]? = distances[i]? :=
  getElem?_foldl_set_of_not_mem (by rwa [map_fst_zip_ofFront])

theorem assign_of_mem {front : List Nat} {i place : Nat} (hnodup : front.Nodup)
    (hi : i < distances.length) (hplace : front[place]? = some i) :
    (Crowding.assign objectives distances front)[i]? =
      (Crowding.ofFront (front.map fun index => objectives.getD index []))[place]? := by
  have hlt : place <
      (Crowding.ofFront (front.map fun index => objectives.getD index [])).length := by
    rw [ofFront_length, List.length_map]
    exact (List.getElem?_eq_some_iff.mp hplace).1
  obtain ⟨distance, hdistance⟩ : ∃ distance, (Crowding.ofFront
      (front.map fun index => objectives.getD index []))[place]? = some distance :=
    ⟨_, List.getElem?_eq_getElem hlt⟩
  have hentry : (front.zip (Crowding.ofFront
      (front.map fun index => objectives.getD index [])))[place]? = some (i, distance) :=
    List.getElem?_zip_eq_some.mpr ⟨hplace, hdistance⟩
  rw [hdistance]
  exact getElem?_foldl_set (by rwa [map_fst_zip_ofFront]) hi (List.mem_of_getElem? hentry)

theorem foldl_assign_of_not_mem {fronts : List (List Nat)} {i : Nat} (hi : i ∉ fronts.flatten) :
    (fronts.foldl (Crowding.assign objectives) distances)[i]? = distances[i]? := by
  induction fronts generalizing distances with
  | nil => rfl
  | cons front fronts ih =>
      rw [List.flatten_cons, List.mem_append, not_or] at hi
      rw [List.foldl_cons, ih hi.2, assign_of_not_mem hi.1]

theorem foldl_assign_of_mem {fronts : List (List Nat)} {front : List Nat} {i place : Nat}
    (hnodup : fronts.flatten.Nodup) (hi : i < distances.length) (hfront : front ∈ fronts)
    (hplace : front[place]? = some i) :
    (fronts.foldl (Crowding.assign objectives) distances)[i]? =
      (Crowding.ofFront (front.map fun index => objectives.getD index []))[place]? := by
  induction fronts generalizing distances with
  | nil => contradiction
  | cons first fronts ih =>
      rw [List.flatten_cons, List.nodup_append] at hnodup
      obtain ⟨hfirst, hrest, hdisjoint⟩ := hnodup
      rw [List.foldl_cons]
      rcases List.mem_cons.mp hfront with rfl | hfront
      · have hnot : i ∉ fronts.flatten := fun hmem =>
          hdisjoint i (List.mem_of_getElem? hplace) i hmem rfl
        rw [foldl_assign_of_not_mem hnot, assign_of_mem hfirst hi hplace]
      · exact ih hrest (by rwa [assign_length]) hfront

theorem byFront_of_mem {fronts : List (List Nat)} {front : List Nat} {i place : Nat}
    (hnodup : fronts.flatten.Nodup) (hi : i < objectives.length) (hfront : front ∈ fronts)
    (hplace : front[place]? = some i) :
    (Crowding.byFront objectives fronts)[i]? =
      (Crowding.ofFront (front.map fun index => objectives.getD index []))[place]? :=
  foldl_assign_of_mem hnodup (by rwa [List.length_replicate]) hfront hplace

end Archipelago.Proofs.CrowdingDistances
