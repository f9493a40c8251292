import Archipelago.Annealing
import Archipelago.Proofs.ReadBack
import Archipelago.Proofs.Runs
import Archipelago.Proofs.Sweeps

namespace Archipelago.Proofs.Identifiers

open Annealing
open Numerals
open ReadBack
open Runs
open Sweeps

theorem eq_of_append_cons_eq {β : Type} {xs xs' ys ys' : List β} {separator : β}
    (hys : separator ∉ ys) (hys' : separator ∉ ys')
    (h : xs ++ separator :: ys = xs' ++ separator :: ys') : xs = xs' ∧ ys = ys' := by
  rcases append_eq_append_cons h with ⟨middle, -, rfl⟩ | ⟨middle, rfl, hrest⟩
  · exact absurd List.mem_append_cons_self hys'
  · cases middle with
    | nil => exact ⟨(List.append_nil xs).symm, (List.cons.inj hrest).2⟩
    | cons first middle =>
        rw [(List.cons.inj hrest).2] at hys
        exact absurd List.mem_append_cons_self hys

/-- A text, and after it the values with a label in front of each. -/
def labelled (start : List Char) (entries : List (List Char × List Char)) : List Char :=
  entries.foldl (fun text entry => text ++ entry.1 ++ '=' :: entry.2) start

/-- The values are found from the right if the sign in front of them is in none of them.  What is
left is the text, which may contain anything. -/
theorem eq_of_labelled_eq {start start' : List Char}
    {entries entries' : List (List Char × List Char)}
    (hlabels : entries.map Prod.fst = entries'.map Prod.fst)
    (hvalues : ∀ entry ∈ entries, '=' ∉ entry.2) (hvalues' : ∀ entry ∈ entries', '=' ∉ entry.2)
    (h : labelled start entries = labelled start' entries') :
    start = start' ∧ entries = entries' := by
  induction entries generalizing start start' entries' with
  | nil =>
      rw [List.map_nil, eq_comm, List.map_eq_nil_iff] at hlabels
      subst hlabels
      exact ⟨h, rfl⟩
  | cons entry entries ih =>
      cases entries' with
      | nil => contradiction
      | cons entry' entries' =>
          obtain ⟨label, value⟩ := entry
          obtain ⟨label', value'⟩ := entry'
          rw [List.map_cons, List.map_cons, List.cons.injEq] at hlabels
          obtain ⟨rfl, hlabels⟩ := hlabels
          rw [List.forall_mem_cons] at hvalues hvalues'
          obtain ⟨hfirst, rfl⟩ := ih hlabels hvalues.2 hvalues'.2 h
          obtain ⟨hstart, rfl⟩ := eq_of_append_cons_eq hvalues.1 hvalues'.1 hfirst
          exact ⟨List.append_cancel_right hstart, rfl⟩

/-- The parameters of an annealer, as they are written in its identifier. -/
def parameters (config : Config Binary64) : List (List Char × List Char) :=
  [("[iterations".toList, Decimal.numeral config.totalIterations),
    (", start".toList, (Numeral.plain config.startTemperature).toList),
    (", end".toList, (Numeral.plain config.endTemperature).toList),
    (", per_temperature".toList, Decimal.numeral config.perTemperature),
    (", per_range_adjust".toList, Decimal.numeral config.perRangeAdjust),
    (", range".toList, (Numeral.plain config.stepRange).toList)]

theorem toList_identifier (annealer : Annealer Binary64) :
    annealer.identifier.toList =
      labelled annealer.name.toList (parameters annealer.config) ++ [']'] := by
  have htext : ∀ text : String, toString text = text := fun _ => rfl
  simp [Annealer.identifier, labelled, parameters, Decimal.numeral, htext]

theorem defined_of_annealer (annealer : Annealer Binary64) :
    annealer.config.startTemperature.isNaN = false ∧
      annealer.config.endTemperature.isNaN = false ∧ annealer.config.stepRange.isNaN = false := by
  obtain ⟨-, ⟨-, hlt⟩, hrange, -⟩ := config_check_eq_ok_iff.mp annealer.check_eq
  exact ⟨hlt.2.1, hlt.1, hrange.2.1⟩

theorem not_mem_parameters (annealer : Annealer Binary64) :
    ∀ entry ∈ parameters annealer.config, '=' ∉ entry.2 := by
  obtain ⟨hstart, hend, hrange⟩ := defined_of_annealer annealer
  have hnumber : ∀ {x : Binary64}, x.isNaN = false → '=' ∉ (Numeral.plain x).toList :=
    fun hx => not_mem_plain hx (by decide) (by decide)
  have hcount : ∀ n : Nat, '=' ∉ Decimal.numeral n := by
    intro n hmem
    exact absurd (isDigit_of_mem_numeral hmem) (by decide)
  simp only [parameters, List.forall_mem_cons, hcount, hnumber hstart, hnumber hend,
    hnumber hrange]
  exact ⟨nofun, nofun, nofun, nofun, nofun, nofun, nofun⟩

theorem config_eq_of_parameters_eq {a b : Annealer Binary64}
    (h : parameters a.config = parameters b.config) : a.config = b.config := by
  obtain ⟨hstart, hend, hrange⟩ := defined_of_annealer a
  obtain ⟨hstart', hend', hrange'⟩ := defined_of_annealer b
  have hnumber : ∀ {x y : Binary64}, x.isNaN = false → y.isNaN = false →
      (Numeral.plain x).toList = (Numeral.plain y).toList → x = y :=
    fun hx hy htext => eq_of_plain_eq hx hy (String.toList_inj.mp htext)
  generalize a.config = c at *
  generalize b.config = d at *
  obtain ⟨total, start, stop, perTemperature, perRangeAdjust, range⟩ := c
  obtain ⟨total', start', stop', perTemperature', perRangeAdjust', range'⟩ := d
  simp only [parameters, List.cons.injEq, Prod.mk.injEq, true_and, and_true] at h
  obtain ⟨htotal, hfirst, hlast, hadjustments, hsweeps, hstep⟩ := h
  rw [Config.mk.injEq]
  exact ⟨numeral_injective htotal, hnumber hstart hstart' hfirst, hnumber hend hend' hlast,
    numeral_injective hadjustments, numeral_injective hsweeps, hnumber hrange hrange' hstep⟩

/-- Two annealers have the same identifier only if they have the same name and the same parameters,
bit for bit.  A name that looks like an identifier does not deceive. -/
theorem identifier_belongs_to_one_annealer (a b : Annealer Binary64) :
    a.identifier = b.identifier ↔ a.name = b.name ∧ a.config = b.config := by
  constructor
  · intro h
    have hlabels : (parameters a.config).map Prod.fst = (parameters b.config).map Prod.fst := rfl
    have htext := congrArg String.toList h
    rw [toList_identifier, toList_identifier] at htext
    obtain ⟨hname, hparameters⟩ := eq_of_labelled_eq hlabels (not_mem_parameters a)
      (not_mem_parameters b) (List.append_cancel_right htext)
    exact ⟨String.toList_inj.mp hname, config_eq_of_parameters_eq hparameters⟩
  · rintro ⟨hname, hconfig⟩
    rw [Annealer.identifier, Annealer.identifier, hname, hconfig]

end Archipelago.Proofs.Identifiers
