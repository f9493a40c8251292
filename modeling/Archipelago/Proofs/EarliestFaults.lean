import Archipelago.Proofs.Actions
import Mathlib.Data.List.Lex

/-!
A sequence of checks stops at the first one that fails.  If the places of all faults are numbered in
the order of the checks, then this is the earliest fault.
-/

namespace Archipelago.Proofs.EarliestFaults

variable {ε β : Type}

/-- Where a fault is found.  Places are numbered like the paragraphs of an outline, and they come in
the order of an outline. -/
abbrev Place :=
  List Nat

def Faultless (fault : Place → ε → Prop) : Prop :=
  ∀ place cause, ¬fault place cause

/-- The cause of a fault that has no fault before it. -/
def Earliest (fault : Place → ε → Prop) (cause : ε) : Prop :=
  ∃ place, fault place cause ∧ ∀ earlier < place, ∀ other, ¬fault earlier other

/-- The faults of a part that has a number of its own. -/
def under (number : Nat) (fault : Place → ε → Prop) (place : Place) (cause : ε) : Prop :=
  ∃ rest, place = number :: rest ∧ fault rest cause

/-- The faults of parts that are numbered from `start` on. -/
def listed (start : Nat) (fault : Nat → Place → ε → Prop) (place : Place) (cause : ε) : Prop :=
  ∃ offset, under (start + offset) (fault offset) place cause

/-- A check refuses what has a fault, and gives the cause of the earliest one. -/
structure Reports (check : Except ε Unit) (fault : Place → ε → Prop) : Prop where
  faultless : check = .ok () → Faultless fault
  earliest : ∀ cause, check = .error cause → Earliest fault cause

section Rules

variable {check next : Except ε Unit} {fault first second : Place → ε → Prop}

theorem Earliest.unique (hsingle : ∀ place a b, fault place a → fault place b → a = b) {a b : ε}
    (ha : Earliest fault a) (hb : Earliest fault b) : a = b := by
  obtain ⟨p, hp, hpfirst⟩ := ha
  obtain ⟨q, hq, hqfirst⟩ := hb
  rcases lt_trichotomy p q with hlt | rfl | hlt
  · exact absurd hp (hqfirst p hlt a)
  · exact hsingle p a b hp hq
  · exact absurd hq (hpfirst q hlt b)

theorem Reports.congr (h : Reports check first)
    (hiff : ∀ place cause, second place cause ↔ first place cause) : Reports check second := by
  obtain rfl : second = first := funext fun place => funext fun cause => propext (hiff place cause)
  exact h

theorem reports_ok (h : Faultless fault) : Reports (.ok ()) fault :=
  ⟨fun _ => h, nofun⟩

theorem reports_guard {p : Prop} [Decidable p] (place : Place) (cause : ε) :
    Reports (if p then .error cause else .ok ()) fun other found =>
      p ∧ other = place ∧ found = cause := by
  split_ifs with hp
  · refine ⟨nofun, ?_⟩
    intro found hfound
    cases hfound
    refine ⟨place, ⟨hp, rfl, rfl⟩, ?_⟩
    intro earlier hlt other hother
    exact absurd hother.2.1 hlt.ne
  · exact reports_ok fun place cause hfault => hp hfault.1

/-- Faults that are found by the first of two checks have to come before those of the second. -/
theorem Reports.bind (hcheck : Reports check first) (hnext : check = .ok () → Reports next second)
    (hbefore : ∀ p q a b, first p a → second q b → p < q) :
    Reports (check >>= fun _ => next) fun place cause =>
      first place cause ∨ second place cause := by
  cases hresult : check with
  | error cause =>
      refine ⟨nofun, ?_⟩
      intro found hfound
      cases hfound
      obtain ⟨place, hplace, hfirst⟩ := hcheck.earliest cause hresult
      refine ⟨place, .inl hplace, ?_⟩
      intro earlier hlt other hother
      rcases hother with hother | hother
      · exact hfirst earlier hlt other hother
      · exact lt_asymm hlt (hbefore place earlier cause other hplace hother)
  | ok =>
      have hclean := hcheck.faultless hresult
      constructor
      · intro hok place cause hfault
        exact hfault.elim (hclean place cause) ((hnext hresult).faultless hok place cause)
      · intro cause herror
        obtain ⟨place, hplace, hfirst⟩ := (hnext hresult).earliest cause herror
        refine ⟨place, .inr hplace, ?_⟩
        intro earlier hlt other hother
        exact hother.elim (hclean earlier other) (hfirst earlier hlt other)

theorem Reports.under (h : Reports check fault) (number : Nat) :
    Reports check (under number fault) := by
  constructor
  · rintro hok place cause ⟨rest, -, hrest⟩
    exact h.faultless hok rest cause hrest
  · intro cause herror
    obtain ⟨place, hplace, hfirst⟩ := h.earliest cause herror
    refine ⟨number :: place, ⟨place, rfl, hplace⟩, ?_⟩
    rintro earlier hlt other ⟨rest, rfl, hrest⟩
    exact hfirst rest (List.cons_lt_cons_self.mp hlt) other hrest

theorem under_lt_under {m n : Nat} (hlt : m < n) {p q : Place} {a b : ε}
    (hp : under m first p a) (hq : under n second q b) : p < q := by
  obtain ⟨rest, rfl, -⟩ := hp
  obtain ⟨rest, rfl, -⟩ := hq
  exact List.cons_lt_cons_iff.mpr (.inl hlt)

theorem listed_iff {start : Nat} {faults : Nat → Place → ε → Prop} {place : Place} {cause : ε} :
    listed start faults place cause ↔
      under start (faults 0) place cause ∨
        listed (start + 1) (fun offset => faults (offset + 1)) place cause := by
  have hsucc : ∀ offset, start + 1 + offset = start + (offset + 1) := fun offset => by omega
  constructor
  · rintro ⟨offset, hoffset⟩
    cases offset with
    | zero => exact .inl hoffset
    | succ offset => exact .inr ⟨offset, by rwa [hsucc]⟩
  · rintro (hzero | ⟨offset, hoffset⟩)
    · exact ⟨0, hzero⟩
    · exact ⟨offset + 1, by rwa [hsucc] at hoffset⟩

theorem listed_zero_iff {faults : Nat → Place → ε → Prop} {place : Place} {cause : ε} :
    listed 0 faults place cause ↔
      ∃ offset rest, place = offset :: rest ∧ faults offset rest cause := by
  simp only [listed, under, Nat.zero_add]

theorem Reports.cons {start : Nat} {faults : Nat → Place → ε → Prop}
    (hhead : Reports check (faults 0))
    (htail : check = .ok () →
      Reports next (listed (start + 1) fun offset => faults (offset + 1))) :
    Reports (check >>= fun _ => next) (listed start faults) := by
  refine ((hhead.under start).bind htail ?_).congr fun place cause => listed_iff
  rintro p q a b hp ⟨offset, hq⟩
  exact under_lt_under (by omega) hp hq

theorem reports_forM {f : β → Except ε Unit} {faults : β → Place → ε → Prop} (xs : List β)
    (h : ∀ x ∈ xs, Reports (f x) (faults x)) (start : Nat) :
    Reports (xs.forM f) (listed start fun offset place cause =>
      ∃ x, xs[offset]? = some x ∧ faults x place cause) := by
  induction xs generalizing start with
  | nil =>
      refine reports_ok ?_
      rintro place cause ⟨offset, rest, -, x, hx, -⟩
      contradiction
  | cons x xs ih =>
      obtain ⟨hx, hxs⟩ := List.forall_mem_cons.mp h
      refine Reports.cons (hx.congr ?_) fun _ => ih hxs (start + 1)
      intro place cause
      simp

theorem reports_guards {p q : Prop} [Decidable p] [Decidable q] (a b : ε) :
    Reports (if p then .error a else if q then .error b else .ok ()) fun place cause =>
      p ∧ place = [0] ∧ cause = a ∨ q ∧ place = [1] ∧ cause = b := by
  have hbefore : ∀ (place other : Place) (found cause : ε), p ∧ place = [0] ∧ found = a →
      q ∧ other = [1] ∧ cause = b → place < other := by
    rintro _ _ _ _ ⟨-, rfl, -⟩ ⟨-, rfl, -⟩
    decide
  have hguards :=
    (reports_guard (p := p) [0] a).bind (fun _ => reports_guard (p := q) [1] b) hbefore
  by_cases hp : p
  · rw [if_pos hp] at hguards ⊢
    exact hguards
  · rw [if_neg hp] at hguards ⊢
    exact hguards

theorem guards_bind {p q : Prop} [Decidable p] [Decidable q] (a b : ε) (next : Except ε Unit) :
    (if p then .error a else if q then .error b else next) =
      (if p then .error a else if q then .error b else .ok ()) >>= fun _ => next := by
  split_ifs
  · rfl
  · rfl
  · rfl

end Rules

end Archipelago.Proofs.EarliestFaults
