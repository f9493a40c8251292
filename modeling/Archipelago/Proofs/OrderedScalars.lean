import Archipelago.Binary64

namespace Archipelago.Binary64

variable {x y z : Binary64}

theorem le_of_lt (h : x < y) : x ≤ y :=
  ⟨h.1, h.2.1, Int.le_of_lt h.2.2⟩

theorem le_trans (hxy : x ≤ y) (hyz : y ≤ z) : x ≤ z :=
  ⟨hxy.1, hyz.2.1, Int.le_trans hxy.2.2 hyz.2.2⟩

theorem lt_of_le_of_lt (hxy : x ≤ y) (hyz : y < z) : x < z :=
  ⟨hxy.1, hyz.2.1, Int.lt_of_le_of_lt hxy.2.2 hyz.2.2⟩

theorem lt_of_lt_of_le (hxy : x < y) (hyz : y ≤ z) : x < z :=
  ⟨hxy.1, hyz.2.1, Int.lt_of_lt_of_le hxy.2.2 hyz.2.2⟩

theorem not_lt_of_le (h : x ≤ y) : ¬y < x :=
  fun hlt => Int.not_lt.mpr h.2.2 hlt.2.2

end Archipelago.Binary64

namespace Archipelago.Proofs.OrderedScalars

/-- Numbers whose order is strict.  A number that is comparable with itself is also comparable with
one of any two numbers that are in order; other numbers stand for undefined results. -/
class OrderedScalar (α : Type) [Scalar α] : Prop where
  lt_irrefl : ∀ a : α, ¬a < a
  lt_trans : ∀ {a b c : α}, a < b → b < c → a < c
  lt_or_lt : ∀ {a b c : α}, b ≤ b → a < c → a < b ∨ b < c

/-- Every entry of a vector is comparable with itself. -/
def AllDefined {α : Type} [Scalar α] (xs : List α) : Prop :=
  ∀ x ∈ xs, x ≤ x

theorem lt_iff {x y : Binary64} :
    x < y ↔ x.isNaN = false ∧ y.isNaN = false ∧ x.signed < y.signed :=
  Iff.rfl

theorem le_iff {x y : Binary64} :
    x ≤ y ↔ x.isNaN = false ∧ y.isNaN = false ∧ x.signed ≤ y.signed :=
  Iff.rfl

theorem le_self_iff {x : Binary64} : x ≤ x ↔ x.isNaN = false := by
  simp [le_iff]

theorem le_of_not_lt {x y : Binary64} (hx : x.isNaN = false) (hy : y.isNaN = false)
    (h : ¬y < x) : x ≤ y :=
  ⟨hx, hy, Int.not_lt.mp fun hlt => h ⟨hy, hx, hlt⟩⟩

instance : OrderedScalar Binary64 where
  lt_irrefl a := by simp [lt_iff]
  lt_trans {a b c} := by
    rw [lt_iff, lt_iff, lt_iff]
    rintro ⟨ha, -, hab⟩ ⟨-, hc, hbc⟩
    exact ⟨ha, hc, by omega⟩
  lt_or_lt {a b c} := by
    rw [le_self_iff, lt_iff, lt_iff, lt_iff]
    rintro hb ⟨ha, hc, hac⟩
    rcases Int.lt_or_le a.signed b.signed with h | h
    · exact .inl ⟨ha, hb, h⟩
    · exact .inr ⟨hb, hc, by omega⟩

theorem allDefined_iff {xs : List Binary64} : AllDefined xs ↔ ∀ x ∈ xs, x.isNaN = false := by
  simp only [AllDefined, le_self_iff]

end Archipelago.Proofs.OrderedScalars
