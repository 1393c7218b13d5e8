import Mathlib

/-!
# Half-open intervals and the test on their ends

Two nonempty half-open intervals meet when each begins before the other ends.  A common shortcut
tests the ends of one against the other: one of them lies inside.  `endInside_iff` says what the
shortcut decides: that the intervals meet and that the first does not stick out of the second at
both ends.
-/

set_option autoImplicit false

namespace BurdahDos
namespace Interval

variable {α : Type*} [LinearOrder α]

/-- One of the ends of `[o, e)` lies in `[a, b)`, the upper one counted as belonging to the element
before it. -/
def EndInside (o e a b : α) : Prop := (a ≤ o ∧ o < b) ∨ (a < e ∧ e ≤ b)

/-- `[o, e)` sticks out of `[a, b)` at both ends. -/
def Encloses (o e a b : α) : Prop := o < a ∧ b < e

theorem not_disjoint_Ico_iff {o e a b : α} (ho : o < e) (ha : a < b) :
    ¬ Disjoint (Set.Ico o e) (Set.Ico a b) ↔ o < b ∧ a < e := by
  rw [Set.Ico_disjoint_Ico, not_le, lt_min_iff, max_lt_iff, max_lt_iff]
  exact ⟨fun h => ⟨h.2.1, h.1.2⟩, fun h => ⟨⟨ho, h.2⟩, h.1, ha⟩⟩

/-- **What the test on the ends decides.** -/
theorem endInside_iff {o e a b : α} (ho : o < e) (ha : a < b) :
    EndInside o e a b ↔ ¬ Disjoint (Set.Ico o e) (Set.Ico a b) ∧ ¬ Encloses o e a b := by
  rw [not_disjoint_Ico_iff ho ha]
  constructor
  · rintro (⟨h1, h2⟩ | ⟨h1, h2⟩)
    · exact ⟨⟨h2, h1.trans_lt ho⟩, fun h => absurd h.1 (not_lt.mpr h1)⟩
    · exact ⟨⟨ho.trans_le h2, h1⟩, fun h => absurd h.2 (not_lt.mpr h2)⟩
  · rintro ⟨⟨h1, h2⟩, h⟩
    rcases lt_or_ge o a with hoa | hao
    · exact Or.inr ⟨h2, not_lt.mp fun hbe => h ⟨hoa, hbe⟩⟩
    · exact Or.inl ⟨hao, h1⟩

end Interval
end BurdahDos
