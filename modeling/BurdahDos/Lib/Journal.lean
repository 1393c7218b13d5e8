import Mathlib

/-!
# Journals

A program that writes down what it does extends a list of events.  `Extends P` says that each event
that is added stands in the relation `P` to those in front of it.  It is shown by one step after the
other, and `Extends.mem` gives it back for an event anywhere in the journal.
-/

set_option autoImplicit false

namespace BurdahDos

variable {ε : Type} {P Q : List ε → ε → Prop} {h h' h'' : List ε}

/-- The journal grows from the first to the second list, by events that fit. -/
inductive Extends (P : List ε → ε → Prop) (h : List ε) : List ε → Prop
  | refl : Extends P h h
  | snoc {h' : List ε} {e : ε} (hs : Extends P h h') (he : P h' e) : Extends P h (h' ++ [e])

theorem Extends.trans (hs : Extends P h h') (hs' : Extends P h' h'') : Extends P h h'' := by
  induction hs' with
  | refl => exact hs
  | snoc _ he ih => exact .snoc ih he

theorem Extends.isPrefix (hs : Extends P h h') : h <+: h' := by
  induction hs with
  | refl => exact List.prefix_refl h
  | snoc _ _ ih => exact List.IsPrefix.trans ih (List.prefix_append _ _)

theorem Extends.subset (hs : Extends P h h') : h ⊆ h' := hs.isPrefix.subset

/-- An event is old, or one that fits. -/
theorem Extends.mem_or (hs : Extends P h h') {e : ε} (he : e ∈ h') :
    e ∈ h ∨ ∃ before, P before e := by
  induction hs with
  | refl => exact Or.inl he
  | snoc _ hp ih =>
    rcases List.mem_append.1 he with he | he
    · exact ih he
    · rw [List.mem_singleton] at he
      exact Or.inr ⟨_, he ▸ hp⟩

/-- An event of a journal fits what is in front of it. -/
theorem Extends.mem (hs : Extends P [] h) {before after : List ε} {e : ε}
    (he : h = before ++ e :: after) : P before e := by
  induction hs generalizing after with
  | refl => cases before <;> cases he
  | snoc _ hp ih =>
    rcases List.eq_nil_or_concat after with rfl | ⟨after', e', rfl⟩
    · obtain ⟨hb, hx⟩ := List.append_inj' he rfl
      obtain rfl := List.singleton_inj.1 hx
      exact hb ▸ hp
    · rw [List.concat_eq_append, ← List.cons_append, ← List.append_assoc] at he
      exact ih (List.append_inj' he rfl).1

end BurdahDos
