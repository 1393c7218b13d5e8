import Mathlib

/-!
# Chains in a successor map

A map `next : α → α` and an end mark `stop` link elements into chains: `Chained next stop l` says
that following `next` from the first element of `l` visits the elements of `l` and then gives
`stop`.  Such a chain is what a file allocation table keeps for a file.

A chain changes in three ways, by one write each: an element that is nowhere in it is put at the
end (`Chained.snoc`), it is cut after an element (`Chained.take`), or its first element is taken off
(`Chained.tail`).
-/

set_option autoImplicit false

namespace BurdahDos

variable {α : Type*} {next next' : α → α} {stop : α} {l : List α}

/-- Following `next` from the first element of the list gives the list, and `stop` after it. -/
def Chained (next : α → α) (stop : α) : List α → Prop
  | [] => True
  | c :: l => next c = l.headD stop ∧ Chained next stop l

theorem Chained.tail {c : α} (h : Chained next stop (c :: l)) : Chained next stop l := h.2

/-- Only the successors of its elements matter to a chain. -/
theorem Chained.congr (h : Chained next stop l) (heq : ∀ c ∈ l, next' c = next c) :
    Chained next' stop l := by
  induction l with
  | nil => trivial
  | cons c l ih =>
    exact ⟨(heq c List.mem_cons_self).trans h.1,
      ih h.2 fun d hd => heq d (List.mem_cons_of_mem c hd)⟩

theorem chained_append {l₁ l₂ : List α} : Chained next stop (l₁ ++ l₂) ↔
    Chained next (l₂.headD stop) l₁ ∧ Chained next stop l₂ := by
  induction l₁ with
  | nil => simp [Chained]
  | cons c l₁ ih =>
    rw [List.cons_append, Chained, Chained, ih, and_assoc]
    cases l₁ with
    | nil => cases l₂ <;> rfl
    | cons d l₁ => rfl

/-- Where the successor of the element at position `i` is. -/
theorem Chained.getElem {i : ℕ} {c : α} (h : Chained next stop l) (hi : l[i]? = some c) :
    next c = (l[i + 1]?).getD stop := by
  induction l generalizing i with
  | nil => simp at hi
  | cons d l ih =>
    cases i with
    | zero =>
      obtain rfl : d = c := by simpa using hi
      rw [h.1]
      cases l <;> rfl
    | succ i => simpa using ih h.2 (by simpa using hi)

/-- There is only one chain from where it begins. -/
theorem Chained.unique {l' : List α} (h : Chained next stop l) (h' : Chained next stop l')
    (hstop : stop ∉ l) (hstop' : stop ∉ l') (heq : l.headD stop = l'.headD stop) : l = l' := by
  induction l generalizing l' with
  | nil =>
    cases l' with
    | nil => rfl
    | cons d l' =>
      obtain rfl : stop = d := heq
      exact absurd List.mem_cons_self hstop'
  | cons c l ih =>
    cases l' with
    | nil =>
      obtain rfl : c = stop := heq
      exact absurd List.mem_cons_self hstop
    | cons d l' =>
      obtain rfl : c = d := heq
      rw [ih h.2 h'.2 (fun hm => hstop (List.mem_cons_of_mem c hm))
        (fun hm => hstop' (List.mem_cons_of_mem c hm)) (h.1.symm.trans h'.1)]

/-- The last element gets a successor, which is the new last one. -/
theorem Chained.snoc {c d : α} (h : Chained next stop (l ++ [c])) (hnext : next' d = stop)
    (hc : next' c = d) (heq : ∀ e ∈ l, next' e = next e) :
    Chained next' stop (l ++ [c] ++ [d]) := by
  have hl := (chained_append.mp h).1
  rw [List.append_assoc, chained_append]
  exact ⟨hl.congr heq, hc, hnext, trivial⟩

variable [DecidableEq α]

instance Chained.decidable (next : α → α) (stop : α) : ∀ l, Decidable (Chained next stop l)
  | [] => .isTrue trivial
  | c :: l => @instDecidableAnd _ _ (decEq (next c) (l.headD stop)) (Chained.decidable next stop l)

/-- The elements from position `i` on are cut off. -/
theorem Chained.take {i : ℕ} {c : α} (h : Chained next stop l) (hnd : l.Nodup)
    (hi : l[i]? = some c) : Chained (Function.update next c stop) stop (l.take (i + 1)) := by
  obtain ⟨hlt, rfl⟩ := List.getElem?_eq_some_iff.mp hi
  have hsplit : l = l.take i ++ l[i] :: l.drop (i + 1) := by simp
  rw [hsplit] at h hnd
  rw [List.take_succ_eq_append_getElem hlt, chained_append]
  refine ⟨(chained_append.mp h).1.congr fun d hd => ?_, Function.update_self .., trivial⟩
  have hne : d ≠ l[i] := by
    rintro rfl
    exact (List.disjoint_of_nodup_append hnd) hd List.mem_cons_self
  exact Function.update_of_ne hne _ _

end BurdahDos
