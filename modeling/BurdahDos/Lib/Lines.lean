import Mathlib

/-!
# Lines

A text is a list in which a certain element ends a line.  `List.splitOn` gives its lines, of which
the last is not ended, and is empty where the text ends with a line that is.

* `lines_induct`: induction over the lines of a text.
* `takeWhile_ends`, `dropWhile_ends`: a loop that stops in front of what is behind.
* `flatMap_eq_iff`: two things done with every line, of which one does less.
-/

set_option autoImplicit false

namespace BurdahDos

variable {α β : Type*}

section

variable [BEq α] [LawfulBEq α] {nl : α} {l f : List α}

/-- Induction over the lines of a text, from the last. -/
theorem lines_induct (nl : α) {P : List α → Prop} (last : ∀ l, nl ∉ l → P l)
    (line : ∀ l f, nl ∉ l → P f → P (l ++ nl :: f)) (f : List α) : P f := by
  obtain ⟨n, hn⟩ : ∃ n, f.length ≤ n := ⟨_, le_rfl⟩
  induction n generalizing f with
  | zero =>
    obtain rfl := List.length_eq_zero_iff.1 (Nat.le_zero.1 hn)
    exact last [] List.not_mem_nil
  | succ n ih =>
    by_cases hmem : nl ∈ f
    · obtain ⟨l, f, rfl, hl⟩ := List.eq_append_cons_of_mem hmem
      rw [List.length_append, List.length_cons] at hn
      exact line l f hl (ih f (by omega))
    · exact last f hmem

/-- The line that is not ended. -/
def lastLine (nl : α) (f : List α) : List α := (f.splitOn nl).getLast (List.splitOn_ne_nil nl f)

theorem lastLine_single (hl : nl ∉ l) : lastLine nl l = l := by
  simp [lastLine, List.splitOn_eq_singleton hl]

theorem lastLine_line (hl : nl ∉ l) : lastLine nl (l ++ nl :: f) = lastLine nl f := by
  simp only [lastLine, List.splitOn_append_cons_self_of_not_mem hl]
  exact List.getLast_cons (List.splitOn_ne_nil nl f)

/-- The lines that are ended. -/
theorem dropLast_splitOn (hl : nl ∉ l) :
    ((l ++ nl :: f).splitOn nl).dropLast = l :: (f.splitOn nl).dropLast := by
  rw [List.splitOn_append_cons_self_of_not_mem hl,
    List.dropLast_cons_of_ne_nil (List.splitOn_ne_nil nl f)]

omit [LawfulBEq α] in
theorem splitOn_eq_lastLine (nl : α) (f : List α) :
    f.splitOn nl = (f.splitOn nl).dropLast ++ [lastLine nl f] :=
  (List.dropLast_concat_getLast (List.splitOn_ne_nil nl f)).symm

end

/-! ## Loops over characters -/

section

variable {p : α → Bool} {l s : List α}

theorem takeWhile_ends (hs : ∀ c ∈ s.head?, p c = false) :
    (l ++ s).takeWhile p = l.takeWhile p := by
  cases s with
  | nil => rw [List.append_nil]
  | cons c s =>
    have hc : p c = false := hs c rfl
    rw [List.takeWhile_append]
    split
    next h =>
      rw [List.takeWhile_cons_of_neg (by simp [hc]), List.append_nil,
        ((List.takeWhile_prefix p).eq_of_length h)]
    next => rfl

theorem dropWhile_ends (hs : ∀ c ∈ s.head?, p c = false) :
    (l ++ s).dropWhile p = l.dropWhile p ++ s := by
  induction l with
  | nil =>
    cases s with
    | nil => rfl
    | cons c s => exact List.dropWhile_cons_of_neg (by simp [hs c rfl])
  | cons c l ih =>
    cases hc : p c with
    | true =>
      rw [List.cons_append, List.dropWhile_cons_of_pos hc, ih, List.dropWhile_cons_of_pos hc]
    | false =>
      rw [List.cons_append, List.dropWhile_cons_of_neg (by simp [hc]),
        List.dropWhile_cons_of_neg (by simp [hc]), List.cons_append]

end

/-! ## What is done with every line -/

/-- What does less with every line does the same with all exactly if it does with each. -/
theorem flatMap_eq_iff {A B : α → List β} {ls : List α} (h : ∀ l ∈ ls, List.Sublist (A l) (B l)) :
    ls.flatMap A = ls.flatMap B ↔ ∀ l ∈ ls, A l = B l := by
  induction ls with
  | nil => simp
  | cons l ls ih =>
    rw [List.forall_mem_cons] at h
    rw [List.flatMap_cons, List.flatMap_cons, List.forall_mem_cons, ← ih h.2]
    constructor
    · intro heq
      have hle := h.1.length_le
      have hle' := (List.Sublist.flatMap_right ls h.2).length_le
      have hlen := congrArg List.length heq
      rw [List.length_append, List.length_append] at hlen
      exact List.append_inj heq (by omega)
    · rintro ⟨hl, hls⟩
      rw [hl, hls]

end BurdahDos
