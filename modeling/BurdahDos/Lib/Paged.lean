import Mathlib

/-!
# Chunks of one size

A list in chunks of `size` elements each, of which only the last may be shorter.  The chunks are
those of the list (`chunksOf_spec`); an access to a chunk is one to the list (`getAt_eq`,
`setAt_flatten`), and the chunks written one after the other are the list again
(`takeChunks_eq`).
-/

set_option autoImplicit false

namespace BurdahDos

variable {α : Type*} (size : ℕ)

/-- Take a list apart; `none` if it is too short. -/
def chunksOf : ℕ → ℕ → List α → Option (List (List α))
  | 0, _, _ => some []
  | fuel + 1, n, src =>
    if n = 0 then some []
    else
      let k := min n size
      if src.length < k then none
      else (chunksOf fuel (n - k) (src.drop k)).map (src.take k :: ·)

/-- An element by its position in the list. -/
def getAt (cs : List (List α)) (s : ℕ) : Option α := cs[s / size]?.bind fun page => page[s % size]?

/-- Set an element by its position in the list. -/
def setAt (cs : List (List α)) (s : ℕ) (x : α) : List (List α) :=
  cs.modify (s / size) fun c => c.set (s % size) x

/-- The first elements, from one chunk after the other. -/
def takeChunks : ℕ → List (List α) → List α
  | _, [] => []
  | n, c :: cs => if n = 0 then [] else c.take (min n size) ++ takeChunks (n - min n size) cs

/-- All chunks but the last are full. -/
def Chunked : List (List α) → Prop
  | [] => True
  | c :: cs => c.length ≤ size ∧ (cs ≠ [] → c.length = size) ∧ Chunked cs

variable {size}

/-- The chunks of a list, one after the other, are the list. -/
theorem chunksOf_spec (hsize : 0 < size) (fuel n : ℕ) (src : List α) (hf : n ≤ fuel)
    (hl : n ≤ src.length) :
    ∃ cs, chunksOf size fuel n src = some cs ∧ cs.flatten = src.take n ∧
      Chunked size cs := by
  induction fuel generalizing n src with
  | zero =>
    obtain rfl : n = 0 := by omega
    exact ⟨[], rfl, rfl, trivial⟩
  | succ fuel ih =>
    rw [chunksOf]
    by_cases h0 : n = 0
    · rw [if_pos h0, h0]
      exact ⟨[], rfl, rfl, trivial⟩
    · obtain ⟨cs, hr, hfl, hc⟩ := ih (n - min n size)
        (src.drop (min n size)) (by omega) (by rw [List.length_drop]; omega)
      refine ⟨src.take (min n size) :: cs, ?_, ?_, ?_, ?_, hc⟩
      · simp only [if_neg h0, hr]
        rw [if_neg (by omega)]
        rfl
      · rw [List.flatten_cons, hfl, ← List.take_add]
        congr 1
        omega
      · rw [List.length_take]
        omega
      · intro hne
        rw [List.length_take]
        by_contra hlen
        have he : n - min n size = 0 := by omega
        rw [he] at hr
        cases fuel with
        | zero => exact hne (Option.some.inj hr).symm
        | succ fuel =>
          rw [chunksOf, if_pos rfl] at hr
          exact hne (Option.some.inj hr).symm

theorem div_mod_of_le (hsize : 0 < size) {s : ℕ} (h : size ≤ s) :
    s / size = (s - size) / size + 1 ∧ s % size = (s - size) % size := by
  exact ⟨Nat.div_eq_sub_div hsize h, Nat.mod_eq_sub_mod h⟩

/-- An element of the chunks is one of the list. -/
theorem getAt_eq (hsize : 0 < size) {cs : List (List α)} (h : Chunked size cs) (s : ℕ) :
    getAt size cs s = cs.flatten[s]? := by
  induction cs generalizing s with
  | nil => rfl
  | cons c cs ih =>
    rw [getAt, List.flatten_cons]
    by_cases hs : s < size
    · rw [Nat.div_eq_of_lt hs, Nat.mod_eq_of_lt hs, List.getElem?_cons_zero, Option.bind_some]
      by_cases hl : s < c.length
      · rw [List.getElem?_append_left hl]
      · have hn : cs = [] := by
          by_contra hne
          have hfull := h.2.1 hne
          omega
        rw [hn, List.flatten_nil, List.append_nil]
    · obtain ⟨hd, hm⟩ := div_mod_of_le hsize (Nat.le_of_not_lt hs)
      rw [hd, hm, List.getElem?_cons_succ]
      have hi := ih h.2.2 (s - size)
      rw [getAt] at hi
      rw [hi, List.getElem?_append_right (by have hlen := h.1; omega)]
      by_cases hne : cs = []
      · rw [hne]
        rfl
      · have hfull : c.length = size := h.2.1 hne
        rw [hfull]

theorem setAt_nil (s : ℕ) (x : α) : setAt size [] s x = [] := by
  rw [setAt, List.modify_nil]

/-- What is set in the chunks is set in the list, and they keep their lengths. -/
theorem setAt_flatten (hsize : 0 < size) {cs : List (List α)} (h : Chunked size cs) (s : ℕ)
    (x : α) :
    (setAt size cs s x).flatten = cs.flatten.set s x ∧ Chunked size (setAt size cs s x) := by
  induction cs generalizing s with
  | nil =>
    rw [setAt_nil]
    exact ⟨rfl, trivial⟩
  | cons c cs ih =>
    by_cases hs : s < size
    · have hset : setAt size (c :: cs) s x = c.set s x :: cs := by
        rw [setAt, Nat.div_eq_of_lt hs, Nat.mod_eq_of_lt hs, List.modify_zero_cons]
      rw [hset, List.flatten_cons, List.flatten_cons]
      refine ⟨?_, by rw [List.length_set]; exact h.1, by rw [List.length_set]; exact h.2.1, h.2.2⟩
      by_cases hl : s < c.length
      · rw [List.set_append_left _ _ hl]
      · have hn : cs = [] := by
          by_contra hne
          have hfull := h.2.1 hne
          omega
        rw [hn, List.flatten_nil, List.append_nil, List.append_nil]
    · obtain ⟨hd, hm⟩ := div_mod_of_le hsize (Nat.le_of_not_lt hs)
      have hset : setAt size (c :: cs) s x = c :: setAt size cs (s - size) x := by
        rw [setAt, setAt, hd, hm, List.modify_succ_cons]
      obtain ⟨hfl, hc⟩ := ih h.2.2 (s - size)
      rw [hset, List.flatten_cons, List.flatten_cons, hfl,
        List.set_append_right _ _ (by have hlen := h.1; omega)]
      by_cases hne : cs = []
      · subst hne
        rw [setAt_nil]
        exact ⟨rfl, h⟩
      · have hfull : c.length = size := h.2.1 hne
        rw [hfull]
        exact ⟨rfl, h.1, fun _ => hfull, hc⟩

/-- What is taken from the chunks is taken from the list. -/
theorem takeChunks_eq {cs : List (List α)} (h : Chunked size cs) (n : ℕ) :
    takeChunks size n cs = cs.flatten.take n := by
  induction cs generalizing n with
  | nil => rw [takeChunks, List.flatten_nil, List.take_nil]
  | cons c cs ih =>
    rw [takeChunks, List.flatten_cons]
    by_cases h0 : n = 0
    · rw [if_pos h0, h0, List.take_zero]
    · rw [if_neg h0, ih h.2.2, List.take_append]
      by_cases hne : cs = []
      · rw [hne, List.flatten_nil, List.take_nil, List.take_nil, List.append_nil, List.append_nil]
        by_cases hb : n ≤ size
        · rw [Nat.min_eq_left hb]
        · have hlen := h.1
          rw [List.take_of_length_le (by omega), List.take_of_length_le (by omega)]
      · have hfull : c.length = size := h.2.1 hne
        rw [hfull]
        congr 1
        · by_cases hb : n ≤ size
          · rw [Nat.min_eq_left hb]
          · have hlen := h.1
            rw [List.take_of_length_le (by omega), List.take_of_length_le (by omega)]
        · congr 1
          omega

end BurdahDos
