import Mathlib

/-!
# Strings in arrays

An array is the list of its bytes.  A string is what it holds from a position on, up to the first
NUL. An access that is not inside of the array has no outcome, which is `none`; so a function that
has an outcome has accessed nothing else.

* `Holds`: a string begins at a position; `str_eq_some` says that it is the one that is read there.
* `write_isSome`, `strcpy_isSome`, `strcat_isSome`: when a write has an outcome.
* `Holds.below`, `Holds.above`: a write leaves the strings in front of it and behind it.
* `holds_strcpy`, `Holds.strcat`, `Holds.prepend`: what is there after a string has been written.
-/

set_option autoImplicit false

namespace BurdahDos
namespace CString

/-- The bytes of an array. -/
abbrev Bytes := List UInt8

/-- The string `s` begins at position `i`. -/
def Holds (b : Bytes) (i : ℕ) (s : List UInt8) : Prop := s ++ [0] <+: b.drop i ∧ 0 ∉ s

/-- The string at position `i`. -/
def str (b : Bytes) (i : ℕ) : Option (List UInt8) :=
  if 0 ∈ b.drop i then some ((b.drop i).takeWhile (· != 0)) else none

/-- The bytes `s` are written at position `i`. -/
def write (b : Bytes) (i : ℕ) (s : List UInt8) : Option Bytes :=
  if i + s.length ≤ b.length then some (b.take i ++ s ++ b.drop (i + s.length)) else none

/-- A byte is written. -/
def store (b : Bytes) (i : ℕ) (c : UInt8) : Option Bytes := write b i [c]

/-- `strcpy` -/
def strcpy (b : Bytes) (i : ℕ) (s : List UInt8) : Option Bytes := write b i (s ++ [0])

/-- `strcat` -/
def strcat (b : Bytes) (i : ℕ) (s : List UInt8) : Option Bytes :=
  (str b i).bind fun t => strcpy b (i + t.length) s

/-- `memmove`, from position `j` to position `i` -/
def memmove (b : Bytes) (i j n : ℕ) : Option Bytes :=
  if j + n ≤ b.length then write b i ((b.drop j).take n) else none

variable {b b' : Bytes} {i j : ℕ} {s t : List UInt8} {c : UInt8}

/-! ## Reading -/

theorem takeWhile_nul (hs : 0 ∉ s) (rest : List UInt8) :
    (s ++ 0 :: rest).takeWhile (· != 0) = s := by
  rw [List.takeWhile_append_of_pos]
  · simp
  · intro c hc
    rw [bne_iff_ne]
    rintro rfl
    exact hs hc

theorem str_eq_some : str b i = some s ↔ Holds b i s := by
  rw [str]
  constructor
  · intro h
    split at h
    · rename_i hmem
      obtain ⟨pre, post, hsplit, hpre⟩ := List.eq_append_cons_of_mem hmem
      rw [hsplit, takeWhile_nul hpre, Option.some.injEq] at h
      exact ⟨⟨post, by rw [hsplit, h]; simp⟩, h ▸ hpre⟩
    · cases h
  · rintro ⟨⟨rest, hrest⟩, hs⟩
    rw [List.append_assoc, List.singleton_append] at hrest
    rw [if_pos (by rw [← hrest]; simp), ← hrest, takeWhile_nul hs]

theorem holds_append (pre rest : Bytes) (hs : 0 ∉ s) :
    Holds (pre ++ (s ++ 0 :: rest)) pre.length s := by
  refine ⟨⟨rest, ?_⟩, hs⟩
  rw [List.drop_left, List.append_assoc, List.singleton_append]

theorem Holds.str (h : Holds b i s) : str b i = some s := str_eq_some.mpr h

theorem Holds.unique (h : Holds b i s) (h' : Holds b i t) : s = t :=
  Option.some.inj (h.str.symm.trans h'.str)

theorem Holds.length_lt (h : Holds b i s) : i + s.length < b.length := by
  have hle := h.1.length_le
  rw [List.length_append, List.length_singleton, List.length_drop] at hle
  omega

theorem Holds.drop_eq (h : Holds b i s) : ∃ rest, b.drop i = s ++ 0 :: rest := by
  obtain ⟨rest, hrest⟩ := h.1
  exact ⟨rest, by rw [← hrest, List.append_assoc, List.singleton_append]⟩

/-- A byte of a string, or the NUL at its end. -/
theorem Holds.get (h : Holds b i s) (hj : j ≤ s.length) : b[i + j]? = (s ++ [0])[j]? := by
  obtain ⟨rest, hrest⟩ := h.1
  rw [← List.getElem?_drop, ← hrest, List.getElem?_append_left]
  rw [List.length_append, List.length_singleton]
  omega

theorem Holds.get_nul (h : Holds b i s) : b[i + s.length]? = some 0 := by
  rw [h.get (Nat.le_refl _)]
  simp

/-- The rest of a string. -/
theorem Holds.tail (h : Holds b i (s ++ t)) : Holds b (i + s.length) t := by
  obtain ⟨rest, hrest⟩ := h.drop_eq
  refine ⟨⟨rest, ?_⟩, fun hmem => h.2 (List.mem_append_right s hmem)⟩
  rw [← List.drop_drop, hrest, List.append_assoc, List.append_assoc, List.drop_left,
    List.singleton_append]

/-- A byte in front of a string makes it longer. -/
theorem Holds.cons (h : Holds b (i + 1) s) (hc : b[i]? = some c) (hne : c ≠ 0) :
    Holds b i (c :: s) := by
  obtain ⟨rest, hrest⟩ := h.drop_eq
  refine ⟨⟨rest, ?_⟩, fun hmem => (List.mem_cons.mp hmem).elim (fun heq => hne heq.symm) h.2⟩
  obtain ⟨hlt, rfl⟩ := List.getElem?_eq_some_iff.mp hc
  rw [List.drop_eq_getElem_cons hlt, hrest]
  simp

/-! ## Writing -/

theorem write_isSome : (write b i s).isSome ↔ i + s.length ≤ b.length := by
  rw [write]
  split <;> simp [*]

theorem write_of_le (h : i + s.length ≤ b.length) :
    write b i s = some (b.take i ++ s ++ b.drop (i + s.length)) := if_pos h

theorem le_of_write (h : write b i s = some b') : i + s.length ≤ b.length :=
  write_isSome.mp (Option.isSome_of_eq_some h)

theorem eq_of_write (h : write b i s = some b') : b' = b.take i ++ s ++ b.drop (i + s.length) := by
  rw [write_of_le (le_of_write h)] at h
  exact (Option.some.inj h).symm

theorem length_write (h : write b i s = some b') : b'.length = b.length := by
  have hle := le_of_write h
  rw [eq_of_write h]
  simp only [List.length_append, List.length_take, List.length_drop]
  omega

theorem take_write (h : write b i s = some b') : b'.take i = b.take i := by
  have hle := le_of_write h
  rw [eq_of_write h, List.append_assoc, List.take_append_of_le_length]
  · rw [List.take_take, Nat.min_self]
  · rw [List.length_take]
    omega

/-- What is in front of the end of a write. -/
theorem take_end_write (h : write b i s = some b') : b'.take (i + s.length) = b.take i ++ s := by
  have hle := le_of_write h
  have hlen : (b.take i ++ s).length = i + s.length := by
    rw [List.length_append, List.length_take]
    omega
  rw [eq_of_write h, ← hlen, List.take_left]

theorem drop_write (h : write b i s = some b') : b'.drop i = s ++ b.drop (i + s.length) := by
  have hle := le_of_write h
  rw [eq_of_write h, List.append_assoc, List.drop_append_of_le_length]
  · rw [List.drop_take, Nat.sub_self, List.take_zero, List.nil_append]
  · rw [List.length_take]
    omega

theorem drop_write_of_le (h : write b i s = some b') (hj : i + s.length ≤ j) :
    b'.drop j = b.drop j := by
  obtain ⟨k, rfl⟩ := Nat.exists_eq_add_of_le hj
  rw [← List.drop_drop, ← List.drop_drop, drop_write h, List.drop_left, List.drop_drop]

theorem get_write_of_lt (h : write b i s = some b') (hj : j < i) : b'[j]? = b[j]? := by
  rw [← List.getElem?_take_of_lt hj, take_write h, List.getElem?_take_of_lt hj]

theorem get_write_of_le (h : write b i s = some b') (hj : i + s.length ≤ j) : b'[j]? = b[j]? := by
  have hdrop := congrArg (·[0]?) (drop_write_of_le h hj)
  simpa only [List.getElem?_drop, Nat.add_zero] using hdrop

theorem get_write_mid (h : write b i s = some b') (hj : j < s.length) : b'[i + j]? = s[j]? := by
  rw [← List.getElem?_drop, drop_write h, List.getElem?_append_left hj]

/-- A write to a part of an array. -/
theorem write_append (pre old post : Bytes) (h : old.length = s.length) :
    write (pre ++ (old ++ post)) pre.length s = some (pre ++ (s ++ post)) := by
  rw [write_of_le (by simp only [List.length_append]; omega), List.take_left, ← h,
    ← List.drop_drop, List.drop_left, List.drop_left, List.append_assoc]

/-- Two writes, the second right behind the first. -/
theorem write_write (h : write b i s = some b') : write b' (i + s.length) t = write b i (s ++ t) := by
  have hle := le_of_write h
  rw [write, write, length_write h, List.length_append, Nat.add_assoc, take_end_write h,
    drop_write_of_le h (by omega)]
  simp only [List.append_assoc]

theorem write_nil (h : i ≤ b.length) : write b i [] = some b := by
  rw [write_of_le h, List.length_nil, Nat.add_zero, List.append_nil, List.take_append_drop]

/-- A byte is written, and then the one that was there. -/
theorem store_restore (hc : b[i]? = some c) (d : UInt8) :
    ∃ b', store b i d = some b' ∧ store b' i c = some b := by
  obtain ⟨hlt, rfl⟩ := List.getElem?_eq_some_iff.mp hc
  have hlen : (b.take i).length = i := by
    rw [List.length_take]
    omega
  have hsplit : b = b.take i ++ ([b[i]] ++ b.drop (i + 1)) := by
    rw [List.singleton_append, ← List.drop_eq_getElem_cons hlt, List.take_append_drop]
  have hput : ∀ x y : UInt8, store (b.take i ++ ([x] ++ b.drop (i + 1))) i y =
      some (b.take i ++ ([y] ++ b.drop (i + 1))) := by
    intro x y
    have hw := @write_append [y] (b.take i) [x] (b.drop (i + 1)) rfl
    rwa [hlen] at hw
  refine ⟨b.take i ++ ([d] ++ b.drop (i + 1)), ?_, ?_⟩
  · conv_lhs => rw [hsplit]
    exact hput b[i] d
  · rw [hput d b[i], ← hsplit]

/-- A part of a string is moved. -/
theorem Holds.memmove_eq (h : Holds b j (s ++ t)) : memmove b i j s.length = write b i s := by
  obtain ⟨rest, hrest⟩ := h.drop_eq
  have hlt := h.length_lt
  rw [List.length_append] at hlt
  rw [memmove, if_pos (by omega), hrest, List.append_assoc, List.take_left]

/-! ## Strings that a write leaves -/

theorem Holds.below (h : Holds b j t) (hw : write b i s = some b') (hlt : j + t.length < i) :
    Holds b' j t := by
  refine ⟨?_, h.2⟩
  have htake : (b.drop j).take (i - j) = (b'.drop j).take (i - j) := by
    rw [← List.drop_take, ← List.drop_take, take_write hw]
  have hpre : t ++ [0] <+: (b.drop j).take (i - j) := by
    rw [List.prefix_take_iff]
    refine ⟨h.1, ?_⟩
    rw [List.length_append, List.length_singleton]
    omega
  rw [htake] at hpre
  exact hpre.trans (List.take_prefix _ _)

/-- A string is cut off. -/
theorem Holds.cut (h : Holds b i (s ++ t)) (hw : store b (i + s.length) 0 = some b') :
    Holds b' i s := by
  obtain ⟨rest, hrest⟩ := h.drop_eq
  have hfront : (b.drop i).take s.length = s := by
    rw [hrest, List.append_assoc, List.take_left]
  have htake : (b'.drop i).take (s.length + 1) = s ++ [0] := by
    have hend := take_end_write hw
    have hlt := h.length_lt
    rw [List.length_append] at hlt
    rw [List.length_singleton, Nat.add_assoc] at hend
    rw [List.take_drop, hend, List.drop_append_of_le_length, List.drop_take,
      Nat.add_sub_cancel_left, hfront]
    rw [List.length_take]
    omega
  refine ⟨?_, fun hmem => h.2 (List.mem_append_left t hmem)⟩
  rw [← htake]
  exact List.take_prefix _ _

theorem Holds.above (h : Holds b j t) (hw : write b i s = some b') (hle : i + s.length ≤ j) :
    Holds b' j t := by
  rw [Holds, drop_write_of_le hw hle]
  exact h

/-! ## Strings that are written -/

theorem strcpy_isSome : (strcpy b i s).isSome ↔ i + s.length < b.length := by
  rw [strcpy, write_isSome, List.length_append, List.length_singleton]
  omega

theorem strcpy_eq_none : strcpy b i s = none ↔ b.length ≤ i + s.length := by
  rw [← Option.not_isSome_iff_eq_none, strcpy_isSome, Nat.not_lt]

theorem lt_of_strcpy (h : strcpy b i s = some b') : i + s.length < b.length :=
  strcpy_isSome.mp (Option.isSome_of_eq_some h)

theorem holds_strcpy (h : strcpy b i s = some b') (hs : 0 ∉ s) : Holds b' i s := by
  refine ⟨?_, hs⟩
  rw [drop_write h]
  exact List.prefix_append _ _

theorem length_strcpy (h : strcpy b i s = some b') : b'.length = b.length := length_write h

/-- A string is put in front of the one that is there. -/
theorem Holds.prepend (h : Holds b (i + s.length) t) (hw : write b i s = some b') (hs : 0 ∉ s) :
    Holds b' i (s ++ t) := by
  obtain ⟨rest, hrest⟩ := h.drop_eq
  refine ⟨⟨rest, ?_⟩, fun hmem => (List.mem_append.mp hmem).elim hs h.2⟩
  rw [drop_write hw, hrest]
  simp

theorem Holds.strcat_eq (h : Holds b i t) : strcat b i s = strcpy b (i + t.length) s := by
  rw [CString.strcat, h.str]
  rfl

theorem Holds.strcat_isSome (h : Holds b i t) :
    (CString.strcat b i s).isSome ↔ i + t.length + s.length < b.length := by
  rw [h.strcat_eq, strcpy_isSome]

theorem Holds.strcat (h : Holds b i t) (hw : CString.strcat b i s = some b') (hs : 0 ∉ s) :
    Holds b' i (t ++ s) := by
  rw [h.strcat_eq] at hw
  obtain ⟨rest, hrest⟩ := (holds_strcpy hw hs).drop_eq
  obtain ⟨old, hold⟩ := h.drop_eq
  have hfront : (b'.drop i).take t.length = t := by
    rw [List.take_drop, take_write hw, ← List.take_drop, hold, List.take_left]
  refine ⟨⟨rest, ?_⟩, fun hmem => (List.mem_append.mp hmem).elim h.2 hs⟩
  rw [← List.take_append_drop t.length (b'.drop i), hfront, List.drop_drop, hrest]
  simp

theorem Holds.length_strcat (h : Holds b i t) (hw : CString.strcat b i s = some b') :
    b'.length = b.length := by
  rw [h.strcat_eq] at hw
  exact length_strcpy hw

/-- What is in front of a string that becomes longer. -/
theorem Holds.take_strcat (h : Holds b i t) (hw : CString.strcat b i s = some b') :
    b'.take i = b.take i := by
  rw [h.strcat_eq] at hw
  have htake := congrArg (List.take i) (take_write hw)
  rwa [List.take_take, List.take_take, Nat.min_eq_left (Nat.le_add_right i _)] at htake

/-- What is in front of a string is a part of a longer one. -/
theorem Holds.front (h : Holds b s.length t) (hs : b.take s.length = s) (hnul : 0 ∉ s) :
    Holds b 0 (s ++ t) := by
  obtain ⟨rest, hrest⟩ := h.drop_eq
  refine ⟨⟨rest, ?_⟩, fun hmem => (List.mem_append.mp hmem).elim hnul h.2⟩
  rw [List.drop_zero, ← List.take_append_drop s.length b, hs, hrest]
  simp

theorem Holds.take (h : Holds b 0 (s ++ t)) : b.take s.length = s := by
  obtain ⟨rest, hrest⟩ := h.drop_eq
  rw [List.drop_zero] at hrest
  rw [hrest, List.append_assoc, List.take_left]

end CString
end BurdahDos
