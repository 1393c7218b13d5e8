import BurdahDos.Console.Line
import Mathlib

/-!
# The cursor in the stored line

While a line is read, the one that was stored in the buffer before is a template: `F1` to `F4` copy
characters of it or skip them, from a cursor on.  `F2` and `F4` ask for a character, and are meant
to go behind the next one like it.

`read_line` counts that place from the cursor and takes it for one counted from the start, and
`DEL` takes the cursor past the end.  `follows_iff`: but for these the cursor is right all along.
-/

set_option autoImplicit false

namespace BurdahDos
namespace Console

/-! ## What is read of the stored line -/

/-- The line up to now. -/
def Edit.line (e : Edit) : List UInt8 := bytesAt e.mem localBuffer e.count

/-- The stored line from the cursor on. -/
def Edit.ahead (e : Edit) (kp : ℕ) : List UInt8 :=
  bytesAt e.mem (kp + 2 + e.storedPos) (e.storedSize - e.storedPos)

/-- The characters that the loop of `F2` and `F3` reads. -/
def Edit.recallReads (kp size newPos : ℕ) : ℕ → Edit → List ℕ
  | 0, _ => []
  | n + 1, e =>
    if e.storedPos < newPos ∧ e.count < size - 1 then
      e.storedPos :: recallReads kp size newPos n (e.recall kp)
    else []

/-- The characters that `fmemchr` reads. -/
def Edit.searchReads (e : Edit) (kp : ℕ) (c2 : UInt8) : List ℕ :=
  let n := (e.storedSize + 2 ^ 16 - e.storedPos) % 2 ^ 16
  let found := (List.range n).find? fun j => e.mem (kp + 2 + (e.storedPos + j) % 2 ^ 16) == c2
  (List.range (match found with | none => n | some j => j + 1)).map fun j =>
    (e.storedPos + j) % 2 ^ 16

/-- The characters of `kp->kb_buf` that a turn reads. -/
def Edit.reads (e : Edit) (kp size : ℕ) (keys : List UInt8) : List ℕ :=
  match nextKey keys with
  | none => []
  | some (c, keys) =>
    if c = f2 ∨ c = f4 then
      match keys with
      | [] => []
      | c2 :: _ =>
        if c2 = 0 then []
        else
          e.searchReads kp c2 ++
            if c = f4 then [] else e.recallReads kp size (e.newPos kp c2) (e.newPos kp c2)
    else if c = right ∨ c = f1 then
      if e.storedPos < e.storedSize ∧ e.count < size - 1 then [e.storedPos] else []
    else if c = f3 then e.recallReads kp size e.storedSize e.storedSize
    else []

/-! ## What the keys are for -/

/-- `F2` or `F4` and the character that it asks for. -/
def searchKey (keys : List UInt8) : Option (ℕ × UInt8) :=
  match nextKey keys with
  | some (c, c2 :: _) => if (c = f2 ∨ c = f4) ∧ c2 ≠ 0 then some (c, c2) else none
  | _ => none

/-- Characters up to and including the first one like `c`, none if there is no such one. -/
def upTo (c : UInt8) (l : List UInt8) : List UInt8 :=
  if c ∈ l then l.take (l.idxOf c + 1) else []

/-- **A turn respects the stored line**: the cursor stays in it, nothing else is read, `F2` copies
up to the character as far as there is room, and `F4` skips up to it. -/
structure Follows (kp size : ℕ) (e : Edit) (keys : List UInt8) (e' : Edit) : Prop where
  cursor : e'.storedPos ≤ e'.storedSize
  reads : ∀ i ∈ e.reads kp size keys, i < e.storedSize
  copies : ∀ c2, searchKey keys = some (f2, c2) →
    e'.line = e.line ++ (upTo c2 (e.ahead kp)).take (size - 1 - e.count) ∧
      e'.storedPos = e.storedPos + (upTo c2 (e.ahead kp)).length
  skips : ∀ c2, searchKey keys = some (f4, c2) →
    e'.line = e.line ∧ e'.storedPos = e.storedPos + (upTo c2 (e.ahead kp)).length
  forward : ∀ c rest, nextKey keys = some (c, rest) → c = f2 ∨ c = f4 → e.storedPos ≤ e'.storedPos

/-- `DEL` is not for a cursor at the end, and `F2` and `F4` find nothing unless it is at the
start. -/
structure Careful (kp : ℕ) (e : Edit) (keys : List UInt8) : Prop where
  del : ∀ rest, nextKey keys = some (del, rest) → e.storedPos < e.storedSize
  search : ∀ c c2, searchKey keys = some (c, c2) → e.storedPos = 0 ∨ c2 ∉ e.ahead kp

/-- Each turn of the loop meets `P`, with what it makes of the line. -/
def Edit.each (P : Edit → List UInt8 → Edit → Prop) (kp size : ℕ) : ℕ → Edit → List UInt8 → Prop
  | 0, _, _ => True
  | n + 1, e, keys =>
    match e.turn kp size keys with
    | none => True
    | some (c, e', keys') => P e keys e' ∧ (c = cr ∨ each P kp size n e' keys')

/-! ## Looking for a character -/

theorem find_range (f : ℕ → UInt8) (c : UInt8) (n : ℕ) :
    (List.range n).find? (fun j => f j == c) =
      if c ∈ (List.range n).map f then some (((List.range n).map f).idxOf c) else none := by
  induction n with
  | zero => simp
  | succ n ih =>
    rw [List.range_succ, List.find?_append, ih, List.map_append, List.map_singleton]
    by_cases hmem : c ∈ (List.range n).map f
    · rw [if_pos hmem, if_pos (List.mem_append_left _ hmem), List.idxOf_append_of_mem hmem]
      rfl
    · rw [if_neg hmem, Option.none_or, List.idxOf_append_of_notMem hmem]
      by_cases hn : f n = c
      · rw [if_pos (by simp [hn])]
        simp [hn]
      · rw [if_neg (by simpa [hn, Ne.symm hn] using hmem)]
        simp [hn]

/-- The stored line, and the line that is edited, are apart. -/
def Edit.Apart (kp size : ℕ) (e : Edit) : Prop :=
  kp + 2 + e.storedSize ≤ localBuffer ∨ localBuffer + size ≤ kp + 2

/-- The cursor is in the stored line, which is one of a buffer. -/
structure Inside (kp size : ℕ) (e : Edit) : Prop where
  cursor : e.storedPos ≤ e.storedSize
  stored : e.storedSize < 2 ^ 8
  count : e.count ≤ size - 1
  apart : e.Apart kp size

section
variable {kp size : ℕ} {e : Edit}

theorem Inside.ahead_length (e : Edit) (kp : ℕ) : (e.ahead kp).length = e.storedSize - e.storedPos := by
  simp [Edit.ahead, bytesAt]

/-- What `fmemchr` finds. -/
theorem Inside.find (h : Inside kp size e) (c2 : UInt8) :
    (List.range ((e.storedSize + 2 ^ 16 - e.storedPos) % 2 ^ 16)).find?
        (fun j => e.mem (kp + 2 + (e.storedPos + j) % 2 ^ 16) == c2) =
      if c2 ∈ e.ahead kp then some ((e.ahead kp).idxOf c2) else none := by
  have hcursor := h.cursor
  have hstored := h.stored
  have hn : (e.storedSize + 2 ^ 16 - e.storedPos) % 2 ^ 16 = e.storedSize - e.storedPos := by omega
  have hmap : (List.range (e.storedSize - e.storedPos)).map
      (fun j => e.mem (kp + 2 + (e.storedPos + j) % 2 ^ 16)) = e.ahead kp := by
    refine List.map_congr_left fun j hj => ?_
    have hj := List.mem_range.mp hj
    rw [Nat.mod_eq_of_lt (by omega), ← Nat.add_assoc]
  rw [hn, find_range, hmap]

/-- Where `F2` and `F4` take the cursor. -/
theorem Inside.newPos (h : Inside kp size e) (c2 : UInt8) :
    e.newPos kp c2 = if c2 ∈ e.ahead kp then (upTo c2 (e.ahead kp)).length else e.storedPos := by
  rw [Edit.newPos, h.find c2]
  by_cases hmem : c2 ∈ e.ahead kp
  · have hidx := List.idxOf_lt_length_of_mem hmem
    have hlen := Inside.ahead_length e kp
    have hstored := h.stored
    rw [if_pos hmem, if_pos hmem, upTo, if_pos hmem, List.length_take]
    dsimp only
    omega
  · rw [if_neg hmem, if_neg hmem]

/-- The search stays in the stored line. -/
theorem Inside.searchReads (h : Inside kp size e) (c2 : UInt8) :
    ∀ i ∈ e.searchReads kp c2, i < e.storedSize := by
  intro i hi
  have hcursor := h.cursor
  have hstored := h.stored
  have hn : (e.storedSize + 2 ^ 16 - e.storedPos) % 2 ^ 16 = e.storedSize - e.storedPos := by omega
  rw [Edit.searchReads, h.find c2, hn] at hi
  obtain ⟨j, hj, rfl⟩ := List.mem_map.mp hi
  have hj := List.mem_range.mp hj
  by_cases hmem : c2 ∈ e.ahead kp
  · have hidx := List.idxOf_lt_length_of_mem hmem
    have hlen := Inside.ahead_length e kp
    rw [if_pos hmem] at hj
    dsimp only at hj
    omega
  · rw [if_neg hmem] at hj
    dsimp only at hj
    omega

end

/-! ## Copying -/

section
variable {kp size newPos n : ℕ} {e : Edit}

theorem recall_line (e : Edit) (kp : ℕ) :
    (e.recall kp).line = e.line ++ [e.mem (kp + 2 + e.storedPos)] := by
  rw [Edit.line, Edit.line]
  change bytesAt (poke e.mem (localBuffer + e.count) (e.mem (kp + 2 + e.storedPos))) localBuffer
    (e.count + 1) = _
  rw [bytesAt_succ, poke_self]
  congr 1
  exact bytesAt_congr fun i hi => poke_of_ne (by omega) _

/-- **What `F2` and `F3` copy**: the characters up to the new place, as far as there is room. -/
theorem recallTo_spec (hapart : e.Apart kp size) (hcount : e.count ≤ size - 1)
    (hnew : newPos ≤ e.storedSize) (hn : newPos ≤ e.storedPos + n) :
    (e.recallTo kp size newPos n).line = e.line ++
        bytesAt e.mem (kp + 2 + e.storedPos) (min (newPos - e.storedPos) (size - 1 - e.count)) ∧
      ∀ i ∈ e.recallReads kp size newPos n, i < newPos := by
  induction n generalizing e with
  | zero =>
    have hzero : newPos - e.storedPos = 0 := by omega
    rw [hzero, Nat.zero_min]
    exact ⟨(List.append_nil _).symm, fun i hi => (by cases hi)⟩
  | succ n ih =>
    rw [Edit.recallTo, Edit.recallReads]
    split
    · rename_i hmore
      obtain ⟨hline, hreads⟩ := @ih (e.recall kp) hapart hmore.2 hnew
        (by change newPos ≤ e.storedPos + 1 + n; omega)
      refine ⟨?_, ?_⟩
      · -- The next character is copied, and the stored line stays as it is.
        have hsplit : min (newPos - e.storedPos) (size - 1 - e.count) =
            1 + min (newPos - (e.storedPos + 1)) (size - 1 - (e.count + 1)) := by omega
        have hrest : bytesAt (e.recall kp).mem (kp + 2 + (e.storedPos + 1))
              (min (newPos - (e.storedPos + 1)) (size - 1 - (e.count + 1))) =
            bytesAt e.mem (kp + 2 + e.storedPos + 1)
              (min (newPos - (e.storedPos + 1)) (size - 1 - (e.count + 1))) := by
          refine bytesAt_congr fun i hi => ?_
          rw [show kp + 2 + (e.storedPos + 1) + i = kp + 2 + e.storedPos + 1 + i by omega]
          rw [Edit.Apart] at hapart
          exact put_frame e _ (by omega)
        rw [hline, recall_line, hsplit, bytesAt_add, List.append_assoc]
        change _ ++ (_ ++ bytesAt (e.recall kp).mem (kp + 2 + (e.storedPos + 1))
          (min (newPos - (e.storedPos + 1)) (size - 1 - (e.count + 1)))) = _
        rw [hrest]
        rfl
      · intro i hi
        rcases List.mem_cons.mp hi with rfl | hi
        · exact hmore.1
        · exact hreads i hi
    · rename_i hmore
      have hzero : min (newPos - e.storedPos) (size - 1 - e.count) = 0 := by omega
      rw [hzero]
      exact ⟨(List.append_nil _).symm, fun i hi => (by cases hi)⟩

end

/-! ## A turn -/

section
variable {kp size c : ℕ} {e e' : Edit} {keys keys' : List UInt8}

theorem char_stored (size c : ℕ) (e : Edit) : (e.char size c).storedSize = e.storedSize := by
  rw [Edit.char]
  split
  · rfl
  · dsimp only
    split <;> split <;> rfl

/-- A cursor that is kept or moved on by one. -/
theorem char_cursor (size c : ℕ) {e : Edit} (h : e.storedPos ≤ e.storedSize) :
    (e.char size c).storedPos ≤ (e.char size c).storedSize := by
  rw [char_stored, Edit.char]
  split
  · exact h
  · dsimp only
    have hput : (if e.count < size - 1 ∨ c = cr then e.put (UInt8.ofNat c) else e).storedPos ≤
        e.storedSize ∧
        (if e.count < size - 1 ∨ c = cr then e.put (UInt8.ofNat c) else e).storedSize =
          e.storedSize := by
      split <;> exact ⟨h, rfl⟩
    generalize (if e.count < size - 1 ∨ c = cr then e.put (UInt8.ofNat c) else e) = e₁ at hput ⊢
    split
    · rename_i hlt
      exact hput.2 ▸ hlt.1
    · exact hput.1

/-- The copying changes nothing else. -/
theorem recallTo_stored (kp size newPos n : ℕ) (e : Edit) :
    (e.recallTo kp size newPos n).storedSize = e.storedSize := by
  induction n generalizing e with
  | zero => rfl
  | succ n ih =>
    rw [Edit.recallTo]
    split
    · exact ih (e.recall kp)
    · rfl

theorem copyTo_pos (kp size c newPos : ℕ) (e : Edit) :
    (e.copyTo kp size c newPos).storedPos = newPos := rfl

theorem copyTo_size (kp size c newPos : ℕ) (e : Edit) :
    (e.copyTo kp size c newPos).storedSize = e.storedSize := by
  rw [Edit.copyTo]
  split
  · rfl
  · exact recallTo_stored kp size newPos newPos e

/-- A key leaves the stored line, or makes it the one that was edited. -/
theorem key_stored (kp size c : ℕ) (e : Edit) :
    (e.key kp size c).storedSize = e.storedSize ∨ (e.key kp size c).storedSize = e.count := by
  rw [Edit.key]
  split
  · exact Or.inl rfl
  split
  · split <;> exact Or.inl rfl
  split
  · exact Or.inl (copyTo_size _ _ _ _ _)
  split
  · exact Or.inr rfl
  split
  · exact Or.inl rfl
  split
  · exact Or.inl rfl
  split
  · exact Or.inl rfl
  split
  · exact Or.inl rfl
  split
  · exact Or.inl (char_stored size ctlZ e)
  · exact Or.inl (char_stored size c e)

/-- **Keys that do not search** keep the cursor in the stored line, but for `DEL` at its end. -/
theorem key_cursor (kp size c : ℕ) (hcursor : e.storedPos ≤ e.storedSize) :
    (e.key kp size c).storedPos ≤ (e.key kp size c).storedSize ↔
      (c = del → e.storedPos < e.storedSize) := by
  have hother {e₁ : Edit} (hc : c ≠ del) (h : e₁.storedPos ≤ e₁.storedSize) :
      e₁.storedPos ≤ e₁.storedSize ↔ (c = del → e.storedPos < e.storedSize) :=
    iff_of_true h fun h' => absurd h' hc
  rw [Edit.key]
  split
  · rename_i hc
    exact hother (by rintro rfl; revert hc; decide) hcursor
  split
  · rename_i hc
    have hne : c ≠ del := by
      rintro rfl
      revert hc
      decide
    split
    · rename_i hlt
      exact hother hne hlt.1
    · exact hother hne hcursor
  split
  · rename_i hc
    exact hother (by rw [hc]; decide) (by rw [copyTo_pos, copyTo_size])
  split
  · rename_i hc
    exact hother (by rw [hc]; decide) (Nat.zero_le _)
  split
  · rename_i hc
    exact hother (by rw [hc]; decide) hcursor
  split
  · rename_i hc
    exact ⟨fun h _ => h, fun h => h hc⟩
  rename_i hdel
  split
  · exact hother hdel ((Nat.sub_le _ _).trans hcursor)
  split
  · exact hother hdel (Nat.zero_le _)
  split
  · exact hother hdel (char_cursor size ctlZ hcursor)
  · exact hother hdel (char_cursor size c hcursor)

/-- A key that does not search reads nothing but the stored line. -/
theorem key_reads (h : Inside kp size e) (hnext : nextKey keys = some (c, keys'))
    (hc : ¬ (c = f2 ∨ c = f4)) : ∀ i ∈ e.reads kp size keys, i < e.storedSize := by
  intro i hi
  rw [Edit.reads, hnext] at hi
  simp only [if_neg hc] at hi
  split at hi
  · split at hi
    · rename_i hlt
      rw [List.mem_singleton.mp hi]
      exact hlt.1
    · exact nomatch hi
  · split at hi
    · exact (recallTo_spec h.apart h.count (Nat.le_refl _) (Nat.le_add_left _ _)).2 i hi
    · exact nomatch hi

theorem searchKey_none (hnext : nextKey keys = some (c, keys')) (hc : ¬ (c = f2 ∨ c = f4)) :
    searchKey keys = none := by
  rw [searchKey, hnext]
  cases keys' with
  | nil => rfl
  | cons c2 rest => exact if_neg fun h => hc h.1

/-- A turn without a search respects the stored line, but for `DEL` at its end. -/
theorem Inside.key_follows (h : Inside kp size e) (hnext : nextKey keys = some (c, keys'))
    (hc : ¬ (c = f2 ∨ c = f4)) : Follows kp size e keys (e.key kp size c) ↔ Careful kp e keys := by
  have hsearch := searchKey_none hnext hc
  have hcursor := key_cursor kp size c h.cursor
  constructor
  · intro hf
    refine ⟨fun rest hdel => ?_, fun c c2 hs => by rw [hsearch] at hs; exact nomatch hs⟩
    rw [hnext, Option.some_inj, Prod.mk.injEq] at hdel
    exact hcursor.mp hf.cursor hdel.1
  · intro hcareful
    refine ⟨hcursor.mpr ?_, key_reads h hnext hc, ?_, ?_, ?_⟩
    · rintro rfl
      exact hcareful.del keys' hnext
    · intro c2 hs
      rw [hsearch] at hs
      exact nomatch hs
    · intro c2 hs
      rw [hsearch] at hs
      exact nomatch hs
    · intro c' rest hn hc'
      rw [hnext, Option.some_inj, Prod.mk.injEq] at hn
      exact absurd (hn.1 ▸ hc') hc

theorem bytesAt_take (m : Mem) (a n k : ℕ) : (bytesAt m a n).take k = bytesAt m a (min k n) := by
  rw [bytesAt, bytesAt, ← List.map_take, List.take_range]

theorem upTo_eq (c2 : UInt8) (e : Edit) (kp : ℕ) :
    upTo c2 (e.ahead kp) = bytesAt e.mem (kp + 2 + e.storedPos) (upTo c2 (e.ahead kp)).length ∧
      (upTo c2 (e.ahead kp)).length ≤ e.storedSize - e.storedPos := by
  have hlen := Inside.ahead_length e kp
  rw [upTo]
  split
  · refine ⟨?_, by rw [List.length_take]; omega⟩
    rw [List.length_take, hlen, Edit.ahead, bytesAt_take]
  · exact ⟨rfl, Nat.zero_le _⟩

theorem searchKey_some {c2 : UInt8} (hnext : nextKey keys = some (c, c2 :: keys'))
    (hc : c = f2 ∨ c = f4) (h0 : c2 ≠ 0) : searchKey keys = some (c, c2) := by
  rw [searchKey, hnext]
  exact if_pos ⟨hc, h0⟩

/-- **A search respects the stored line** unless it succeeds from a cursor that is not at the
start. -/
theorem Inside.search_follows (h : Inside kp size e) {c2 : UInt8}
    (hnext : nextKey keys = some (c, c2 :: keys')) (hc : c = f2 ∨ c = f4) (h0 : c2 ≠ 0) :
    Follows kp size e keys (e.copyTo kp size c (e.newPos kp c2)) ↔ Careful kp e keys := by
  have hsearch := searchKey_some hnext hc h0
  have hnew := h.newPos c2
  obtain ⟨hupTo, hlen⟩ := upTo_eq c2 e kp
  have hdel : c ≠ del := by
    rintro rfl
    exact absurd hc (by decide)
  constructor
  · intro hf
    have hpos : e.newPos kp c2 = e.storedPos + (upTo c2 (e.ahead kp)).length := by
      rcases hc with rfl | rfl
      · exact (hf.copies c2 hsearch).2
      · exact (hf.skips c2 hsearch).2
    refine ⟨fun rest hrest => ?_, fun c' c2' hs => ?_⟩
    · rw [hnext, Option.some_inj, Prod.mk.injEq] at hrest
      exact absurd hrest.1 hdel
    · rw [hsearch, Option.some_inj, Prod.mk.injEq] at hs
      rw [← hs.2]
      by_cases hmem : c2 ∈ e.ahead kp
      · rw [hnew, if_pos hmem] at hpos
        exact Or.inl (by omega)
      · exact Or.inr hmem
  · intro hcareful
    -- Then the place is the same, counted from the start or from the cursor.
    have hpos : e.newPos kp c2 = e.storedPos + (upTo c2 (e.ahead kp)).length := by
      rw [hnew]
      rcases hcareful.search c c2 hsearch with hzero | hmem
      · split
        · rw [hzero, Nat.zero_add]
        · rename_i hmem
          rw [upTo, if_neg hmem]
          rfl
      · rw [if_neg hmem, upTo, if_neg hmem]
        rfl
    have hcursor := h.cursor
    have hle : e.newPos kp c2 ≤ e.storedSize := by omega
    have hspec := recallTo_spec (n := e.newPos kp c2) h.apart h.count hle (Nat.le_add_left _ _)
    refine ⟨by rw [copyTo_pos, copyTo_size]; exact hle, ?_, ?_, ?_, ?_⟩
    · intro i hi
      rw [Edit.reads, hnext] at hi
      simp only [if_pos hc, if_neg h0] at hi
      rcases List.mem_append.mp hi with hi | hi
      · exact h.searchReads c2 i hi
      · split at hi
        · exact nomatch hi
        · exact (hspec.2 i hi).trans_le hle
    · intro c2' hs
      rw [hsearch, Option.some_inj, Prod.mk.injEq] at hs
      obtain ⟨rfl, rfl⟩ := hs
      refine ⟨?_, hpos⟩
      have hline := hspec.1
      rw [hpos, Nat.add_sub_cancel_left, Nat.min_comm] at hline
      rw [hupTo, bytesAt_take, ← hline, Edit.copyTo, if_neg (by decide), hpos]
      rfl
    · intro c2' hs
      rw [hsearch, Option.some_inj, Prod.mk.injEq] at hs
      obtain ⟨rfl, rfl⟩ := hs
      refine ⟨?_, hpos⟩
      rw [Edit.copyTo, if_pos rfl]
      rfl
    · intro c' rest _ _
      rw [copyTo_pos]
      omega

/-- A function key is not searched for. -/
theorem Inside.nothing_follows (h : Inside kp size e) (hnext : nextKey keys = some (c, 0 :: keys'))
    (hc : c = f2 ∨ c = f4) :
    Follows kp size e keys (e.copyTo kp size c e.storedPos) ∧ Careful kp e keys := by
  have hsearch : searchKey keys = none := by
    rw [searchKey, hnext]
    exact if_neg fun h => h.2 rfl
  have hdel : c ≠ del := by
    rintro rfl
    exact absurd hc (by decide)
  refine ⟨⟨by rw [copyTo_pos, copyTo_size]; exact h.cursor, ?_, ?_, ?_, ?_⟩, ?_, ?_⟩
  · intro i hi
    rw [Edit.reads, hnext] at hi
    simp only [if_pos hc, if_true] at hi
    exact nomatch hi
  · intro c2 hs
    rw [hsearch] at hs
    exact nomatch hs
  · intro c2 hs
    rw [hsearch] at hs
    exact nomatch hs
  · intro c' rest _ _
    rw [copyTo_pos]
  · intro rest hrest
    rw [hnext, Option.some_inj, Prod.mk.injEq] at hrest
    exact absurd hrest.1 hdel
  · intro c' c2 hs
    rw [hsearch] at hs
    exact nomatch hs

/-- **A turn respects the stored line if and only if it is a careful one.** -/
theorem Inside.turn_follows (h : Inside kp size e)
    (hturn : e.turn kp size keys = some (c, e', keys')) :
    Follows kp size e keys e' ↔ Careful kp e keys := by
  rw [Edit.turn] at hturn
  cases hnext : nextKey keys with
  | none =>
    rw [hnext] at hturn
    cases hturn
  | some t =>
    obtain ⟨c₁, rest⟩ := t
    simp only [hnext] at hturn
    split at hturn
    · rename_i hc
      cases rest with
      | nil => cases hturn
      | cons c2 rest =>
        dsimp only at hturn
        split at hturn
        · rename_i h0
          subst h0
          cases rest with
          | nil => cases hturn
          | cons c3 rest =>
            obtain ⟨-, rfl, -⟩ : c₁ = c ∧ _ = e' ∧ rest = keys' := by simpa using hturn
            exact iff_of_true (h.nothing_follows hnext hc).1 (h.nothing_follows hnext hc).2
        · rename_i h0
          obtain ⟨-, rfl, -⟩ : c₁ = c ∧ _ = e' ∧ rest = keys' := by simpa using hturn
          exact h.search_follows hnext hc h0
    · rename_i hc
      obtain ⟨-, rfl, -⟩ : c₁ = c ∧ _ = e' ∧ rest = keys' := by simpa using hturn
      exact h.key_follows hnext hc

/-- The stored line stays the same, or is the one that was edited. -/
theorem turn_stored (hturn : e.turn kp size keys = some (c, e', keys')) :
    e'.storedSize = e.storedSize ∨ e'.storedSize = e.count := by
  rw [Edit.turn] at hturn
  cases hnext : nextKey keys with
  | none =>
    rw [hnext] at hturn
    cases hturn
  | some t =>
    obtain ⟨c₁, rest⟩ := t
    simp only [hnext] at hturn
    split at hturn
    · cases rest with
      | nil => cases hturn
      | cons c2 rest =>
        dsimp only at hturn
        split at hturn
        · cases rest with
          | nil => cases hturn
          | cons c3 rest =>
            obtain ⟨-, rfl, -⟩ : c₁ = c ∧ _ = e' ∧ rest = keys' := by simpa using hturn
            exact Or.inl (copyTo_size _ _ _ _ _)
        · obtain ⟨-, rfl, -⟩ : c₁ = c ∧ _ = e' ∧ rest = keys' := by simpa using hturn
          exact Or.inl (copyTo_size _ _ _ _ _)
    · obtain ⟨-, rfl, -⟩ : c₁ = c ∧ _ = e' ∧ rest = keys' := by simpa using hturn
      exact key_stored kp size c₁ e

/-- The buffer is apart from the line that is edited. -/
def Beside (kp size : ℕ) : Prop := kp + 2 + size ≤ localBuffer ∨ localBuffer + size ≤ kp + 2

/-- The cursor stays inside in a turn that respects the stored line. -/
theorem Inside.turn (h : Inside kp size e) (hkp : Beside kp size) (hsize : size < 2 ^ 8)
    (hturn : e.turn kp size keys = some (c, e', keys')) (hc : c ≠ cr)
    (hf : Follows kp size e keys e') : Inside kp size e' := by
  have hstored := turn_stored hturn
  have hold := h.stored
  have hcount := h.count
  have hapart := h.apart
  rw [Edit.Apart] at hapart
  rw [Beside] at hkp
  refine ⟨hf.cursor, by omega, ?_, by rw [Edit.Apart]; omega⟩
  rcases (turn_turned hturn).bound hcount with hle | ⟨hcr, -⟩
  · exact hle
  · exact absurd hcr hc

/-- The loop, from any state with the cursor inside. -/
theorem Inside.each_iff (h : Inside kp size e) (hkp : Beside kp size) (hsize : size < 2 ^ 8) (n : ℕ) :
    e.each (Follows kp size) kp size n keys ↔
      e.each (fun e keys _ => Careful kp e keys) kp size n keys := by
  induction n generalizing e keys with
  | zero => exact Iff.rfl
  | succ n ih =>
    rw [Edit.each, Edit.each]
    cases hturn : e.turn kp size keys with
    | none => exact Iff.rfl
    | some t =>
      obtain ⟨c, e', keys'⟩ := t
      dsimp only
      have hiff := h.turn_follows hturn
      rw [hiff]
      refine and_congr_right fun hcareful => or_congr_right' fun hc => ?_
      exact ih (h.turn hkp hsize hturn hc (hiff.mpr hcareful))

end

/-! ## The loop -/

/-- The stored line that a buffer has, and the buffer, are apart from the line that is edited. -/
def Clear (m : Mem) (kp : ℕ) : Prop :=
  kp + 2 + kbCount m kp ≤ localBuffer ∧ kp + 2 + kbSize m kp ≤ localBuffer ∨
    localBuffer + kbSize m kp ≤ kp + 2

/-- **The stored line is respected all along if and only if the keys are careful ones**: `DEL` is
not pressed at its end, and `F2` and `F4` find nothing unless the cursor is at the start. -/
theorem follows_iff {m : Mem} {kp : ℕ} (h : Clear m kp) (keys : List UInt8) (n : ℕ) :
    (startEdit m kp).each (Follows kp (kbSize m kp)) kp (kbSize m kp) n keys ↔
      (startEdit m kp).each (fun e keys _ => Careful kp e keys) kp (kbSize m kp) n keys := by
  have hcount : kbCount m kp < 2 ^ 8 := UInt8.toNat_lt _
  have hsize : kbSize m kp < 2 ^ 8 := UInt8.toNat_lt _
  have hstored : (startEdit m kp).storedSize ≤ kbCount m kp := by
    rw [startEdit]
    dsimp only
    split <;> omega
  refine Inside.each_iff ⟨Nat.zero_le _, by omega, Nat.zero_le _, ?_⟩ ?_ hsize n
  · rw [Clear] at h
    rw [Edit.Apart]
    omega
  · rw [Clear] at h
    rw [Beside]
    omega

/-- A buffer of 20 characters at 1000h with the line `abcb`. -/
def storedMem : Mem := fun a =>
  if a = 0x1000 then 20
  else if a = 0x1001 then 4
  else if a = 0x1002 then 97
  else if a = 0x1003 then 98
  else if a = 0x1004 then 99
  else if a = 0x1005 then 98
  else if a = 0x1006 then 13
  else 0

theorem follows_iff_stored : Clear storedMem 0x1000 ∧
    ((startEdit storedMem 0x1000).each (Follows 0x1000 20) 0x1000 20 3 [0, 0x3c, 99, 13] ↔
      (startEdit storedMem 0x1000).each (fun e keys _ => Careful 0x1000 e keys) 0x1000 20 3
        [0, 0x3c, 99, 13]) :=
  have h : Clear storedMem 0x1000 := Or.inr (by decide)
  ⟨h, follows_iff h [0, 0x3c, 99, 13] 3⟩

/-- **`F1`, then `F2` with `c`**, copies `ab` but not the `c`, and leaves the cursor in front of
it. -/
theorem shortCopy : ¬ (startEdit storedMem 0x1000).each (Follows 0x1000 20) 0x1000 20 4
    [0, 0x3b, 0, 0x3c, 99, 13] := by
  intro h
  have hfirst : (startEdit storedMem 0x1000).turn 0x1000 20 [0, 0x3b, 0, 0x3c, 99, 13] =
      some (f1, (startEdit storedMem 0x1000).recall 0x1000, [0, 0x3c, 99, 13]) := rfl
  rw [Edit.each, hfirst] at h
  have h := h.2.resolve_left (by decide)
  have hsecond : ((startEdit storedMem 0x1000).recall 0x1000).turn 0x1000 20 [0, 0x3c, 99, 13] =
      some (f2, ((startEdit storedMem 0x1000).recall 0x1000).copyTo 0x1000 20 f2
        (((startEdit storedMem 0x1000).recall 0x1000).newPos 0x1000 99), [13]) := rfl
  rw [Edit.each, hsecond] at h
  have hpos := (h.1.copies 99 rfl).2
  rw [copyTo_pos] at hpos
  exact absurd hpos (by decide +kernel)

end Console
end BurdahDos
