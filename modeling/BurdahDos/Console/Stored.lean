import BurdahDos.Console.Template
import Mathlib

/-!
# The line that is stored

What `read_line` leaves in the buffer that it was called with: a line with one CR, at its end, that
the next call takes for the stored line.  It is edited in `local_buffer`, which is 256 bytes long
and overflows into `kb_buf`, as `kernel/kernel.asm` says.

A CR gets into the line by being copied, if there is one in the stored line before its end, or if
the cursor has left the stored line.  `readLine_stores` is for those without.
-/

set_option autoImplicit false

namespace BurdahDos
namespace Console

/-! ## Where it is stored -/

/-- The length of `local_buffer`, of which the last bytes are those of `kb_buf`. -/
def localSize : ℕ := 256

/-- A byte is neither in the first `size` bytes of `local_buffer`, nor in the room for the line at
`kp`. -/
def Elsewhere (kp size a : ℕ) : Prop :=
  ¬ (localBuffer ≤ a ∧ a < localBuffer + size) ∧ ¬ (kp + 2 ≤ a ∧ a < kp + 2 + size)

/-- The buffer, and the line in it, are not in the data of the kernel, or they are `kb_buf`. -/
def Placed (m : Mem) (kp : ℕ) : Prop :=
  kp + 2 + kbCount m kp ≤ localBuffer ∧ kp + 2 + kbSize m kp ≤ localBuffer ∨ kbEnd ≤ kp ∨
    kp = kbBuf ∧ kbSize m kp ≤ lineBufSizeCon

/-- There is no CR in the line, nor in the stored one before its end. -/
structure NoCr (kp : ℕ) (e : Edit) : Prop where
  line : UInt8.ofNat cr ∉ e.line
  stored : ∀ i < e.storedSize, e.mem (kp + 2 + i) ≠ UInt8.ofNat cr

/-- `F2` and `F4` are pressed in the stored line. -/
def SearchesInside (e : Edit) (keys : List UInt8) : Prop :=
  ∀ c c2, searchKey keys = some (c, c2) → e.storedPos ≤ e.storedSize

section
variable {kp size n c : ℕ} {e e' : Edit} {keys keys' : List UInt8}

/-- Each turn stores in the two places only. -/
theorem each_elsewhere (hsize : 0 < size) (hcount : e.count ≤ size - 1) (n : ℕ) :
    e.each (fun e _ e' => ∀ a, Elsewhere kp size a → e'.mem a = e.mem a) kp size n keys := by
  induction n generalizing e keys with
  | zero => trivial
  | succ n ih =>
    rw [Edit.each]
    cases hturn : e.turn kp size keys with
    | none => trivial
    | some t =>
      obtain ⟨c, e', keys'⟩ := t
      have hturned := turn_turned hturn
      have hbound := hturned.bound hcount
      refine ⟨fun a ha => hturned.frame a ?_ ?_, or_iff_not_imp_left.mpr fun hc => ih ?_⟩
      · have hlocal := ha.1
        omega
      · have hroom := ha.2
        omega
      · exact hbound.resolve_right fun h => hc h.1

/-- So does the whole loop. -/
theorem loop_elsewhere (h : e.loop kp size n keys = some e') (hsize : 0 < size)
    (hcount : e.count ≤ size - 1) {a : ℕ} (ha : Elsewhere kp size a) : e'.mem a = e.mem a := by
  induction n generalizing e keys with
  | zero => cases h
  | succ n ih =>
    have heach := @each_elsewhere kp size e keys hsize hcount (n + 1)
    rw [Edit.each] at heach
    rw [Edit.loop] at h
    cases hturn : e.turn kp size keys with
    | none =>
      rw [hturn] at h
      cases h
    | some t =>
      obtain ⟨c, e₁, keys₁⟩ := t
      rw [hturn] at h heach
      dsimp only at h
      split at h
      · obtain rfl := Option.some.inj h
        exact heach.1 a ha
      · rename_i hc
        refine (ih h ?_).trans (heach.1 a ha)
        exact ((turn_turned hturn).bound hcount).resolve_right fun h => hc h.1

/-! ## Characters that are copied -/

theorem NoCr.of_same (h : NoCr kp e) (hmem : e'.mem = e.mem) (hcount : e'.count ≤ e.count)
    (hsize : e'.storedSize = e.storedSize) : NoCr kp e' := by
  refine ⟨fun hline => h.line ?_, fun i hi => ?_⟩
  · rw [Edit.line, hmem] at hline
    obtain ⟨i, hi, heq⟩ := List.mem_map.mp hline
    have hi := List.mem_range.mp hi
    exact List.mem_map.mpr ⟨i, List.mem_range.mpr (by omega), heq⟩
  · rw [hmem]
    exact h.stored i (by omega)

/-- A character that is no CR is put behind the line. -/
theorem NoCr.put (h : NoCr kp e) (hapart : e.Apart kp size) (hroom : e.count < size)
    {b : UInt8} (hb : b ≠ UInt8.ofNat cr) : NoCr kp (e.put b) := by
  refine ⟨fun hline => ?_, fun i hi => ?_⟩
  · have hput : (e.put b).line = e.line ++ [b] := by
      rw [Edit.line]
      change bytesAt (poke e.mem (localBuffer + e.count) b) localBuffer (e.count + 1) = _
      rw [bytesAt_succ, poke_self]
      congr 1
      exact bytesAt_congr fun i hi => poke_of_ne (by omega) _
    rw [hput] at hline
    rcases List.mem_append.mp hline with hline | hline
    · exact h.line hline
    · exact hb (List.mem_singleton.mp hline).symm
  · have hi : i < e.storedSize := hi
    rw [Edit.Apart] at hapart
    rw [put_frame e b (by omega)]
    exact h.stored i hi

/-- So is what is copied from the stored line. -/
theorem NoCr.recallTo (h : NoCr kp e) (hapart : e.Apart kp size) {newPos : ℕ}
    (hnew : newPos ≤ e.storedSize) (n : ℕ) : NoCr kp (e.recallTo kp size newPos n) := by
  induction n generalizing e with
  | zero => exact h
  | succ n ih =>
    rw [Edit.recallTo]
    split
    · rename_i hmore
      have hput : NoCr kp (e.put (e.mem (kp + 2 + e.storedPos))) :=
        h.put hapart (by omega) (h.stored _ (by omega))
      exact @ih (e.recall kp) (hput.of_same rfl (Nat.le_refl _) rfl) hapart hnew
    · exact h

theorem NoCr.copyTo (h : NoCr kp e) (hapart : e.Apart kp size) {newPos : ℕ}
    (hnew : newPos ≤ e.storedSize) (c : ℕ) : NoCr kp (e.copyTo kp size c newPos) := by
  rw [Edit.copyTo]
  split
  · exact h.of_same rfl (Nat.le_refl _) rfl
  · exact (h.recallTo hapart hnew newPos).of_same rfl (Nat.le_refl _) rfl

theorem NoCr.char (h : NoCr kp e) (hapart : e.Apart kp size) (hc : c ≠ cr) :
    NoCr kp (e.char size c) := by
  rw [Edit.char]
  split
  · exact h
  · rename_i hlt
    have hput : NoCr kp (if e.count < size - 1 ∨ c = cr then e.put (UInt8.ofNat c) else e) := by
      split
      · rename_i hroom
        refine h.put hapart (by omega) fun heq => hc ?_
        have hnat := congrArg UInt8.toNat heq
        rw [UInt8.toNat_ofNat', UInt8.toNat_ofNat', Nat.mod_eq_of_lt (by omega)] at hnat
        exact hnat
      · exact h
    dsimp only
    generalize (if e.count < size - 1 ∨ c = cr then e.put (UInt8.ofNat c) else e) = e₁ at hput ⊢
    split
    · exact hput.of_same rfl (Nat.le_refl _) rfl
    · exact hput

/-- **A key** that neither ends the line nor searches brings no CR. -/
theorem NoCr.key (h : NoCr kp e) (hapart : e.Apart kp size) (hc : c ≠ cr) : NoCr kp (e.key kp size c) := by
  rw [Edit.key]
  split
  · exact h
  split
  · split
    · rename_i hmore
      have hput : NoCr kp (e.put (e.mem (kp + 2 + e.storedPos))) :=
        h.put hapart (by omega) (h.stored _ hmore.1)
      exact hput.of_same rfl (Nat.le_refl _) rfl
    · exact h
  split
  · exact h.copyTo hapart (Nat.le_refl _) c
  split
  · refine ⟨fun hline => by simp [Edit.line, Edit.startNewLine] at hline, fun i hi => ?_⟩
    have hi : i < e.count := hi
    change memcpy e.mem (kp + 2) localBuffer e.count (kp + 2 + i) ≠ _
    rw [memcpy_add hi]
    exact fun heq => h.line (List.mem_map.mpr ⟨i, List.mem_range.mpr hi, heq⟩)
  split
  · exact h.of_same rfl (Nat.le_refl _) rfl
  split
  · exact h.of_same rfl (Nat.le_refl _) rfl
  split
  · exact h.of_same rfl (Nat.sub_le _ _) rfl
  split
  · exact h.of_same rfl (Nat.zero_le _) rfl
  split
  · exact h.char hapart (by decide)
  · exact h.char hapart hc

theorem recallTo_self (kp size n : ℕ) (e : Edit) : e.recallTo kp size e.storedPos n = e := by
  cases n with
  | zero => rfl
  | succ n => exact if_neg fun h => Nat.lt_irrefl _ h.1

/-- A turn that does not end the line brings no CR, if it does not search outside the stored
line. -/
theorem NoCr.turn (h : NoCr kp e) (hapart : e.Apart kp size) (hstored : e.storedSize < 2 ^ 8)
    (hcount : e.count ≤ size - 1) (hinside : SearchesInside e keys)
    (hturn : e.turn kp size keys = some (c, e', keys')) (hc : c ≠ cr) : NoCr kp e' := by
  rw [Edit.turn] at hturn
  cases hnext : nextKey keys with
  | none =>
    rw [hnext] at hturn
    cases hturn
  | some t =>
    obtain ⟨c₁, rest⟩ := t
    simp only [hnext] at hturn
    split at hturn
    · rename_i hf
      cases rest with
      | nil => cases hturn
      | cons c2 rest =>
        dsimp only at hturn
        split at hturn
        · cases rest with
          | nil => cases hturn
          | cons c3 rest =>
            obtain ⟨-, rfl, -⟩ : c₁ = c ∧ _ = e' ∧ rest = keys' := by simpa using hturn
            rw [Edit.copyTo, recallTo_self, ite_self]
            exact h.of_same rfl (Nat.le_refl _) rfl
        · rename_i h0
          obtain ⟨-, rfl, -⟩ : c₁ = c ∧ _ = e' ∧ rest = keys' := by simpa using hturn
          have hcursor := hinside c₁ c2 (searchKey_some hnext hf h0)
          refine h.copyTo hapart ?_ c₁
          rw [Inside.newPos ⟨hcursor, hstored, hcount, hapart⟩ c2]
          split
          · exact (upTo_eq c2 e kp).2.trans (Nat.sub_le _ _)
          · exact hcursor
    · obtain ⟨rfl, rfl, -⟩ : c₁ = c ∧ _ = e' ∧ rest = keys' := by simpa using hturn
      exact h.key hapart hc

/-- **The line that is entered has no CR before its end.** -/
theorem loop_noCr (h : e.loop kp size n keys = some e') (hline : NoCr kp e)
    (hapart : e.Apart kp size) (hkp : Beside kp size) (hstored : e.storedSize < 2 ^ 8)
    (hcount : e.count ≤ size - 1) (hsize : size < 2 ^ 8)
    (hinside : e.each (fun e keys _ => SearchesInside e keys) kp size n keys) :
    ∀ i < e'.count - 1, e'.mem (localBuffer + i) ≠ UInt8.ofNat cr := by
  induction n generalizing e keys with
  | zero => cases h
  | succ n ih =>
    rw [Edit.loop] at h
    rw [Edit.each] at hinside
    cases hturn : e.turn kp size keys with
    | none =>
      rw [hturn] at h
      cases h
    | some t =>
      obtain ⟨c, e₁, keys₁⟩ := t
      rw [hturn] at h hinside
      dsimp only at h hinside
      split at h
      · rename_i hc
        obtain rfl := Option.some.inj h
        subst hc
        intro i hi
        rw [turn_cr_key hturn, (char_cr size e).1, Nat.add_sub_cancel] at hi
        rw [turn_cr_key hturn, (char_cr size e).2]
        change poke e.mem (localBuffer + e.count) (UInt8.ofNat cr) (localBuffer + i) ≠ _
        rw [poke_of_ne (by omega)]
        exact fun heq => hline.line (List.mem_map.mpr ⟨i, List.mem_range.mpr hi, heq⟩)
      · rename_i hc
        have hcount₁ := ((turn_turned hturn).bound hcount).resolve_right fun h => hc h.1
        have hstored₁ := turn_stored hturn
        rw [Edit.Apart] at hapart
        rw [Beside] at hkp
        exact ih h (hline.turn hapart hstored hcount hinside.1 hturn hc) (by rw [Edit.Apart]; omega)
          (by omega) hcount₁ (hinside.2.resolve_left hc)

end

/-! ## The stored line -/

section
variable {m m' : Mem} {kp : ℕ} {keys : List UInt8}

theorem Placed.clear (h : Placed m kp) : Clear m kp := by
  have hsize : kbSize m kp < 2 ^ 8 := UInt8.toNat_lt _
  have hbuf : kbBuf = localBuffer + 128 := rfl
  have hend : kbEnd = localBuffer + 259 := rfl
  have hmax : lineBufSizeCon = 128 := rfl
  rw [Placed] at h
  rw [Clear]
  omega

/-- What `read_line` leaves of the line: what has been edited, and its length without the CR. -/
theorem deliver_line {e : Edit} (hle : e.count ≤ kbSize m kp) (h : Placed m kp) :
    kbCount (deliver e kp) kp = e.count - 1 ∧ deliver e kp kp = e.mem kp ∧
      ∀ i < e.count, deliver e kp (kp + 2 + i) = e.mem (localBuffer + i) := by
  have hsize : kbSize m kp < 2 ^ 8 := UInt8.toNat_lt _
  have hbuf : kbBuf = localBuffer + 128 := rfl
  have hend : kbEnd = localBuffer + 259 := rfl
  have hmax : lineBufSizeCon = 128 := rfl
  rw [Placed] at h
  have hinvalid (a : ℕ) (ha : lineBufSizeCon < e.count → a ≠ kbBuf) (hkp : a ≠ kp + 1) :
      deliver e kp a = memcpy e.mem (kp + 2) localBuffer e.count a := by
    rw [deliver, poke_of_ne hkp]
    split
    · rename_i hlong
      rw [poke_of_ne (ha hlong)]
    · rfl
  refine ⟨?_, ?_, fun i hi => ?_⟩
  · rw [kbCount, deliver, poke_self, UInt8.toNat_ofNat']
    omega
  · rw [hinvalid kp (by omega) (by omega), memcpy_of_out (by omega)]
  · rw [hinvalid _ (by omega) (by omega), memcpy_add hi]

theorem deliver_elsewhere {e : Edit} (hle : e.count ≤ kbSize m kp) {a : ℕ}
    (ha : Elsewhere kp (kbSize m kp) a) (hkp : a ≠ kp + 1) : deliver e kp a = e.mem a := by
  have hbuf : kbBuf = localBuffer + 128 := rfl
  have hmax : lineBufSizeCon = 128 := rfl
  rw [Elsewhere] at ha
  rw [deliver, poke_of_ne hkp]
  split
  · rw [poke_of_ne (by omega), memcpy_of_out (by omega)]
  · rw [memcpy_of_out (by omega)]

/-- **What `read_line` stores**, for a buffer of at least one character: in each turn and in the
end the line in the buffer, the one that is edited and the count, and nothing else.  The line ends
with a CR behind `kb_count` characters, and is what the next call takes for the stored line.  If
the stored line has no CR before its end, and is not left before `F2` or `F4` is pressed, neither
has the line. -/
theorem readLine_stores (hsize : kbSize m kp ≠ 0) (h : Placed m kp)
    (hread : readLine m kp keys = some m') :
    (startEdit m kp).each (fun e _ e' => ∀ a, Elsewhere kp (kbSize m kp) a → e'.mem a = e.mem a)
        kp (kbSize m kp) keys.length keys ∧
      (∀ a, Elsewhere kp (kbSize m kp) a → a ≠ kp + 1 → m' a = m a) ∧
      kbSize m kp ≤ localSize ∧ kbCount m' kp < kbSize m kp ∧
      m' (kp + 2 + kbCount m' kp) = UInt8.ofNat cr ∧
      kbSize m' kp = kbSize m kp ∧ (startEdit m' kp).storedSize = kbCount m' kp ∧
      ((∀ i < (startEdit m kp).storedSize, m (kp + 2 + i) ≠ UInt8.ofNat cr) →
        (startEdit m kp).each (fun e keys _ => SearchesInside e keys) kp (kbSize m kp)
          keys.length keys →
        ∀ i < kbCount m' kp, m' (kp + 2 + i) ≠ UInt8.ofNat cr) := by
  have hsize' : kbSize m kp < 2 ^ 8 := UInt8.toNat_lt _
  have hcount : kbCount m kp < 2 ^ 8 := UInt8.toNat_lt _
  rw [readLine, if_neg hsize, Option.map_eq_some_iff] at hread
  obtain ⟨e, hloop, rfl⟩ := hread
  rw [enter] at hloop
  have hpos := Nat.pos_of_ne_zero hsize
  obtain ⟨hline, hle, hcr⟩ := loop_line hloop (Nat.zero_le _)
  obtain ⟨hkb, hkp, hbytes⟩ := deliver_line (by omega : e.count ≤ kbSize m kp) h
  have hend : deliver e kp (kp + 2 + (e.count - 1)) = UInt8.ofNat cr := by
    rw [hbytes _ (by omega), hcr]
  have hkeep : e.mem kp = m kp := by
    refine loop_elsewhere hloop hpos (Nat.zero_le _) ⟨?_, by omega⟩
    have hbuf : kbBuf = localBuffer + 128 := rfl
    have hend : kbEnd = localBuffer + 259 := rfl
    have hmax : lineBufSizeCon = 128 := rfl
    rw [Placed] at h
    omega
  refine ⟨each_elsewhere hpos (Nat.zero_le _) _, fun a ha hne => ?_, by rw [localSize]; omega,
    by omega, by rw [hkb, hend], by rw [kbSize, kbSize, hkp, hkeep], ?_, fun hnoCr hinside i hi => ?_⟩
  · rw [deliver_elsewhere (by omega : e.count ≤ kbSize m kp) ha hne]
    exact loop_elsewhere hloop hpos (Nat.zero_le _) ha
  · rw [startEdit]
    dsimp only
    rw [hkb, if_pos hend]
  · rw [hkb] at hi
    rw [hbytes i (by omega)]
    have hstored : (startEdit m kp).storedSize ≤ kbCount m kp := by
      rw [startEdit]
      dsimp only
      split <;> omega
    have hclear := h.clear
    rw [Clear] at hclear
    exact loop_noCr hloop ⟨List.not_mem_nil, hnoCr⟩ (by rw [Edit.Apart]; omega)
      (by rw [Beside]; omega) (by omega) (Nat.zero_le _) hsize' hinside i hi

end

theorem readLine_stores_stored : kbSize storedMem 0x1000 ≠ 0 ∧ Placed storedMem 0x1000 ∧
    ∃ m', readLine storedMem 0x1000 [0, 0x3d, 120, 13] = some m' ∧
      m' (0x1000 + 2 + kbCount m' 0x1000) = UInt8.ofNat cr := by
  have hsize : kbSize storedMem 0x1000 ≠ 0 := by decide
  have hplaced : Placed storedMem 0x1000 := Or.inr (Or.inl (by decide))
  obtain ⟨m', hread⟩ : ∃ m', readLine storedMem 0x1000 [0, 0x3d, 120, 13] = some m' := ⟨_, rfl⟩
  exact ⟨hsize, hplaced, m', hread, (readLine_stores hsize hplaced hread).2.2.2.2.1⟩

/-- A buffer whose stored line has a CR between two characters. -/
def splitMem : Mem := fun a =>
  if a = 0x1000 then 20
  else if a = 0x1001 then 3
  else if a = 0x1002 then 97
  else if a = 0x1003 then 13
  else if a = 0x1004 then 98
  else if a = 0x1005 then 13
  else 0

/-- **`F3` copies the CR of the stored line**, and does not end the line by it. -/
theorem innerCr : kbSize splitMem 0x1000 = 20 ∧ Placed splitMem 0x1000 ∧
    ∃ m', readLine splitMem 0x1000 [0, 0x3d, 13] = some m' ∧ kbCount m' 0x1000 = 3 ∧
      m' (0x1000 + 2 + 1) = UInt8.ofNat cr :=
  ⟨by decide, Or.inr (Or.inl (by decide)), _, rfl, by decide +kernel, by decide +kernel⟩

end Console
end BurdahDos
