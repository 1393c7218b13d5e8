import BurdahDos.Console.Defs
import BurdahDos.Lib.Run
import Mathlib

/-!
# What is delivered of a line

`read_line_handle` delivers a line in chunks, the rest of which lies in `kb_buf`.
`delivered_exact`: as long as `read_line` does not edit a line of more than 129 characters while
such a rest is there, the chunks of each line make up the line, CR and LF.
-/

set_option autoImplicit false

namespace BurdahDos
namespace Console

/-! ## Bytes in memory -/

@[simp] theorem bytesAt_zero (m : Mem) (a : ℕ) : bytesAt m a 0 = [] := rfl

theorem bytesAt_succ (m : Mem) (a n : ℕ) : bytesAt m a (n + 1) = bytesAt m a n ++ [m (a + n)] := by
  rw [bytesAt, List.range_succ, List.map_append]
  rfl

theorem bytesAt_add (m : Mem) (a n k : ℕ) :
    bytesAt m a (n + k) = bytesAt m a n ++ bytesAt m (a + n) k := by
  induction k with
  | zero => rw [bytesAt_zero, List.append_nil, Nat.add_zero]
  | succ k ih => rw [← Nat.add_assoc, bytesAt_succ, ih, bytesAt_succ, List.append_assoc, Nat.add_assoc]

theorem bytesAt_congr {m m' : Mem} {a a' n : ℕ} (h : ∀ i < n, m (a + i) = m' (a' + i)) :
    bytesAt m a n = bytesAt m' a' n := by
  rw [bytesAt, bytesAt]
  exact List.map_congr_left fun i hi => h i (List.mem_range.mp hi)

theorem poke_self (m : Mem) (a : ℕ) (c : UInt8) : poke m a c a = c := Function.update_self _ _ _

theorem poke_of_ne {m : Mem} {a b : ℕ} (h : b ≠ a) (c : UInt8) : poke m a c b = m b :=
  Function.update_of_ne h _ _

theorem memcpy_of_out {m : Mem} {dst src n a : ℕ} (h : ¬ (dst ≤ a ∧ a < dst + n)) :
    memcpy m dst src n a = m a := if_neg h

theorem memcpy_add {m : Mem} {dst src n i : ℕ} (h : i < n) :
    memcpy m dst src n (dst + i) = m (src + i) := by
  rw [memcpy, if_pos ⟨Nat.le_add_right _ _, Nat.add_lt_add_left h _⟩, Nat.add_sub_cancel_left]

/-! ## Editing -/

/-- What a turn of the editor with the key `c` does to the memory and to the length of the line: it
writes only up to the end of the line that it leaves, and to the buffer it is called with; and only
a CR is put behind the room of the line. -/
structure Turned (kp size c : ℕ) (e e' : Edit) : Prop where
  frame : ∀ a, a < localBuffer ∨ localBuffer + e'.count ≤ a →
    ¬ (kp + 2 ≤ a ∧ a < kp + 2 + e.count) → e'.mem a = e.mem a
  bound : e.count ≤ size - 1 → e'.count ≤ size - 1 ∨ c = cr ∧ e'.count = e.count + 1

/-- A turn that makes the line no longer, and writes nothing. -/
theorem Turned.shorter {kp size c : ℕ} {e e' : Edit} (hmem : e'.mem = e.mem)
    (hcount : e'.count ≤ e.count) : Turned kp size c e e' :=
  ⟨fun _ _ _ => by rw [hmem], fun h => Or.inl (Nat.le_trans hcount h)⟩

theorem put_frame (e : Edit) (c : UInt8) {a : ℕ} (h : a < localBuffer ∨ localBuffer + (e.count + 1) ≤ a) :
    (e.put c).mem a = e.mem a := poke_of_ne (by omega) c

theorem recallTo_le (kp size newPos n : ℕ) (e : Edit) :
    e.count ≤ (e.recallTo kp size newPos n).count := by
  induction n generalizing e with
  | zero => exact Nat.le_refl _
  | succ n ih =>
    rw [Edit.recallTo]
    split
    · exact Nat.le_trans (Nat.le_succ e.count) (ih (e.recall kp))
    · exact Nat.le_refl _

theorem recallTo_bound (kp size newPos n : ℕ) {e : Edit} (h : e.count ≤ size - 1) :
    (e.recallTo kp size newPos n).count ≤ size - 1 := by
  induction n generalizing e with
  | zero => exact h
  | succ n ih =>
    rw [Edit.recallTo]
    split
    · rename_i hmore
      exact ih (e := e.recall kp) hmore.2
    · exact h

theorem recallTo_frame (kp size newPos n : ℕ) (e : Edit) {a : ℕ}
    (h : a < localBuffer ∨ localBuffer + (e.recallTo kp size newPos n).count ≤ a) :
    (e.recallTo kp size newPos n).mem a = e.mem a := by
  induction n generalizing e with
  | zero => rfl
  | succ n ih =>
    rw [Edit.recallTo] at h ⊢
    split at h
    · rename_i hmore
      rw [if_pos hmore, ih (e.recall kp) h]
      have hle : e.count + 1 ≤ ((e.recall kp).recallTo kp size newPos n).count :=
        recallTo_le kp size newPos n (e.recall kp)
      exact put_frame e _ (by omega)
    · rename_i hmore
      rw [if_neg hmore]

theorem copyTo_turned (kp size c newPos : ℕ) (e : Edit) :
    Turned kp size c e (e.copyTo kp size c newPos) := by
  rw [Edit.copyTo]
  by_cases h4 : c = f4
  · rw [if_pos h4]
    exact .shorter rfl (Nat.le_refl _)
  · rw [if_neg h4]
    exact ⟨fun a ha _ => recallTo_frame kp size newPos newPos e ha,
      fun h => Or.inl (recallTo_bound kp size newPos newPos h)⟩

theorem char_turned (kp size c : ℕ) (e : Edit) : Turned kp size c e (e.char size c) := by
  rw [Edit.char]
  split
  · exact .shorter rfl (Nat.le_refl _)
  · -- What becomes of the stored line is no matter.
    have hput : Turned kp size c e
        (if e.count < size - 1 ∨ c = cr then e.put (UInt8.ofNat c) else e) := by
      split
      · rename_i hroom
        refine ⟨fun a ha _ => put_frame e _ ha, fun _ => ?_⟩
        rcases hroom with hroom | hcr
        · exact Or.inl hroom
        · exact Or.inr ⟨hcr, rfl⟩
      · exact .shorter rfl (Nat.le_refl _)
    dsimp only
    generalize (if e.count < size - 1 ∨ c = cr then e.put (UInt8.ofNat c) else e) = e₁ at hput ⊢
    split
    · exact ⟨hput.frame, hput.bound⟩
    · exact hput

/-- **A key** writes only to the line and to the buffer of the call. -/
theorem key_turned (kp size c : ℕ) (e : Edit) : Turned kp size c e (e.key kp size c) := by
  rw [Edit.key]
  split
  · exact .shorter rfl (Nat.le_refl _)
  split
  · split
    · rename_i hroom
      exact ⟨fun a ha _ => put_frame e _ ha, fun _ => Or.inl hroom.2⟩
    · exact .shorter rfl (Nat.le_refl _)
  split
  · exact copyTo_turned kp size c _ e
  split
  · exact ⟨fun a _ hout => memcpy_of_out hout, fun _ => Or.inl (Nat.zero_le _)⟩
  split
  · exact .shorter rfl (Nat.le_refl _)
  split
  · exact .shorter rfl (Nat.le_refl _)
  split
  · exact .shorter rfl (Nat.sub_le _ _)
  split
  · exact .shorter rfl (Nat.zero_le _)
  split
  · obtain ⟨hframe, hbound⟩ := char_turned kp size ctlZ e
    refine ⟨hframe, fun h => Or.inl ?_⟩
    rcases hbound h with hle | ⟨hcr, -⟩
    · exact hle
    · exact absurd hcr (by decide)
  · exact char_turned kp size c e

theorem turn_turned {kp size c : ℕ} {e e' : Edit} {keys keys' : List UInt8}
    (h : e.turn kp size keys = some (c, e', keys')) : Turned kp size c e e' := by
  rw [Edit.turn] at h
  split at h
  · cases h
  · split at h
    · split at h
      · cases h
      · split at h
        · split at h
          · cases h
          · cases h
            exact copyTo_turned kp size c _ e
        · cases h
          exact copyTo_turned kp size c _ e
    · cases h
      exact key_turned kp size c e

/-- The turn that ends the line is one of the key CR. -/
theorem turn_cr_key {kp size : ℕ} {e e' : Edit} {keys keys' : List UInt8}
    (h : e.turn kp size keys = some (cr, e', keys')) : e' = e.char size cr := by
  rw [Edit.turn] at h
  split at h
  · cases h
  · rename_i c keys₁ hnext
    split at h
    · rename_i hf
      have hc : c = cr := by
        split at h
        · cases h
        · split at h
          · split at h
            · cases h
            · exact congrArg Prod.fst (Option.some.inj h)
          · exact congrArg Prod.fst (Option.some.inj h)
      rw [hc] at hf
      exact absurd hf (by decide)
    · cases h
      rfl

/-- A CR is put behind the line. -/
theorem char_cr (size : ℕ) (e : Edit) :
    (e.char size cr).count = e.count + 1 ∧
      (e.char size cr).mem = (e.put (UInt8.ofNat cr)).mem := by
  rw [Edit.char, if_neg (by decide), if_pos (Or.inr rfl)]
  dsimp only
  split <;> exact ⟨rfl, rfl⟩

/-- The turn that ends the line puts a CR behind it. -/
theorem turn_cr {kp size : ℕ} {e e' : Edit} {keys keys' : List UInt8}
    (h : e.turn kp size keys = some (cr, e', keys')) :
    e'.count = e.count + 1 ∧ e'.mem (localBuffer + e.count) = UInt8.ofNat cr := by
  rw [turn_cr_key h, (char_cr size e).2]
  exact ⟨(char_cr size e).1, poke_self _ _ _⟩

/-! ## A line of the console -/

/-- The line is within `n` characters at all times while it is edited. -/
def Edit.within (bound kp size : ℕ) : ℕ → Edit → List UInt8 → Bool
  | 0, e, _ => e.count ≤ bound
  | n + 1, e, keys =>
    decide (e.count ≤ bound) &&
      match e.turn kp size keys with
      | none => true
      | some (c, e, keys) => decide (e.count ≤ bound) && (c == cr || within bound kp size n e keys)

/-- **A whole line** within `bound` characters leaves what is behind them, but for the buffer of the
call. -/
theorem loop_frame {bound kp size n : ℕ} {e e' : Edit} {keys : List UInt8}
    (h : e.loop kp size n keys = some e') (hw : e.within bound kp size n keys = true)
    (hsize : e.count ≤ size - 1) {a : ℕ} (ha : localBuffer + bound ≤ a)
    (hout : ¬ (kp + 2 ≤ a ∧ a < kp + 2 + size)) : e'.mem a = e.mem a := by
  induction n generalizing e keys with
  | zero => cases h
  | succ n ih =>
    rw [Edit.loop] at h
    rw [Edit.within, Bool.and_eq_true] at hw
    cases ht : e.turn kp size keys with
    | none =>
      rw [ht] at h
      cases h
    | some t =>
      obtain ⟨c, e₁, keys₁⟩ := t
      rw [ht] at h hw
      simp only [Bool.and_eq_true, decide_eq_true_eq, Bool.or_eq_true, beq_iff_eq] at hw
      have hturn := turn_turned ht
      have hmem : e₁.mem a = e.mem a := hturn.frame a (by omega) (by omega)
      dsimp only at h
      split at h
      · cases h
        exact hmem
      · rename_i hc
        have hsize₁ : e₁.count ≤ size - 1 := by
          rcases hturn.bound hsize with hle | ⟨hcr, -⟩
          · exact hle
          · exact absurd hcr hc
        rw [ih h (hw.2.2.resolve_left hc) hsize₁, hmem]

/-- A line ends with its CR, and has no more characters than there is room for. -/
theorem loop_line {kp size n : ℕ} {e e' : Edit} {keys : List UInt8}
    (h : e.loop kp size n keys = some e') (hsize : e.count ≤ size - 1) :
    0 < e'.count ∧ e'.count - 1 ≤ size - 1 ∧
      e'.mem (localBuffer + (e'.count - 1)) = UInt8.ofNat cr := by
  induction n generalizing e keys with
  | zero => cases h
  | succ n ih =>
    rw [Edit.loop] at h
    cases ht : e.turn kp size keys with
    | none =>
      rw [ht] at h
      cases h
    | some t =>
      obtain ⟨c, e₁, keys₁⟩ := t
      rw [ht] at h
      have hturn := turn_turned ht
      dsimp only at h
      split at h
      · rename_i hc
        cases h
        subst hc
        obtain ⟨hcount, hmem⟩ := turn_cr ht
        rw [hcount, Nat.add_sub_cancel]
        exact ⟨Nat.succ_pos _, hsize, hmem⟩
      · rename_i hc
        refine ih h ?_
        rcases hturn.bound hsize with hle | ⟨hcr, -⟩
        · exact hle
        · exact absurd hcr hc

/-! ## Calls -/

/-- The text that `read_line_handle` is to deliver: the line with CR and LF, or nothing if it
begins with Ctrl-Z. -/
def lineText (e : Edit) : List UInt8 :=
  let text := bytesAt e.mem localBuffer (e.count - 1) ++ [UInt8.ofNat cr, UInt8.ofNat lf]
  if text.head? = some (UInt8.ofNat ctlZ) then [] else text

/-- A line that was entered through `read_line_handle`, and what was delivered for it. -/
structure Record where
  text : List UInt8
  delivered : List UInt8

/-- The console, and the lines entered up to now, the last one first. -/
structure State where
  con : Con
  records : List Record

/-- A call, with the characters that are typed if it reads a line. -/
inductive Call where
  /-- `read_line_handle` -/
  | readHandle (n : ℕ) (keys : List UInt8)
  /-- INT 21h, function 0Ah, with the buffer at `kp`. -/
  | buffered (kp : ℕ) (keys : List UInt8)

/-- What is delivered goes to the line that it is of. -/
def addChunk (s : State) (keys chunk : List UInt8) : List Record :=
  match s.con.inputptr, s.records with
  | some _, r :: rs => { r with delivered := r.delivered ++ chunk } :: rs
  | _, rs =>
    match enter (reuse s.con.mem) kbBuf keys with
    | none => rs
    | some e => ⟨lineText e, chunk⟩ :: rs

/-- The state after a call. -/
def serve (s : State) : Call → Option State
  | .readHandle n keys =>
    (readLineHandle s.con n keys).map fun r => ⟨r.2, addChunk s keys r.1⟩
  | .buffered kp keys => (readLine s.con.mem kp keys).map fun m => { s with con.mem := m }

/-- The state after calls that all return. -/
def serveAll (s : Option State) (c : Call) : Option State := s.bind fun s => serve s c

/-- **Nothing is lost or invented**: what was delivered of each line is the line, or if it is still
being delivered, its beginning. -/
def Exact (s : State) : Prop :=
  match s.records with
  | [] => True
  | r :: rs => r.delivered <+: r.text ∧ (s.con.inputptr = none → r.delivered = r.text) ∧
      ∀ r' ∈ rs, r'.delivered = r'.text

/-- The buffer at `kp` is not that of the console. -/
def Apart (m : Mem) (kp : ℕ) : Prop := kp + 2 + kbSize m kp ≤ localBuffer ∨ kbEnd ≤ kp

/-- While a rest of a line is there, no line is edited that gets longer than 129 characters. -/
def Spares (s : State) (kp : ℕ) (keys : List UInt8) : Prop :=
  s.con.inputptr ≠ none → (startEdit s.con.mem kp).within 129 kp (kbSize s.con.mem kp) keys.length keys

/-- What is asked of a call. -/
def Allowed (s : State) : Call → Prop
  | .readHandle _ _ => True
  | .buffered kp keys => Apart s.con.mem kp ∧ Spares s kp keys

instance (m : Mem) (kp : ℕ) : Decidable (Apart m kp) := inferInstanceAs (Decidable (_ ∨ _))

instance (s : State) (kp : ℕ) (keys : List UInt8) : Decidable (Spares s kp keys) :=
  inferInstanceAs (Decidable (_ → _))

instance (s : State) : ∀ c : Call, Decidable (Allowed s c)
  | .readHandle _ _ => .isTrue trivial
  | .buffered _ _ => inferInstanceAs (Decidable (_ ∧ _))

/-! ## What the calls keep -/

/-- All of the lines `rs` have been delivered. -/
def AllDelivered (rs : List Record) : Prop := ∀ r ∈ rs, r.delivered = r.text

/-- The rest of a line, from `a` on, is `left` bytes. -/
structure Rest (m : Mem) (a left : ℕ) (r : Record) : Prop where
  count : kbCount m kbBuf ≤ 127
  pos : 0 < left
  start : kbBuf + 2 ≤ a
  stop : a + left = kbBuf + 2 + (kbCount m kbBuf + 2)
  text : r.text = r.delivered ++ bytesAt m a left

/-- What the console has to deliver is what has not been delivered yet. -/
def Inv (s : State) : Prop :=
  match s.con.inputptr with
  | none => AllDelivered s.records
  | some a => ∃ r rs left, s.records = r :: rs ∧ Rest s.con.mem a left r ∧ AllDelivered rs

theorem Inv.exact {s : State} (h : Inv s) : Exact s := by
  rw [Inv] at h
  rw [Exact]
  cases hptr : s.con.inputptr with
  | none =>
    rw [hptr] at h
    cases hrec : s.records with
    | nil => trivial
    | cons r rs =>
      rw [hrec] at h
      have hr := h r List.mem_cons_self
      exact ⟨hr ▸ List.prefix_refl _, fun _ => hr, fun r' hr' => h r' (List.mem_cons_of_mem _ hr')⟩
  | some a =>
    rw [hptr] at h
    obtain ⟨r, rs, left, hrec, hrest, hall⟩ := h
    rw [hrec]
    exact ⟨hrest.text ▸ List.prefix_append _ _, fun hnone => (Option.some_ne_none a hnone).elim, hall⟩

/-- A chunk of a line with `left` bytes left. -/
theorem chunk_eq {con : Con} {a left n : ℕ} {r : Record} (h : Rest con.mem a left r) :
    con.chunk a n = (bytesAt con.mem a (min left n),
      { con with inputptr := if left ≤ n then none else some (a + n) }) := by
  have hstop := h.stop
  have hcount := h.count
  have hstart := h.start
  have hleft : (kbBuf + 2 + (kbCount con.mem kbBuf + 2) + 2 ^ 16 - a) % 2 ^ 16 = left := by
    rw [← hstop, Nat.add_assoc, Nat.add_sub_cancel_left, Nat.add_mod_right]
    exact Nat.mod_eq_of_lt (by omega)
  rw [Con.chunk, hleft]
  by_cases hle : left ≤ n
  · rcases Nat.lt_or_eq_of_le hle with hlt | rfl
    · simp only [if_pos hlt, if_true, if_pos hle, Nat.min_eq_left hle]
    · simp only [Nat.lt_irrefl, if_false, if_true, Nat.le_refl, Nat.min_self]
  · have hn : n ≠ left := by omega
    simp only [if_neg (show ¬ left < n by omega), if_neg hn, if_neg hle,
      Nat.min_eq_right (Nat.le_of_not_le hle)]

/-- What a chunk leaves of a line. -/
theorem chunk_inv {con : Con} {a left n : ℕ} {r : Record} {rs : List Record}
    (h : Rest con.mem a left r) (hall : AllDelivered rs) :
    Inv ⟨(con.chunk a n).2, { r with delivered := r.delivered ++ (con.chunk a n).1 } :: rs⟩ := by
  rw [chunk_eq h]
  by_cases hle : left ≤ n
  · rw [if_pos hle, Nat.min_eq_left hle]
    intro r' hr'
    rcases List.mem_cons.mp hr' with rfl | hr'
    · exact h.text.symm
    · exact hall r' hr'
  · rw [if_neg hle, Nat.min_eq_right (Nat.le_of_not_le hle)]
    have hstop := h.stop
    refine ⟨_, rs, left - n, rfl, ⟨h.count, by omega, Nat.le_trans h.start (Nat.le_add_right a n),
      by dsimp only; omega, ?_⟩, hall⟩
    dsimp only
    rw [List.append_assoc, ← bytesAt_add, Nat.add_sub_cancel' (Nat.le_of_not_le hle)]
    exact h.text

/-! ### A line that is read -/

theorem reuse_size (m : Mem) : kbSize (reuse m) kbBuf = lineBufSizeCon := by
  rw [reuse]
  split
  · rw [kbSize, poke_self]
    rfl
  · rename_i h
    exact not_not.mp h

/-- `kb_buf` once a line has been read into it. -/
theorem fresh_line {m : Mem} {keys : List UInt8} {e : Edit} (h : enter (reuse m) kbBuf keys = some e) :
    let m' := deliver e kbBuf
    let m' := poke m' (kbBuf + 2 + kbCount m' kbBuf + 1) (UInt8.ofNat lf)
    kbCount m' kbBuf = e.count - 1 ∧ e.count - 1 ≤ 127 ∧
      bytesAt m' (kbBuf + 2) (kbCount m' kbBuf + 2) =
        bytesAt e.mem localBuffer (e.count - 1) ++ [UInt8.ofNat cr, UInt8.ofNat lf] := by
  rw [enter, reuse_size] at h
  obtain ⟨hpos, hbound, hcr⟩ := loop_line h (Nat.zero_le _)
  rw [lineBufSizeCon] at hbound
  have hnot : ¬ lineBufSizeCon < e.count := by rw [lineBufSizeCon]; omega
  have hdeliver : deliver e kbBuf = poke (memcpy e.mem (kbBuf + 2) localBuffer e.count) (kbBuf + 1)
      (UInt8.ofNat (e.count - 1)) := by rw [deliver, if_neg hnot]
  have hcount : kbCount (deliver e kbBuf) kbBuf = e.count - 1 := by
    rw [kbCount, hdeliver, poke_self, UInt8.toNat_ofNat']
    exact Nat.mod_eq_of_lt (by omega)
  dsimp only
  rw [hcount]
  have hcount' : kbCount (poke (deliver e kbBuf) (kbBuf + 2 + (e.count - 1) + 1) (UInt8.ofNat lf))
      kbBuf = e.count - 1 := by
    rw [kbCount, poke_of_ne (by omega), ← kbCount, hcount]
  refine ⟨hcount', hbound, ?_⟩
  have hbyte : ∀ i < e.count, poke (deliver e kbBuf) (kbBuf + 2 + (e.count - 1) + 1) (UInt8.ofNat lf)
      (kbBuf + 2 + i) = e.mem (localBuffer + i) := by
    intro i hi
    rw [poke_of_ne (by omega), hdeliver, poke_of_ne (by omega), memcpy_add hi]
  rw [hcount', bytesAt_succ, bytesAt_succ, hbyte _ (by omega), hcr, Nat.add_succ (kbBuf + 2),
    poke_self, List.append_assoc]
  rw [bytesAt_congr fun i hi => hbyte i (by omega)]
  rfl

theorem head_bytesAt (m : Mem) (a n : ℕ) : (bytesAt m a (n + 1)).head? = some (m a) := by
  rw [Nat.add_comm, bytesAt_add, bytesAt_succ]
  rfl

/-- **A line that `read_line_handle` reads**, and its first chunk. -/
theorem readHandle_fresh {s : State} {n : ℕ} {keys chunk : List UInt8} {con : Con}
    (hptr : s.con.inputptr = none) (hall : AllDelivered s.records)
    (h : readLineHandle s.con n keys = some (chunk, con)) : Inv ⟨con, addChunk s keys chunk⟩ := by
  rw [readLineHandle, hptr, readLine, if_neg (by rw [reuse_size]; decide)] at h
  cases he : enter (reuse s.con.mem) kbBuf keys with
  | none =>
    rw [he] at h
    cases h
  | some e =>
    have hrecords : addChunk s keys chunk = ⟨lineText e, chunk⟩ :: s.records := by
      rw [addChunk, hptr, he]
    obtain ⟨hcount, hbound, htext⟩ := fresh_line he
    rw [hrecords, lineText, ← htext]
    rw [he, Option.map_some] at h
    dsimp only at h
    generalize deliver e kbBuf = m at h hcount htext ⊢
    generalize poke m (kbBuf + 2 + kbCount m kbBuf + 1) (UInt8.ofNat lf) = m' at h hcount htext ⊢
    have hhead : (bytesAt m' (kbBuf + 2) (kbCount m' kbBuf + 2)).head? = some (m' (kbBuf + 2)) :=
      head_bytesAt _ _ _
    by_cases hz : m' (kbBuf + 2) = UInt8.ofNat ctlZ
    · rw [if_pos hz] at h
      rw [if_pos (hhead.trans (congrArg some hz))]
      cases h
      intro r hr
      rcases List.mem_cons.mp hr with rfl | hr
      · rfl
      · exact hall r hr
    · rw [if_neg hz] at h
      rw [if_neg (fun heq => hz (Option.some.inj (hhead.symm.trans heq)))]
      have hrest : Rest m' (kbBuf + 2) (kbCount m' kbBuf + 2)
          ⟨bytesAt m' (kbBuf + 2) (kbCount m' kbBuf + 2), []⟩ :=
        ⟨hcount ▸ hbound, Nat.succ_pos _, Nat.le_refl _, rfl, rfl⟩
      have hinv := @chunk_inv ⟨m', none⟩ _ _ n _ _ hrest hall
      cases h
      exact hinv

theorem readHandle_inv {s : State} {n : ℕ} {keys chunk : List UInt8} {con : Con} (hs : Inv s)
    (h : readLineHandle s.con n keys = some (chunk, con)) : Inv ⟨con, addChunk s keys chunk⟩ := by
  rw [Inv] at hs
  cases hptr : s.con.inputptr with
  | none =>
    rw [hptr] at hs
    exact readHandle_fresh hptr hs h
  | some a =>
    rw [hptr] at hs
    obtain ⟨r, rs, left, hrec, hrest, hall⟩ := hs
    rw [readLineHandle, hptr] at h
    have hinv := chunk_inv (n := n) hrest hall
    cases h
    rw [addChunk, hptr, hrec]
    exact hinv

/-- **`read_line` for another buffer** leaves the rest of a line, if it spares it. -/
theorem readLine_frame {m m' : Mem} {kp : ℕ} {keys : List UInt8} (h : readLine m kp keys = some m')
    (hkp : Apart m kp) (hw : (startEdit m kp).within 129 kp (kbSize m kp) keys.length keys) {a : ℕ}
    (ha : kbBuf + 1 ≤ a) (hend : a < kbEnd) : m' a = m a := by
  rw [readLine] at h
  split at h
  · cases h
    rfl
  · rename_i hsize
    cases he : enter m kp keys with
    | none =>
      rw [he] at h
      cases h
    | some e =>
      rw [he] at h
      cases h
      have hout : ¬ (kp + 2 ≤ a ∧ a < kp + 2 + kbSize m kp) := by
        rcases hkp with hkp | hkp <;> rw [kbBuf] at * <;> omega
      have hmem := loop_frame he hw (Nat.zero_le _) (show localBuffer + 129 ≤ a from ha) hout
      obtain ⟨hpos, hcount, -⟩ := loop_line he (Nat.zero_le _)
      have hkp1 : a ≠ kp + 1 := by
        rcases hkp with hkp | hkp <;> rw [kbBuf] at * <;> omega
      change deliver e kp a = m a
      rw [deliver, poke_of_ne hkp1]
      have hcopy : memcpy e.mem (kp + 2) localBuffer e.count a = m a := by
        rw [memcpy_of_out (by omega), hmem]
        rfl
      split
      · rw [poke_of_ne (by omega), hcopy]
      · exact hcopy

theorem buffered_inv {s : State} {kp : ℕ} {keys : List UInt8} {m' : Mem} (hs : Inv s)
    (hkp : Apart s.con.mem kp) (hspares : Spares s kp keys)
    (h : readLine s.con.mem kp keys = some m') : Inv { s with con.mem := m' } := by
  rw [Inv] at hs ⊢
  dsimp only
  cases hptr : s.con.inputptr with
  | none =>
    rw [hptr] at hs
    exact hs
  | some a =>
    rw [hptr] at hs
    obtain ⟨r, rs, left, hrec, hrest, hall⟩ := hs
    have hframe : ∀ b, kbBuf + 1 ≤ b → b < kbEnd → m' b = s.con.mem b := fun b hb hend =>
      readLine_frame h hkp (hspares (by rw [hptr]; exact Option.some_ne_none a)) hb hend
    have hcount : kbCount m' kbBuf = kbCount s.con.mem kbBuf := by
      rw [kbCount, kbCount, hframe _ (Nat.le_refl _) (by decide)]
    have hstop := hrest.stop
    have hbound := hrest.count
    have hbytes : bytesAt m' a left = bytesAt s.con.mem a left := by
      refine bytesAt_congr fun i hi => hframe _ ?_ ?_
      · have hstart := hrest.start
        omega
      · rw [kbEnd, lineBufSizeCon]
        omega
    exact ⟨r, rs, left, hrec, ⟨hcount ▸ hbound, hrest.pos, hrest.start, by rw [hcount]; exact hstop,
      by rw [hbytes]; exact hrest.text⟩, hall⟩

theorem serve_inv {s s' : State} {c : Call} (hs : Inv s) (hc : Allowed s c)
    (h : serve s c = some s') : Inv s' := by
  cases c with
  | readHandle n keys =>
    rw [serve, Option.map_eq_some_iff] at h
    obtain ⟨⟨chunk, con⟩, hread, rfl⟩ := h
    exact readHandle_inv hs hread
  | buffered kp keys =>
    rw [serve, Option.map_eq_some_iff] at h
    obtain ⟨m', hread, rfl⟩ := h
    exact buffered_inv hs hc.1 hc.2 hread

/-- **The chunks of each line make up the line**, in every run in which no line of more than 129
characters is edited in another buffer while a rest of one is there. -/
theorem delivered_exact {m : Mem} {calls : List Call}
    (h : Along serveAll (fun o c => ∀ s ∈ o, Allowed s c) (some ⟨⟨m, none⟩, []⟩) calls) :
    ∀ s ∈ runSteps serveAll (some ⟨⟨m, none⟩, []⟩) calls, Exact s := by
  have hstep : ∀ (o : Option State) (c : Call), (∀ s ∈ o, Inv s) → (∀ s ∈ o, Allowed s c) →
      ∀ s ∈ serveAll o c, Inv s := by
    intro o c ho hc s' hs'
    rw [serveAll, Option.mem_def, Option.bind_eq_some_iff] at hs'
    obtain ⟨s, hs, hserve⟩ := hs'
    exact serve_inv (ho s hs) (hc s hs) hserve
  have hinit : ∀ s ∈ (some ⟨⟨m, none⟩, []⟩ : Option State), Inv s := by
    intro s hs
    obtain rfl := Option.some.inj hs
    intro r hr
    cases hr
  exact fun s hs => (inv_run hstep hinit h s hs).exact

/-! ## A line that is overrun -/

/-- The memory at first, with a buffer of 255 characters at 1000h. -/
def bootMem : Mem := fun a => if a = kbBuf then 128 else if a = 0x1000 then 255 else 0

/-- The line `AB` is read, and one character of it delivered; then a line of `n` times `x` goes into
another buffer, and the rest of the first one is asked for. -/
def interposed (n : ℕ) : List Call :=
  [.readHandle 1 [65, 66, 13], .buffered 0x1000 (List.replicate n 120 ++ [13]), .readHandle 100 []]

theorem delivered_exact_interposed :
    Along serveAll (fun o c => ∀ s ∈ o, Allowed s c) (some ⟨⟨bootMem, none⟩, []⟩) (interposed 2) ∧
      ∀ s ∈ runSteps serveAll (some ⟨⟨bootMem, none⟩, []⟩) (interposed 2), Exact s := by
  have h : Along serveAll (fun o c => ∀ s ∈ o, Allowed s c) (some ⟨⟨bootMem, none⟩, []⟩)
      (interposed 2) := by decide +kernel
  exact ⟨h, delivered_exact h⟩

/-- **A line of 130 characters**, with its CR, overruns the count of `kb_buf`, by which eleven
bytes more than the line are delivered. -/
theorem interposed_inexact : Apart bootMem 0x1000 ∧
    ∃ s ∈ runSteps serveAll (some ⟨⟨bootMem, none⟩, []⟩) (interposed 129), ¬ Exact s := by
  have hrun : (runSteps serveAll (some ⟨⟨bootMem, none⟩, []⟩) (interposed 129)).map
      (fun s => (s.con.inputptr, s.records.map fun r => (r.text, r.delivered))) =
        some (none, [([65, 66, 13, 10], [65, 66, 13, 10] ++ List.replicate 11 0)]) := by
    decide +kernel
  obtain ⟨s, hs, heq⟩ := Option.map_eq_some_iff.mp hrun
  obtain ⟨hptr, hrecords⟩ := Prod.mk.inj heq
  refine ⟨by decide, s, hs, fun hexact => ?_⟩
  obtain ⟨r, hrec, hr⟩ := List.map_eq_singleton_iff.mp hrecords
  rw [Exact, hrec] at hexact
  have hsame := hexact.2.1 hptr
  rw [(Prod.mk.inj hr).1, (Prod.mk.inj hr).2] at hsame
  exact absurd hsame (by decide)

end Console
end BurdahDos
