import Mathlib

/-!
# Line input from the console

`read_line` and `read_line_handle` of `kernel/chario.c`, over a memory of bytes in which
`local_buffer` lies just in front of `kb_buf`, as `kernel/kernel.asm` lays them out.  A call is
given the characters that `read_char_check_break` returns to it; `none` is a call that does not
return as there are too few.

The echo to the screen, and what it does to the cursor, is left out.
-/

set_option autoImplicit false

namespace BurdahDos
namespace Console

/-! ## Memory -/

abbrev Mem := ℕ → UInt8

/-- `local_buffer` -/
def localBuffer : ℕ := 0x1fb

/-- `LINEBUFSIZECON` -/
def lineBufSizeCon : ℕ := 128

/-- `kb_buf` -/
def kbBuf : ℕ := localBuffer + 128

/-- The end of `kb_buf`. -/
def kbEnd : ℕ := kbBuf + 2 + (lineBufSizeCon + 1)

/-- `kp->kb_size` -/
def kbSize (m : Mem) (kp : ℕ) : ℕ := (m kp).toNat

/-- `kp->kb_count` -/
def kbCount (m : Mem) (kp : ℕ) : ℕ := (m (kp + 1)).toNat

/-- The bytes at an address. -/
def bytesAt (m : Mem) (a n : ℕ) : List UInt8 := (List.range n).map fun i => m (a + i)

/-- `fmemcpy` -/
def memcpy (m : Mem) (dst src n : ℕ) : Mem := fun a =>
  if dst ≤ a ∧ a < dst + n then m (src + (a - dst)) else m a

/-- A byte is stored. -/
def poke (m : Mem) (a : ℕ) (c : UInt8) : Mem := Function.update m a c

/-! ## Keys -/

/-- `CTL_F` -/
def ctlF : ℕ := 0x06
/-- `BS` -/
def bs : ℕ := 0x08
/-- `LF` -/
def lf : ℕ := 0x0a
/-- `CR` -/
def cr : ℕ := 0x0d
/-- `CTL_Z` -/
def ctlZ : ℕ := 0x1a
/-- `ESC` -/
def esc : ℕ := 0x1b
/-- `CTL_BS` -/
def ctlBs : ℕ := 0x7f
/-- `INS` -/
def ins : ℕ := 0x5200
/-- `DEL` -/
def del : ℕ := 0x5300
/-- `F1` -/
def f1 : ℕ := 0x3b00
/-- `F2` -/
def f2 : ℕ := 0x3c00
/-- `F3` -/
def f3 : ℕ := 0x3d00
/-- `F4` -/
def f4 : ℕ := 0x3e00
/-- `F5` -/
def f5 : ℕ := 0x3f00
/-- `F6` -/
def f6 : ℕ := 0x4000
/-- `LEFT` -/
def left : ℕ := 0x4b00
/-- `RIGHT` -/
def right : ℕ := 0x4d00

/-- The next key: a character, or 0 and the code of a function key. -/
def nextKey : List UInt8 → Option (ℕ × List UInt8)
  | [] => none
  | c :: keys =>
    if c = 0 then
      match keys with
      | [] => none
      | h :: keys => some (h.toNat <<< 8, keys)
    else some (c.toNat, keys)

/-! ## `read_line` -/

/-- The variables of `read_line`. -/
structure Edit where
  mem : Mem
  count : ℕ
  storedPos : ℕ
  storedSize : ℕ
  insert : Bool

/-- `local_buffer[count++] = c` -/
def Edit.put (e : Edit) (c : UInt8) : Edit :=
  { e with mem := poke e.mem (localBuffer + e.count) c, count := e.count + 1 }

/-- `local_buffer[count++] = kp->kb_buf[stored_pos++]` -/
def Edit.recall (e : Edit) (kp : ℕ) : Edit :=
  { e.put (e.mem (kp + 2 + e.storedPos)) with storedPos := e.storedPos + 1 }

/-- `while (stored_pos < new_pos && count < size - 1)`, of which there are at most `n` turns. -/
def Edit.recallTo (kp size newPos : ℕ) : ℕ → Edit → Edit
  | 0, e => e
  | n + 1, e =>
    if e.storedPos < newPos ∧ e.count < size - 1 then recallTo kp size newPos n (e.recall kp) else e

/-- How far `F2` and `F4` go: behind the next character `c2` of the stored line. -/
def Edit.newPos (e : Edit) (kp : ℕ) (c2 : UInt8) : ℕ :=
  match (List.range ((e.storedSize + 2 ^ 16 - e.storedPos) % 2 ^ 16)).find? fun j =>
      e.mem (kp + 2 + (e.storedPos + j) % 2 ^ 16) == c2 with
  | none => e.storedPos
  | some j => (j + 1) % 2 ^ 16

/-- `start_new_line` -/
def Edit.startNewLine (e : Edit) : Edit := { e with count := 0, storedPos := 0, insert := false }

/-- `F2`, `F3` and `F4`. -/
def Edit.copyTo (e : Edit) (kp size c newPos : ℕ) : Edit :=
  let e := if c = f4 then e else e.recallTo kp size newPos newPos
  { e with storedPos := newPos }

/-- The `default` case of the keys. -/
def Edit.char (e : Edit) (size c : ℕ) : Edit :=
  if 256 ≤ c then e
  else
    let e := if e.count < size - 1 ∨ c = cr then e.put (UInt8.ofNat c) else e
    if e.storedPos < e.storedSize ∧ e.insert = false then { e with storedPos := e.storedPos + 1 } else e

/-- What a key does, but for `F2` and `F4`. -/
def Edit.key (e : Edit) (kp size c : ℕ) : Edit :=
  if c = lf ∨ c = ctlF then e
  else if c = right ∨ c = f1 then
    if e.storedPos < e.storedSize ∧ e.count < size - 1 then e.recall kp else e
  else if c = f3 then e.copyTo kp size c e.storedSize
  else if c = f5 then
    { e with mem := memcpy e.mem (kp + 2) localBuffer e.count, storedSize := e.count }.startNewLine
  else if c = ins then { e with insert := !e.insert }
  else if c = del then { e with storedPos := e.storedPos + 1 }
  else if c = left ∨ c = ctlBs ∨ c = bs then
    { e with count := e.count - 1, storedPos := e.storedPos - 1 }
  else if c = esc then e.startNewLine
  else if c = f6 then e.char size ctlZ
  else e.char size c

/-- One turn of the loop: the key, and the characters that are left. -/
def Edit.turn (e : Edit) (kp size : ℕ) (keys : List UInt8) : Option (ℕ × Edit × List UInt8) :=
  match nextKey keys with
  | none => none
  | some (c, keys) =>
    if c = f2 ∨ c = f4 then
      match keys with
      | [] => none
      | c2 :: keys =>
        if c2 = 0 then
          match keys with
          | [] => none
          | _ :: keys => some (c, e.copyTo kp size c e.storedPos, keys)
        else some (c, e.copyTo kp size c (e.newPos kp c2), keys)
    else some (c, e.key kp size c, keys)

/-- The loop; it takes a character at least in each of its `n` turns. -/
def Edit.loop (kp size : ℕ) : ℕ → Edit → List UInt8 → Option Edit
  | 0, _, _ => none
  | n + 1, e, keys =>
    match e.turn kp size keys with
    | none => none
    | some (c, e, keys) => if c = cr then some e else loop kp size n e keys

/-- The loop begins with the stored line, which is invalid unless it ends with a CR. -/
def startEdit (m : Mem) (kp : ℕ) : Edit where
  mem := m
  count := 0
  storedPos := 0
  storedSize := if m (kp + 2 + kbCount m kp) = UInt8.ofNat cr then kbCount m kp else 0
  insert := false

/-- The line that is entered, in `local_buffer`. -/
def enter (m : Mem) (kp : ℕ) (keys : List UInt8) : Option Edit :=
  (startEdit m kp).loop kp (kbSize m kp) keys.length keys

/-- What `read_line` does with the line. -/
def deliver (e : Edit) (kp : ℕ) : Mem :=
  let m := memcpy e.mem (kp + 2) localBuffer e.count
  -- If `local_buffer` overflows into `kb_buf`, that is to be invalidated.
  let m := if lineBufSizeCon < e.count then poke m kbBuf 0 else m
  poke m (kp + 1) (UInt8.ofNat (e.count - 1))

/-- `read_line` -/
def readLine (m : Mem) (kp : ℕ) (keys : List UInt8) : Option Mem :=
  if kbSize m kp = 0 then some m else (enter m kp keys).map fun e => deliver e kp

/-! ## `read_line_handle` -/

/-- The memory, and `inputptr`. -/
structure Con where
  mem : Mem
  inputptr : Option ℕ

/-- `kb_buf` is made fit for reading a line into. -/
def reuse (m : Mem) : Mem :=
  if kbSize m kbBuf ≠ lineBufSizeCon then
    poke (poke m (kbBuf + 1) 0) kbBuf (UInt8.ofNat lineBufSizeCon)
  else m

/-- The delivery of the next `n` bytes, from `inputptr` on. -/
def Con.chunk (s : Con) (inputptr n : ℕ) : List UInt8 × Con :=
  let charsLeft := (kbBuf + 2 + (kbCount s.mem kbBuf + 2) + 2 ^ 16 - inputptr) % 2 ^ 16
  let n := if charsLeft < n then charsLeft else n
  (bytesAt s.mem inputptr n, { s with inputptr := if n = charsLeft then none else some (inputptr + n) })

/-- `read_line_handle`, with the characters typed if it reads a line. -/
def readLineHandle (s : Con) (n : ℕ) (keys : List UInt8) : Option (List UInt8 × Con) :=
  match s.inputptr with
  | some inputptr => some (s.chunk inputptr n)
  | none =>
    match readLine (reuse s.mem) kbBuf keys with
    | none => none
    | some m =>
      let m := poke m (kbBuf + 2 + kbCount m kbBuf + 1) (UInt8.ofNat lf)
      if m (kbBuf + 2) = UInt8.ofNat ctlZ then some ([], ⟨m, none⟩)
      else some (Con.chunk ⟨m, none⟩ (kbBuf + 2) n)

end Console
end BurdahDos
