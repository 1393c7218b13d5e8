import BurdahDos.Lib.CString
import Mathlib

/-!
# The environment of CONFIG.SYS

`CmdSet` of `kernel/config.c`, with `searchvar` and `deletevar`, and what `DoMenu` leaves in
`master_env`.  `master_env` is an array of 128 bytes, all zero at first, and an access behind it has
no outcome.  Pointers into it are offsets.
-/

set_option autoImplicit false

namespace BurdahDos
namespace Config

open CString

abbrev Str := List UInt8

/-! ## Lines -/

/-- What is behind the verb in a line that `szLine` can hold. -/
structure Line where
  text : Str
  nonul : 0 ∉ text
  length_le : text.length ≤ 253

/-- `iswh` -/
def iswh (c : UInt8) : Bool := c == 13 || c == 10 || c == 9 || c == 32

/-- `skipwh` -/
def skipwh (s : Str) : Str := s.dropWhile iswh

/-- `toupper` -/
def toupper (c : UInt8) : UInt8 := if 97 ≤ c ∧ c ≤ 122 then c - 32 else c

/-- `strupr` -/
def strupr (s : Str) : Str := s.map toupper

/-- The character is part of a word. -/
def inWord (c : UInt8) : Bool := !iswh c && c != 61

/-- A `!` in front of a word is skipped. -/
def skipMark : Str → Str
  | 33 :: s => skipwh s
  | s => s

/-- `scan(s, d, 0)`: the word, and what is behind it. -/
def scan (s : Str) : Str × Str :=
  match skipMark (skipwh s) with
  | 59 :: t => ([59], t)
  | t => ((t.takeWhile inWord).filter (· ≠ 63), t.dropWhile inWord)

/-! ## Memory -/

/-- The words that `rep movsw` copies. -/
def copyWords (b : Bytes) : ℕ → ℕ → ℕ → Option Bytes
  | 0, _, _ => some b
  | n + 1, d, s =>
    match b[s]?, b[s + 1]? with
    | some lo, some hi => (write b d [lo, hi]).bind fun b => copyWords b n (d + 2) (s + 2)
    | _, _ => none

/-- `fmemcpy`: forwards, by words and then a byte. -/
def fmemcpy (b : Bytes) (d s n : ℕ) : Option Bytes :=
  (copyWords b (n / 2) d s).bind fun b =>
    if n % 2 = 0 then some b
    else (b[s + n / 2 * 2]?).bind fun c => store b (d + n / 2 * 2) c

/-- `fmemcmp` finds the bytes equal: it looks no further than to the first that differs. -/
def fmemcmpEq : Bytes → Str → Option Bool
  | _, [] => some true
  | [], _ :: _ => none
  | x :: b, c :: s => if x = c then fmemcmpEq b s else some false

/-- `fstrlen` -/
def fstrlen (b : Bytes) (p : ℕ) : Option ℕ := (str b p).map List.length

/-! ## The environment -/

/-- `sizeof(master_env)` -/
def masterSize : ℕ := 128

/-- `master_env` and `envp`. -/
structure Master where
  env : Bytes
  envp : ℕ

/-- `master_env` before `CONFIG.SYS` is read. -/
def Master.start : Master := ⟨List.replicate masterSize 0, 0⟩

/-- A string is put at the end of the environment. -/
def Master.append (m : Master) (s : Str) : Option Master :=
  (strcpy m.env m.envp s).bind fun env =>
  let envp := m.envp + (s.length + 1)
  (store env envp 0).bind fun env =>
  (store env (envp + 1) 0).bind fun env =>
  (store env (envp + 2) 0).bind fun env => some ⟨env, envp⟩

/-- "CONFIG=" -/
def configIs : Str := [67, 79, 78, 70, 73, 71, 61]

/-- What `sprintf(buffer, "CONFIG=%c", MenuSelected+'0')` leaves in the buffer, as a string. -/
def configString (menuSelected : UInt8) : Str :=
  configIs ++ if menuSelected + 48 = 0 then [] else [menuSelected + 48]

/-- What `DoMenu` leaves, with the configuration selected if there is a menu. -/
def doMenu (menu : Option UInt8) : Option Master :=
  match menu with
  | none => some Master.start
  | some menuSelected => Master.start.append (configString menuSelected)

/-- The loop of `searchvar`. -/
def searchLoop (env : Bytes) (key : Str) : ℕ → ℕ → Option (Option ℕ)
  | 0, _ => none
  | fuel + 1, pp =>
    match fmemcmpEq (env.drop pp) key with
    | none => none
    | some true => some (some pp)
    | some false =>
      (fstrlen env pp).bind fun n =>
        match env[pp + (n + 1)]? with
        | none => none
        | some c => if c ≠ 0 then searchLoop env key fuel (pp + (n + 1)) else some none

/-- `searchvar`, with the name and `=` behind it.  A turn of its loop goes on by a byte at least. -/
def searchvar (env : Bytes) (key : Str) : Option (Option ℕ) := searchLoop env key (masterSize + 1) 0

/-- `deletevar` -/
def deletevar (m : Master) : Option ℕ → Option Master
  | none => some m
  | some pp =>
    (fstrlen m.env pp).bind fun n =>
    let variablelength := n + 1
    (fmemcpy m.env pp (pp + variablelength)
      ((m.envp + 3 + 65536 - (pp + variablelength)) % 65536)).bind fun env =>
    some ⟨env, m.envp - variablelength⟩

/-- How many bytes `deletevar` is going to free. -/
def oldSize (env : Bytes) : Option ℕ → Option ℕ
  | none => some 0
  | some pp => (fstrlen env pp).map (· + 1)

/-- What `CmdSet` does once the line is read. -/
def assign (m : Master) (name value : Str) : Option Master :=
  (searchvar m.env (name ++ [61])).bind fun pp =>
  let szBuf := name ++ [61] ++ value
  if szBuf.length = name.length + 1 then deletevar m pp
  else
    (oldSize m.env pp).bind fun oldsize =>
    if (szBuf.length : ℤ) < masterSize - (m.envp - oldsize) - 1 - 2 then
      (deletevar m pp).bind fun m => m.append szBuf
    else some m

/-- The variable that a SET line names and the value that it gives, if it has a `=`. -/
def assignment (pLine : Str) : Option (Str × Str) :=
  match skipwh (scan pLine).2 with
  | 61 :: rest => some (strupr (scan pLine).1, skipwh rest)
  | _ => none

/-- `CmdSet` -/
def cmdSet (m : Master) (pLine : Str) : Option Master :=
  match assignment pLine with
  | some (name, value) => assign m name value
  | none => some m

/-- The SET lines of CONFIG.SYS, one after the other. -/
def cmdSets (menu : Option UInt8) (lines : List Line) : Option Master :=
  (doMenu menu).bind fun m => lines.foldlM (fun m line => cmdSet m line.text) m

end Config
end BurdahDos
