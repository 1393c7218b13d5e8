import BurdahDos.Lib.Run
import Mathlib

/-!
# SHARE: the file table and the lock table

`share/src/share.c` keeps two fixed-size tables.  Each slot of the *file table* stands for one
open instance of a file; each slot of the *lock table* stands for one locked byte range.  DOS
reaches them through INT 2Fh/AH=10h, and the functions below are the ones that interrupt
dispatches to: `openCheck` (A0h), `closeFile` (A1h), `accessCheck` (A2h, and A3h with a critical
error), `lockUnlock` (A4h and A5h).

A C string in a slot is the list of its bytes up to the NUL, so an unused slot is one whose
`filename` is `[]`.  The two `..._free` counters are `uint16_t`, hence the arithmetic modulo
`2 ^ 16`; offsets are `unsigned long`, hence `UInt32`.

A critical error (INT 24h) shows on the screen and asks the user; it does not touch the tables,
so what is kept of it here is the table update that precedes it.
-/

set_option autoImplicit false

namespace BurdahDos
namespace Share

/-! ## Modes -/

/-- `OPEN_READ_ONLY` -/
def openReadOnly : Nat := 0
/-- `OPEN_WRITE_ONLY` -/
def openWriteOnly : Nat := 1
/-- `OPEN_READ_WRITE` -/
def openReadWrite : Nat := 2

/-- `SHARE_COMPAT` -/
def shareCompat : Nat := 0
/-- `SHARE_DENY_ALL` -/
def shareDenyAll : Nat := 1
/-- `SHARE_DENY_WRITE` -/
def shareDenyWrite : Nat := 2
/-- `SHARE_DENY_READ` -/
def shareDenyRead : Nat := 3
/-- `SHARE_DENY_NONE` -/
def shareDenyNone : Nat := 4

/-- The general rules: what to do with an open in the sharing mode of the column when the file was
first opened in the sharing mode of the row.  The action codes are `0` proceed, `1` fail with error
05h, `2` fail with an INT 24h, and, in the exceptions only, `3` and `4`, which proceed as well. -/
def openActions : List (List Nat) :=
  [[0, 1, 1, 1, 1],
   [2, 1, 1, 1, 1],
   [2, 1, 1, 1, 1],
   [2, 1, 1, 1, 1],
   [2, 1, 1, 1, 0]]

/-- `open_action_exception_t` -/
structure OpenActionException where
  firstSharemode : Nat
  firstOpenmode : Nat
  currentSharemode : Nat
  currentOpenmode : Nat
  action : Nat

/-- The exceptions to the general rules, in the order in which they are searched. -/
def openExceptions : List OpenActionException :=
  [⟨0, 0, 2, 0, 3⟩,
   ⟨0, 0, 4, 0, 3⟩,
   ⟨2, 0, 0, 0, 4⟩,
   ⟨2, 0, 2, 0, 0⟩,
   ⟨2, 0, 4, 0, 0⟩,
   ⟨3, 0, 2, 1, 0⟩,
   ⟨3, 0, 4, 1, 0⟩,
   ⟨3, 1, 4, 1, 0⟩,
   ⟨3, 2, 4, 1, 0⟩,
   ⟨4, 0, 0, 0, 4⟩,
   ⟨4, 0, 0, 1, 0⟩,
   ⟨4, 0, 0, 2, 0⟩,
   ⟨4, 0, 2, 0, 0⟩,
   ⟨4, 0, 2, 1, 0⟩,
   ⟨4, 0, 2, 2, 0⟩,
   ⟨4, 1, 3, 0, 0⟩,
   ⟨4, 1, 3, 1, 0⟩,
   ⟨4, 1, 3, 2, 0⟩]

/-- The action for an open in modes `(currentSharemode, currentOpenmode)` when the first open of
the file was in modes `(firstSharemode, firstOpenmode)`: the first exception that matches all four,
else the general rule. -/
def openAction (firstSharemode firstOpenmode currentSharemode currentOpenmode : Nat) : Nat :=
  match openExceptions.find? fun e =>
      e.firstSharemode == firstSharemode && e.currentSharemode == currentSharemode &&
        e.firstOpenmode == firstOpenmode && e.currentOpenmode == currentOpenmode with
  | some e => e.action
  | none => (openActions.getD firstSharemode []).getD currentSharemode 0

/-! ## The tables -/

/-- A fully qualified file name as DOS passes it: a non-empty C string that fits into
`filename[128]` together with its NUL. -/
structure Filename where
  /-- The bytes before the NUL. -/
  chars : List UInt8
  ne_nil : chars ≠ []
  no_nul : 0 ∉ chars
  fits : chars.length < 128

/-- `C:\A` -/
def fileA : Filename := ⟨[0x43, 0x3a, 0x5c, 0x41], by decide, by decide, by decide⟩

/-- `file_t`: one instance of an open file. -/
structure FileT where
  /-- Fully qualified file name; `[]` if the slot is unused. -/
  filename : List UInt8
  /-- PSP of the process which opened this file. -/
  psp : UInt16
  /-- `0` read-only, `1` write-only, `2` read-write. -/
  openmode : Nat
  /-- `SHARE_COMPAT` and so on. -/
  sharemode : Nat
  /-- Open mode of the first open. -/
  firstOpenmode : Nat
  /-- Sharing mode of the first open. -/
  firstSharemode : Nat
  deriving DecidableEq, Inhabited

/-- `lock_t`: one locked region, from `start` up to but not including `stop`. -/
structure LockT where
  used : Bool
  /-- Beginning offset of the locked region. -/
  start : UInt32
  /-- Ending offset of the locked region (`end` in the source). -/
  stop : UInt32
  /-- The `file_table` entry number. -/
  fileno : Nat
  /-- PSP of the process which owns the lock. -/
  psp : UInt16
  deriving DecidableEq, Inhabited

/-- The resident state of SHARE. -/
structure Tables where
  fileTable : List FileT
  lockTable : List LockT
  fileTableFree : Nat
  lockTableFree : Nat
  deriving DecidableEq

/-- `++` and `--` on a `uint16_t`. -/
def inc16 (n : Nat) : Nat := (n + 1) % 2 ^ 16
/-- See `inc16`. -/
def dec16 (n : Nat) : Nat := (n + (2 ^ 16 - 1)) % 2 ^ 16

/-- A slot of the file table is in use. -/
def FileT.inUse (p : FileT) : Bool := !p.filename.isEmpty

/-- `init_tables`: both tables zeroed. -/
def initTables (fileTableSize lockTableSize : Nat) : Tables where
  fileTable := List.replicate fileTableSize ⟨[], 0, 0, 0, 0, 0⟩
  lockTable := List.replicate lockTableSize ⟨false, 0, 0, 0, 0⟩
  fileTableFree := fileTableSize % 2 ^ 16
  lockTableFree := lockTableSize % 2 ^ 16

namespace Tables

/-- `file_table[fileno]` -/
def file (s : Tables) (fileno : Nat) : FileT := s.fileTable.getD fileno default

/-- Overwrite one slot of the file table. -/
def setFile (s : Tables) (fileno : Nat) (p : FileT) : Tables :=
  { s with fileTable := s.fileTable.set fileno p }

/-- Overwrite one slot of the lock table. -/
def setLock (s : Tables) (i : Nat) (l : LockT) : Tables :=
  { s with lockTable := s.lockTable.set i l }

end Tables

/-- Release the lock `l` if it was taken through `fileno`. -/
def LockT.release (fileno : Nat) (l : LockT) : LockT :=
  if l.used && l.fileno == fileno then { l with used := false } else l

/-- `remove_all_locks`: the loop over the lock table drops each used lock of `fileno` and counts
it as free. -/
def removeAllLocks (s : Tables) (fileno : Nat) : Tables :=
  { s with
    lockTable := s.lockTable.map (LockT.release fileno)
    lockTableFree :=
      (s.lockTableFree + s.lockTable.countP fun l => l.used && l.fileno == fileno) % 2 ^ 16 }

/-- `free_file_table_entry` -/
def freeFileTableEntry (s : Tables) (fileno : Nat) : Tables :=
  { s.setFile fileno { s.file fileno with filename := [] } with
    fileTableFree := inc16 s.fileTableFree }

/-- `fnmatches`: compare two C strings. -/
def fnmatches : List UInt8 → List UInt8 → Bool
  | [], fn2 => fn2.isEmpty
  | _ :: _, [] => false
  | c :: fn1, d :: fn2 => if c ≠ d then false else fnmatches fn1 fn2

/-! ## Opening and closing -/

/-- The slot `do_open_check` compares slot `fileno` with: the lowest other slot in use with the
same file name. -/
def firstMatch (s : Tables) (fileno : Nat) : Option Nat :=
  (List.range s.fileTable.length).find? fun i =>
    i != fileno && (s.file i).inUse && fnmatches (s.file i).filename (s.file fileno).filename

/-- `do_open_check`: decide about the open already entered in slot `fileno`.  Actions `3` and `4`
fall through to `0`. -/
def doOpenCheck (s : Tables) (fileno : Nat) : Int × Tables :=
  let fptr := s.file fileno
  match firstMatch s fileno with
  | none =>
    (fileno, s.setFile fileno
      { fptr with firstSharemode := fptr.sharemode, firstOpenmode := fptr.openmode })
  | some i =>
    let p := s.file i
    let s := s.setFile fileno
      { fptr with firstSharemode := p.firstSharemode, firstOpenmode := p.firstOpenmode }
    match openAction p.firstSharemode p.firstOpenmode fptr.sharemode fptr.openmode with
    | 1 => (-5, freeFileTableEntry s fileno)
    | 2 => (-0x20, freeFileTableEntry s fileno)
    | _ => (fileno, s)

/-- The sharing mode `open_check` works with: the low three bits, and compatibility mode if they
are out of range. -/
def normSharemode (sharemode : Nat) : Nat :=
  if sharemode &&& 0x07 > shareDenyNone then shareCompat else sharemode &&& 0x07

/-- The open mode `open_check` works with. -/
def normOpenmode (openmode : Nat) : Nat :=
  if openmode &&& 0x03 > openReadWrite then openReadOnly else openmode &&& 0x03

/-- `open_check`: may `psp` open `filename` in these modes?  The answer is the number of the slot
to use, or a negated error code. -/
def openCheck (s : Tables) (filename : Filename) (psp : UInt16) (openmode sharemode : Nat) :
    Int × Tables :=
  match s.fileTable.findIdx? fun p => !p.inUse with
  | none => (-1, s)
  | some fileno =>
    let s := { s.setFile fileno
        { s.file fileno with
          filename := filename.chars
          psp := psp
          openmode := normOpenmode openmode
          sharemode := normSharemode sharemode } with
      fileTableFree := dec16 s.fileTableFree }
    doOpenCheck s fileno

/-- `close_file` -/
def closeFile (s : Tables) (fileno : Nat) : Tables :=
  freeFileTableEntry (removeAllLocks s fileno) fileno

/-! ## Access and locking -/

/-- The end of the region of length `len` at `ofs`; a region that wraps is clipped at
`0xffffffff`. -/
def endofs (ofs len : UInt32) : UInt32 :=
  if ofs + len < ofs then 0xffffffff else ofs + len

/-- The length left after clipping. -/
def clippedLen (ofs len : UInt32) : UInt32 :=
  if ofs + len < ofs then 0xffffffff - ofs else len

/-- The test of `access_check` on one lock: in use, of another process (or any, if `psp` is zero),
on the same file, and with one end of the region inside it. -/
def lockHit (s : Tables) (psp : UInt16) (fileno : Nat) (ofs endofs : UInt32) (l : LockT) : Bool :=
  l.used && (psp == 0 || l.psp != psp) &&
    fnmatches (s.file fileno).filename (s.file l.fileno).filename &&
    ((decide (l.start ≤ ofs) && decide (ofs < l.stop)) ||
      (decide (l.start < endofs) && decide (endofs ≤ l.stop)))

/-- `access_check`: may `psp` access the region, as far as the locks go?  With `allowcriter` a
refusal also frees the slot and raises a critical error. -/
def accessCheck (s : Tables) (psp : UInt16) (fileno : Nat) (ofs len : UInt32)
    (allowcriter : Bool) : Int × Tables :=
  if clippedLen ofs len < 1 then (0, s)
  else if s.lockTable.any (lockHit s psp fileno ofs (endofs ofs len)) then
    (-0x21, if allowcriter then freeFileTableEntry s fileno else s)
  else (0, s)

/-- The lock that an unlock request names: same owner, same slot, same ends. -/
def lockNamed (psp : UInt16) (fileno : Nat) (ofs endofs : UInt32) (l : LockT) : Bool :=
  l.used && l.psp == psp && l.fileno == fileno && l.start == ofs && l.stop == endofs

/-- `lock_unlock`: lock (`unlock = false`) or unlock a region. -/
def lockUnlock (s : Tables) (psp : UInt16) (fileno : Nat) (ofs len : UInt32)
    (unlock : Bool) : Int × Tables :=
  if clippedLen ofs len < 1 then (0, s)
  else if unlock then
    match s.lockTable.findIdx? (lockNamed psp fileno ofs (endofs ofs len)) with
    | none => (-0x21, s)
    | some i =>
      (0, { s.setLock i { s.lockTable.getD i default with used := false } with
        lockTableFree := inc16 s.lockTableFree })
  else if (accessCheck s 0 fileno ofs (clippedLen ofs len) false).1 ≠ 0 then (-0x21, s)
  else
    match s.lockTable.findIdx? fun l => !l.used with
    | none => (-0x24, s)
    | some i =>
      (0, { s.setLock i ⟨true, ofs, ofs + clippedLen ofs len, fileno, psp⟩ with
        lockTableFree := dec16 s.lockTableFree })

/-! ## Requests -/

/-- What DOS asks of SHARE through INT 2Fh. -/
inductive Request where
  /-- AL = A0h -/
  | openCheck (filename : Filename) (psp : UInt16) (openmode sharemode : Nat)
  /-- AL = A1h -/
  | closeFile (fileno : Nat)
  /-- AL = A2h, or A3h with `allowcriter` -/
  | accessCheck (psp : UInt16) (fileno : Nat) (ofs len : UInt32) (allowcriter : Bool)
  /-- AL = A4h, or A5h with `unlock` -/
  | lockUnlock (psp : UInt16) (fileno : Nat) (ofs len : UInt32) (unlock : Bool)

/-- `inner_handler`: dispatch one request.  `close_file` returns nothing; its answer is `0`. -/
def innerHandler (s : Tables) : Request → Int × Tables
  | .openCheck filename psp openmode sharemode => openCheck s filename psp openmode sharemode
  | .closeFile fileno => (0, closeFile s fileno)
  | .accessCheck psp fileno ofs len allowcriter => accessCheck s psp fileno ofs len allowcriter
  | .lockUnlock psp fileno ofs len unlock => lockUnlock s psp fileno ofs len unlock

/-- One request, its answer dropped. -/
def serve (s : Tables) (r : Request) : Tables := (innerHandler s r).2

/-- The tables after a sequence of requests. -/
def run (s : Tables) (reqs : List Request) : Tables := runSteps serve s reqs

end Share
end BurdahDos
