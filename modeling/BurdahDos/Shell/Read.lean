import BurdahDos.Shell.Defs
import Mathlib

/-!
# Reading batch lines

`getbline` and `readbatchline` of `portal/shell/batch.c`.  The line buffer is a function from
positions to bytes; a turn of the loop of `readbatchline` is a function of its own.  The reads of a
batch file that is open do not fail.
-/

set_option autoImplicit false

namespace BurdahDos
namespace Shell

/-! ## Characters -/

/-- `'\n'` -/
def nl : UInt8 := 10
/-- `'\r'` -/
def cr : UInt8 := 13

/-- `isargdelim` -/
def isargdelim (c : UInt8) : Bool :=
  c.toNat < 33 || c.toNat == 127 || c.toNat == 44 || c.toNat == 59 || c.toNat == 61

/-- `isgraph` -/
def isgraph (c : UInt8) : Bool := 33 ≤ c.toNat && c.toNat ≤ 126

/-- `tolower` -/
def tolower (c : UInt8) : UInt8 := if 65 ≤ c.toNat ∧ c.toNat ≤ 90 then c + 32 else c

/-- `stricmp` finds the strings equal. -/
def stricmpEq (a b : Str) : Bool := a.map tolower == b.map tolower

/-- `ltrimcl` -/
def ltrimcl (s : Str) : Str := s.dropWhile isargdelim

/-! ## The line buffer -/

abbrev Buf := ℕ → UInt8

/-- `textlineEnd`, as the number of characters in front of the end. -/
def textlineEnd (buf : Buf) (buflen : ℕ) : Option ℕ :=
  (List.range (buflen - 1)).find? fun i => buf i == 0 || buf i == nl

/-- `memchr(buf, '\n', buflen)` -/
def memchrNl (buf : Buf) (buflen : ℕ) : Option ℕ := (List.range buflen).find? fun i => buf i == nl

/-- `memmove(buf, &buf[len], n)` -/
def memmove (buf : Buf) (len n : ℕ) : Buf := fun i => if i < n then buf (len + i) else buf i

/-- Bytes of a file are read to `buf[at]`. -/
def readTo (buf : Buf) (at' : ℕ) (bytes : List UInt8) : Buf := fun i =>
  if at' ≤ i ∧ i < at' + bytes.length then bytes.getD (i - at') 0 else buf i

/-- A string that starts at `buf[0]`, and is `n` bytes at most. -/
def strAt (buf : Buf) (n : ℕ) : Str := ((List.range n).map buf).takeWhile (· != 0)

/-- What `getbline` returns, and what it leaves of the buffer, the static `size` and the position
in the file. -/
structure Got where
  ret : ℕ
  size : ℕ
  buf : Buf
  pos : ℕ

/-- The part of `getbline` that reads, with `size` bytes in the buffer. -/
def fill (data : List UInt8) (pos : ℕ) (buf : Buf) (size bufsize : ℕ) : Got :=
  if size < bufsize then
    let bytes := (data.drop pos).take (bufsize - size)
    let n := size + bytes.length
    ⟨n, n, Function.update (readTo buf size bytes) n nl, pos + bytes.length⟩
  else ⟨0, size, buf, pos⟩

/-- `getbline`, for a file with these data. -/
def getbline (data : List UInt8) (pos : ℕ) (buf : Buf) (size len bufsize : ℕ) : Got :=
  if len = 0 ∨ size ≤ len then fill data pos buf 0 bufsize
  else
    let size := size - len
    let buf := memmove buf len (size + 1)
    if (textlineEnd buf size).isSome then ⟨size, size, buf, pos⟩ else fill data pos buf size bufsize

/-! ## `readbatchline` -/

/-- The variables of `readbatchline`. -/
structure Reading where
  shell : State
  world : World
  buf : Buf
  len : ℕ

/-- A turn of the loop: it goes round again, or ends with a line and whether that is to be
echoed. -/
inductive Turn where
  | again (r : Reading)
  | done (line : Option (Str × ℕ)) (r : Reading)

/-- `exit_batch(); continue;` -/
def leave (r : Reading) : Option Turn :=
  (exitBatch r.shell).map fun s => .again { r with shell := s }

/-- A leading at-sign says that the line is not to be echoed. -/
def stripAt (s : Str) (echo : ℕ) : Str × ℕ :=
  match s with
  | 64 :: rest => (ltrimcl rest, 0)
  | s => (s, echo)

/-- The part of a file name up to its last separator, the name itself being cut off. -/
def dirPart (fv : Str) : Str :=
  (fv.reverse.dropWhile fun c => !(c.toNat == 92 || c.toNat == 47 || c.toNat == 58)).reverse

/-- The prototype of a FOR command with its variable replaced. -/
def expandProto (forvar value : Str) : ℕ → Str → Str
  | 0, _ => []
  | n + 1, s =>
    match s with
    | [] => []
    | c :: rest =>
      if s.take forvar.length = forvar then value ++ expandProto forvar value n (s.drop forvar.length)
      else c :: expandProto forvar value n rest

/-- The next line of a FOR context, with the value of the variable. -/
def forLine (c : Context) (value : Str) (r : Reading) : Option Turn :=
  match c.forproto, c.forvar with
  | some proto, some forvar =>
    let line := stripAt (expandProto forvar value proto.length proto) r.shell.echo
    some (.done (some line) r)
  | _, _ => none

/-- `bc->shiftlevel++` -/
def shift (c : Context) : Context := { c with shiftlevel := c.shiftlevel + 1 }

/-- A parameter is cut to its path. -/
def cutParam (c : Context) (path : Str) : Context :=
  { c with params := c.params.map fun ps => ps.set (c.shiftlevel - 1).toNat path }

/-- A turn with a FOR context at `bc`. -/
def forTurn (c : Context) (r : Reading) : Option Turn :=
  let (brk, w) := r.world.chkCBreak
  let r := { r with world := w }
  if brk ∨ (c.numParams : ℤ) < c.shiftlevel then leave r
  else
    match findArg c 0 with
    | none => none
    | some fv =>
      if c.ffind then
        let (name, w) := r.world.find
        match name with
        | none => (r.shell.modify fun c => shift { c with ffind := false }).map fun s =>
            .again { r with shell := s, world := w }
        | some name => forLine c (fv ++ name) { r with world := w }
      else if !(fv.any fun c => c.toNat == 63 || c.toNat == 42) then
        (r.shell.modify shift).bind fun s => forLine c fv { r with shell := s }
      else
        let (ok, w) := r.world.alloc
        if !ok then (exitBatch r.shell).map fun s => .done none { r with shell := s, world := w }
        else
          let (name, w) := w.find
          match name with
          | none => (r.shell.modify shift).map fun s => .again { r with shell := s, world := w }
          | some name =>
            (r.shell.modify fun c => { cutParam c (dirPart fv) with ffind := true }).bind fun s =>
              forLine c (dirPart fv ++ name) { r with shell := s, world := w }

/-- The batch file is opened, and positioned to where it has been left. -/
def reopen (c : Context) : Context :=
  if c.brewind then { c with bfile := some 0, bclose := true, brewind := false, blinecnt := 0, bpos := 0 }
  else { c with bfile := some c.bpos, bclose := true }

/-- A batch file that is open is rewound. -/
def rewind (c : Context) : Context :=
  if c.brewind then { c with bfile := some 0, brewind := false, blinecnt := 0, bpos := 0 } else c

/-- What is done with a line: it is passed over, or executed. -/
def takeLine (c : Context) (line : Str) (r : Reading) : Option Turn :=
  let (first, eflag) := stripAt (ltrimcl line) r.shell.echo
  match first with
  | [] => some (.again r)
  | ch :: rest =>
    if ch.toNat = 58 then
      match c.blabel with
      | none => some (.again r)
      | some label =>
        if stricmpEq (rest.takeWhile isgraph) label then
          (r.shell.modify fun c => { c with blabel := none }).map fun s => .again { r with shell := s }
        else some (.again r)
    else if c.blabel ≠ none then some (.again r)
    else some (.done (some (first, eflag)) r)

/-- The line is cut out of the buffer: the CR and LF at its end are stripped. -/
def rtrim (s : List UInt8) : List UInt8 := (s.reverse.dropWhile fun c => c == nl || c == cr).reverse

/-- A turn with a batch file that is open. -/
def lineTurn (name : Str) (r : Reading) (size : ℕ) : Option Turn :=
  match r.shell.top with
  | none => none
  | some (b, _) =>
    let (brk, w) := r.world.chkCBreak
    let r := { r with world := w }
    if brk then leave r
    else
      let got := getbline (w.files name) (b.ctx.bfile.getD 0) r.buf r.shell.size r.len (size - 1)
      match r.shell.modify fun c => { c with bfile := some got.pos, blinecnt := c.blinecnt + 1 } with
      | none => none
      | some s =>
        let r := { r with shell := { s with size := got.size }, buf := got.buf }
        if got.ret = 0 then leave r
        else
          match textlineEnd got.buf size with
          | none => leave r
          | some _ =>
            match memchrNl got.buf size with
            | none => none
            | some e =>
              let line := rtrim ((List.range e).map got.buf)
              let buf := Function.update got.buf line.length 0
              (r.shell.modify fun c => { c with bpos := c.bpos + (e + 1) }).bind fun s =>
                takeLine b.ctx (strAt buf line.length) { r with shell := s, buf := buf, len := e + 1 }

/-- A turn with a batch context at `bc`. -/
def batchTurn (b : Block) (r : Reading) (size : ℕ) : Option Turn :=
  match b.ctx.bfnam with
  | none => none
  | some name =>
    if b.ctx.bfile = none then
      let (ok, w) := r.world.open
      if !ok then leave { r with world := w }
      else (r.shell.modify reopen).bind fun s => lineTurn name { r with shell := s, world := w } size
    else (r.shell.modify rewind).bind fun s => lineTurn name { r with shell := s } size

/-- A turn of the loop. -/
def turn (size : ℕ) (r : Reading) : Option Turn :=
  if r.shell.bc = [] then some (.done none r)
  else
    match r.shell.top with
    | none => none
    | some (b, _) =>
      if b.ctx.forvar ≠ none then forTurn b.ctx r else batchTurn b r size

/-- The loop, of `fuel` turns at most. -/
def loop (size : ℕ) : ℕ → Reading → Option (Option (Str × ℕ) × Reading)
  | 0, _ => none
  | fuel + 1, r =>
    match turn size r with
    | none => none
    | some (.done line r) => some (line, r)
    | some (.again r) => loop size fuel r

/-- A batch file that was opened is closed. -/
def closeBatch (s : State) : Option State :=
  match s.bc with
  | [] => some s
  | b :: _ => if b.ctx.bclose then s.modify fun c => { c with bfile := none, bclose := false } else some s

/-- `readbatchline`: the line, and the shell. -/
def readbatchline (fuel size : ℕ) (buf : Buf) (s : State) (w : World) :
    Option (Option (Str × ℕ) × State × World) :=
  match loop size fuel ⟨s, w, buf, 0⟩ with
  | none => none
  | some (line, r) => (closeBatch r.shell).map fun s => (line, s, r.world)

end Shell
end BurdahDos
