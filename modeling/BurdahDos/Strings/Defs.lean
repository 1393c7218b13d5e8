import Mathlib

/-!
# FIXSTRS

The compiler of the message files, `portal/strings/fixstrs.c`: it reads `DEFAULT.lng` and a second
language file line by line.  What concerns the log file and `strings.h` is left out, and there is
enough memory.
-/

set_option autoImplicit false

namespace BurdahDos
namespace Strings

abbrev Str := List UInt8

def bytes (s : String) : Str := s.toList.map fun c => UInt8.ofNat c.toNat

/-! ## Characters -/

/-- `'\n'` -/
def nl : UInt8 := 10
/-- `'\\'` -/
def backslash : UInt8 := 92
/-- `'%'` -/
def percent : UInt8 := 37

/-- `isdigit` -/
def isdigit (c : UInt8) : Bool := 48 ≤ c && c ≤ 57

/-- `toupper` -/
def toupper (c : UInt8) : UInt8 := if 97 ≤ c && c ≤ 122 then c - 32 else c

/-- `isxdigit` -/
def isxdigit (c : UInt8) : Bool := isdigit c || (65 ≤ toupper c && toupper c ≤ 70)

/-- `iscntrl` -/
def iscntrl (c : UInt8) : Bool := c < 32 || c == 127

/-- `isspace` -/
def isspace (c : UInt8) : Bool := c == 32 || (9 ≤ c && c ≤ 13)

/-- A string ends in front of a NUL. -/
def cString (s : Str) : Str := s.takeWhile (· != 0)

/-! ## Backslashes -/

/-- `fromxdigit` -/
def fromxdigit (ch : UInt8) : UInt8 := if isdigit ch then ch - 48 else toupper ch - 65

/-- `besFromChar` -/
def besFromChar : Str := bytes "abcdefghijklmnopqrstuvwxyz,.[\x7b\x7d]\\?0"

/-- `besToChar`, with the NUL at its end. -/
def besToChar : Str :=
  [7, 8] ++ bytes "cd" ++ [27, 12] ++ bytes "ghijklm" ++ [10] ++ bytes "opq" ++ [13] ++ bytes "s" ++
    [9, 0, 11] ++ bytes "w" ++ [0] ++ bytes "yz,.[\x7b\x7d]\\?" ++ [0]

/-- What stands behind `\x`, and the rest. -/
def hexEscape (digit : UInt8 → UInt8) : Str → UInt8 × Str
  | [] => (0, [])
  | a :: p =>
    if isxdigit a then
      match p with
      | [] => (digit a, [])
      | b :: q => if isxdigit b then (digit a <<< 4 ||| digit b, q) else (digit a, p)
    else (0, a :: p)

/-- `mapBSEscape`, for the value of a digit. -/
def mapBSEscape (digit : UInt8 → UInt8) : Str → UInt8 × Str
  | [] => (0, [])
  | ch :: p =>
    if ch == 120 then hexEscape digit p
    else
      match besFromChar.idxOf? ch with
      | some i => (besToChar.getD i 0, p)
      | none => (ch, p)

/-- A line of a text, with its escapes replaced and the newline behind it. -/
def unescape (digit : UInt8 → UInt8) : ℕ → Str → Str
  | 0, _ => []
  | _ + 1, [] => [nl]
  | n + 1, ch :: p =>
    if ch != backslash then ch :: unescape digit n p
    else if p = [] then []
    else (mapBSEscape digit p).1 :: unescape digit n (mapBSEscape digit p).2

/-! ## Keys -/

/-- `symkeys` -/
def symkeys : List (ℕ × Str) :=
  [(3, bytes "BREAK"), (3, bytes "CBREAK"), (10, bytes "LF"), (10, bytes "NL"), (10, bytes "LINEFEED"),
   (10, bytes "NEWLINE"), (13, bytes "CR"), (13, bytes "ENTER"), (27, bytes "ESC"), (27, bytes "ESCAPE"),
   (12, bytes "FF"), (12, bytes "FORMFEED"), (7, bytes "ALARM"), (7, bytes "BELL"), (7, bytes "BEEP"),
   (8, bytes "BS"), (8, bytes "BACKSPACE"), (9, bytes "HT"), (9, bytes "TAB"), (11, bytes "VT"),
   (0, bytes "NUL"), (1, bytes "SOH"), (2, bytes "STX"), (3, bytes "ETX"), (4, bytes "EOT"),
   (5, bytes "ENQ"), (6, bytes "ACK"), (7, bytes "BEL"), (14, bytes "SO"), (15, bytes "SI"),
   (16, bytes "DLE"), (17, bytes "DC1"), (18, bytes "DC2"), (19, bytes "DC3"), (20, bytes "DC4"),
   (21, bytes "NAK"), (22, bytes "SYN"), (23, bytes "ETB"), (24, bytes "CAN"), (25, bytes "EM"),
   (26, bytes "SUB"), (28, bytes "FS"), (29, bytes "GS"), (30, bytes "RS"), (31, bytes "US"),
   (315, bytes "F1"), (316, bytes "F2"), (317, bytes "F3"), (318, bytes "F4"), (319, bytes "F5"),
   (320, bytes "F6"), (321, bytes "F7"), (322, bytes "F8"), (323, bytes "F9"), (324, bytes "F10"),
   (389, bytes "F11"), (390, bytes "F12"), (331, bytes "LEFT"), (333, bytes "RIGHT"), (328, bytes "UP"),
   (336, bytes "DOWN"), (338, bytes "INS"), (339, bytes "DEL"), (327, bytes "HOME"), (335, bytes "END"),
   (329, bytes "PUP"), (337, bytes "PDOWN"), (0, [])]

/-- The loop of `mapSymKey`: it ends at a keycode of 0, and then returns the next one. -/
def symSearch (p : Str) : List (ℕ × Str) → ℕ
  | [] => 0
  | (keycode, keyname) :: q =>
    if keyname == p then keycode
    else if keycode = 0 then (q.head?.map Prod.fst).getD 0
    else symSearch p q

/-- `mapSymKey` -/
def mapSymKey (p : Str) : ℕ := symSearch (p.map toupper) symkeys

/-- The keys of a prompt, for the values of a digit and of a symbol. -/
def promptKeys (digit : UInt8 → UInt8) (symbol : Str → ℕ) : ℕ → Str → Except ℕ Str
  | 0, _ => .ok []
  | _ + 1, [] => .ok []
  | n + 1, ch :: p =>
    if ch == backslash then
      if p = [] then .ok []
      else if (mapBSEscape digit p).1 = 0 then .error 49
      else (promptKeys digit symbol n (mapBSEscape digit p).2).map ((mapBSEscape digit p).1 :: ·)
    else if ch == 123 then
      if 125 ∉ p then .error 46
      else
        let name := p.takeWhile (· != 125)
        if symbol name = 0 then .error 47
        else if 256 ≤ symbol name then .error 55
        else (promptKeys digit symbol n (p.drop (name.length + 1))).map (UInt8.ofNat (symbol name) :: ·)
    else if ch == 91 then .error 48
    else (promptKeys digit symbol n p).map (ch :: ·)

/-- The metakeys of a prompt. -/
def metakeys : Str → Except ℕ Str
  | [] => .ok []
  | ch :: p =>
    if 97 ≤ ch && ch ≤ 122 then (metakeys p).map ((ch - 96) :: ·)
    else if isspace ch then metakeys p
    else .error 44

/-- The `%` format sequences of a line, two characters each. -/
def percents : Str → Str
  | [] => []
  | ch :: p => if ch == percent then percent :: p.headD 0 :: percents p else percents p

/-! ## The strings in memory -/

/-- An item of `strg`, and the size in `string`. -/
structure Entry where
  name : Str
  /-- `PERFORM_VALIDATION` -/
  perform : Bool
  /-- Whether one of the files has defined it. -/
  known : Bool
  version : ℤ
  /-- Without the NUL at its end; `none` for a null pointer. -/
  text : Option Str
  size : ℕ
  vstring : Str
deriving DecidableEq

inductive ReadState where
  | lookingForStart
  | gettingPromptLine1
  | gettingPromptLine2
  | gettingString
deriving DecidableEq

/-- What `loadFile` works with. -/
structure Loader where
  /-- The items in use. -/
  strg : List Entry
  /-- Whether something has been stored behind the tables. -/
  outside : Bool
  cnt : ℕ
  state : ReadState
  text : Option Str
  vstring : Str
  version : ℤ
deriving DecidableEq

/-- `MAXSTRINGS` -/
def maxStrings : ℕ := 512

/-- `promptID` -/
def promptID : Str := bytes "PROMPT_"

/-- `atoi` -/
def atoi (s : Str) : ℤ :=
  let s := s.dropWhile isspace
  let value (s : Str) : ℤ := (s.takeWhile isdigit).foldl (fun n c => 10 * n + ((c - 48).toNat : ℤ)) 0
  match s with
  | [] => 0
  | c :: p => if c == 45 then -value p else if c == 43 then value p else value (c :: p)

/-- The name, the version and whether the text is validated, of a label less its colon. -/
def label (line : Str) : Str × ℤ × Bool :=
  let name := line.takeWhile (· != 35)
  let vers := line.drop (name.length + 1)
  (name, atoi vers, percent ∈ vers)

namespace Loader

/-- A label: the string is looked for, or is a new one. -/
def define (l : Loader) (line : Str) : Loader :=
  let (name, version, perform) := label line
  let cnt := (l.strg.findIdx? (·.name == name)).getD l.strg.length
  let strg := if cnt = l.strg.length then l.strg ++ [⟨name, false, false, 0, none, 0, []⟩] else l.strg
  { strg := strg.modify cnt fun e => { e with perform := e.perform || perform }
    outside := l.outside || maxStrings ≤ cnt
    cnt := cnt
    state := if promptID.isPrefixOf name then .gettingPromptLine1 else .gettingString
    text := l.text
    vstring := []
    version := version }

/-- `appMem` to the text -/
def appMem (l : Loader) (s : Str) : Loader := { l with text := some (l.text.getD [] ++ s) }

/-- The keys are appended, behind their number. -/
def appKeys (l : Loader) (keys : Str) : Loader :=
  { l.appMem (UInt8.ofNat keys.length :: keys) with state := .gettingPromptLine2 }

end Loader

/-- The newline at the end is cut. -/
def cutNl (comma : Bool) (text : Str) : Str :=
  if comma && text.getLast? == some nl then text.dropLast else text

namespace Loader

/-- The text that has been read is applied, or ignored. -/
def apply (l : Loader) (comma : Bool) : Loader :=
  let text := l.text.map (cutNl comma)
  { l with
    strg := l.strg.modify l.cnt fun e =>
      if !e.known || (e.version == l.version && (!e.perform || cString e.vstring == cString l.vstring)) then
        { e with known := true, version := l.version, text := text
                 size := ((text.getD []).length + 1) % 65536, vstring := l.vstring }
      else { e with known := true }
    state := .lookingForStart
    text := none
    vstring := [] }

/-- A line, without the control characters at its end. -/
def step (l : Loader) (line : Str) : Except ℕ Loader :=
  let last := line = bytes "." ∨ line = bytes ","
  match l.state with
  | .lookingForStart =>
    match line with
    | [] => .ok l
    | c :: p =>
      if c == 58 then .ok (l.define p)
      else if c == 35 then .ok l
      else if line.all isspace then .ok l
      else .error 44
  | .gettingPromptLine1 =>
    if last then .error 41
    else
      match promptKeys fromxdigit mapSymKey (line.length + 1) line with
      | .error rc => .error rc
      | .ok keys =>
        if keys = [] then .error 52
        else if 255 < keys.length then .error 55
        else .ok (l.appKeys keys)
  | .gettingPromptLine2 =>
    if last then .error 43
    else
      match metakeys line with
      | .error rc => .error rc
      | .ok metas =>
        if metas.length + 1 ≠ (l.text.getD []).length then .error 53
        else .ok { l.appMem metas with state := .gettingString }
  | .gettingString =>
    if last then .ok (l.apply (line == bytes ","))
    else .ok { l.appMem (unescape fromxdigit (line.length + 1) line) with
      vstring := l.vstring ++ percents line }

end Loader

/-! ## The files -/

/-- What one `fgets` after the other reads. -/
def pieces : ℕ → Str → List Str
  | 0, _ => []
  | _ + 1, [] => []
  | n + 1, data =>
    let buf := data.take 1023
    let line := match buf.idxOf? nl with
      | some i => buf.take (i + 1)
      | none => buf
    line :: pieces n (data.drop line.length)

/-- A piece as a line, less the control characters at its end, if it has a newline; `before` is
what stands in front of the buffer. -/
def toLine (before : UInt8) (piece : Str) : Option Str :=
  let s := cString piece
  if s.getLast?.getD before = nl then some (s.rdropWhile iscntrl) else none

namespace Loader

/-- The loop of `loadFile`. -/
def run (before : UInt8) : List Str → Loader → Except ℕ Loader
  | [], l => .ok l
  | piece :: rest, l =>
    match toLine before piece with
    | none => .error 41
    | some line =>
      match l.step line with
      | .error rc => .error rc
      | .ok l => run before rest l

/-- `loadFile`, with what has been loaded before. -/
def loadFile (before : UInt8) (data : Str) (l : Loader) : Except ℕ Loader :=
  match run before (pieces data.length data)
      { l with state := .lookingForStart, text := none, vstring := [], version := 0 } with
  | .error rc => .error rc
  | .ok l => if l.state = .lookingForStart then .ok l else .error 40

end Loader

end Strings
end BurdahDos
