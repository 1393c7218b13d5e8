import BurdahDos.Listing.Defs
import Mathlib

/-!
# DESCRIPT.ION

`descGetNextToken` and `showDescription` of `portal/cmd/dir.c`.  What is not read yet of the file is
the state of `fDescription`; a store outside of a buffer has no outcome, and neither has a loop that
does not end.
-/

set_option autoImplicit false

namespace BurdahDos
namespace Listing

/-- `isspace` -/
def isspace (c : UInt8) : Bool := c == 32 || (9 ≤ c && c ≤ 13)

/-- `\r` or `\n` -/
def isEol (c : UInt8) : Bool := c == 13 || c == 10

/-- Ctrl-D or Ctrl-Z -/
def isCtrl (c : UInt8) : Bool := c == 4 || c == 26

/-- The second loop of `descGetNextToken` ends at the character. -/
def endsToken (fn : Bool) (c : UInt8) : Bool := isEol c || isCtrl c || (fn && isspace c)

/-- The second loop of `descGetNextToken`: what is in front of `buf`, the character that it ended
at, and the rest of the file.  `cur` is the character at `buf`. -/
def readLoop (fn : Bool) (size : ℕ) :
    ℕ → Str → UInt8 → Str → Option (Str × Option UInt8 × Str)
  | maxlen, text, cur, file =>
    -- the last character of the buffer is used again
    let (maxlen, text) := if 1 < maxlen then (maxlen - 1, text ++ [cur]) else (maxlen, text)
    if size ≤ text.length then none
    else
      match file with
      | [] => some (text, none, [])
      | c :: file =>
        if endsToken fn c then some (text, some c, file) else readLoop fn size maxlen text c file

/-- `descGetNextToken`, to a buffer of `maxlen` characters: whether there was a token, the token and
the rest of the file. -/
def descGetNextToken (fn : Bool) (maxlen : ℕ) (file : Str) : Option (Bool × Str × Str) :=
  match file.dropWhile fun c => c == 32 || (fn && isspace c) with
  | [] => some (false, [], [])
  | c :: file =>
    (readLoop fn maxlen maxlen [] c file).map fun (text, last, rest) =>
      let atEol := (last.map isEol).getD true
      (true, text, if fn || atEol then rest else (rest.dropWhile fun c => !isEol c).drop 1)

/-- A buffer as a string. -/
def cstr (s : Str) : Str := s.takeWhile (· != 0)

/-- `strcmpi` finds the strings equal. -/
def strcmpiEq (a b : Str) : Bool := a.map toupper == b.map toupper

/-- `sprintf(fn, "%s%c%s", shortName, (*ext)?'.':0x0, ext)`, to a buffer of 14 characters. -/
def fileName (shortName ext : Str) : Option Str :=
  if 14 < shortName.length + 1 + ext.length + 1 then none
  else some (cstr (shortName ++ (if ext = [] then 0 else 46) :: ext))

/-- The loop of `showDescription` over the file: the description that it finds. -/
def findLoop (fn : Str) : ℕ → Str → Option (Option Str)
  | 0, _ => none
  | fuel + 1, file =>
    match descGetNextToken true 128 file with
    | none => none
    | some (false, _, _) => some none
    | some (true, token, rest) =>
      if strcmpiEq fn (cstr token) then
        if cstr token = [] then some none
        else (descGetNextToken false 128 rest).map fun r => some (cstr r.2.1)
      else
        match descGetNextToken false 1 rest with
        | none => none
        | some (_, _, rest) => findLoop fn fuel rest

/-- The search for white space, downwards from `i`. -/
def backLoop (p : Str) : ℕ → ℕ
  | 0 => 0
  | i + 1 => if 17 < i + 1 ∧ ¬ isspace (p.getD (i + 1) 0) then backLoop p i else i + 1

/-- Where a text is broken; `DESCLEN` is 34. -/
def breakAt (p : Str) : ℕ :=
  let i := backLoop p 35
  if i ≤ 17 then 35 else if i ≤ 34 then i + 1 else i

/-- The texts that are displayed; a NUL behind that of the string has no outcome. -/
def chunkLoop : ℕ → Str → Option (List Str)
  | 0, _ => none
  | fuel + 1, p =>
    if 34 < p.length then
      if p.length < breakAt p then none
      else
        (chunkLoop fuel ((p.drop (breakAt p)).dropWhile isspace)).map (p.take (breakAt p) :: ·)
    else some [p]

/-- `showDescription` -/
def showDescription (shortName ext file : Str) : Option (List Str) :=
  if shortName.head? = some 46 then some []
  else
    (fileName shortName ext).bind fun fn =>
    (findLoop fn (file.length + 1) file).bind fun found =>
    match found with
    | none => some []
    | some text => chunkLoop (text.length + 1) text

end Listing
end BurdahDos
