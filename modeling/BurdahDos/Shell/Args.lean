import BurdahDos.Shell.Read
import Mathlib

/-!
# Arguments of a command

`portal/lib/find.c` and `unquote.c`.  A pointer into a line is the part of the line behind it.  `sw`
is what `switchar` returns.
-/

set_option autoImplicit false

namespace BurdahDos
namespace Shell
namespace Args

/-! ## Words -/

/-- `QUOTE_STR` is `"\""`. -/
def quoteChar : UInt8 := 34

/-- `isoptdelim` -/
def isoptdelim (c : UInt8) : Bool := c.toNat < 33 || c.toNat == 127

/-- `isoption` -/
def isoption (sw : UInt8) (s : Str) : Bool := s.head? == some sw

/-- `isdelim`, within `find`. -/
def isdelim (isopt : Bool) (c : UInt8) : Bool := if isopt then isoptdelim c else isargdelim c

/-- The second loop of `find`. -/
def findLoop (sw : UInt8) (isopt delim : Bool) : UInt8 → Str → Str
  | _, [] => []
  | quote, ch :: p =>
    if quote != 0 || (delim && !(isdelim isopt ch || ch == sw)) ||
        (!delim && isdelim isopt ch) then
      findLoop sw isopt delim
        (if quote == ch then 0 else if ch == quoteChar then ch else quote) p
    else ch :: p

/-- `find` -/
def find (sw : UInt8) (p : Str) (delim : Bool) : Str :=
  let isopt := isoption sw p
  findLoop sw isopt delim 0 (if isopt && delim then (p.drop 1).dropWhile (· == sw) else p)

/-- `skip_word` -/
def skipWord (sw : UInt8) (p : Str) : Str := find sw p true

/-- `skipdm` -/
def skipdm (sw : UInt8) (p : Str) : Str := find sw p false

/-- The loop of `unquote`.  A quote that is not closed in front of `end` is left out, like those of
a pair. -/
def unquoteLoop : ℕ → Str → Str
  | 0, s => s
  | fuel + 1, s =>
    match s.dropWhile (· != quoteChar) with
    | [] => s
    | _ :: q =>
      let before := s.takeWhile (· != quoteChar)
      match q.dropWhile (· != quoteChar) with
      | [] => before ++ q
      | _ :: str => before ++ q.takeWhile (· != quoteChar) ++ unquoteLoop fuel str

/-- `unquote`, for the characters in front of `end`. -/
def unquote (s : Str) : Str := unquoteLoop s.length s

end Args
end Shell
end BurdahDos
