import BurdahDos.Shell.Args
import Mathlib

/-!
# IF

`cmd_if` of `portal/cmd/if.c`, with `skipqword` of `portal/lib/skqwd.c` and `match_` of
`portal/lib/match.c`.  A pointer into the parameters is the part of them behind it, and `none` is
one behind their NUL.
-/

set_option autoImplicit false

namespace BurdahDos
namespace Shell
namespace If

open Args

/-- What is outside of the program. -/
structure Env where
  /-- `switchar` -/
  sw : UInt8
  /-- `dos_findfirst` finds a file. -/
  found : Str → Bool
  errorlevel : ℤ

/-- What comes of an IF. -/
inductive Outcome where
  | exec (command : Str)
  | nothing
  | errorExist
  | errorErrorlevel
  | errorSyntax
  | errorCommand
  /-- A byte behind the NUL is read. -/
  | outside
deriving DecidableEq

/-! ## Words -/

/-- `match_` -/
def matchtok (word p : Str) : Option Str :=
  if (p.take word.length).map tolower = word.map tolower then
    let p := p.drop word.length
    if p = [] then some []
    else if ltrimcl p = p then none
    else some (ltrimcl p)
  else none

/-- The loop of `skipqword`: `pp_trunc` and `pp`, as positions.  A stop string begins with a
delimiter, so that there is nothing to back up over. -/
def skipLoop (stop : Str) : UInt8 → Option ℕ → ℕ → Str → Option ℕ × ℕ
  | _, trunc, i, [] => (trunc, i)
  | quote, trunc, i, c :: s =>
    if quote ≠ 0 then
      if quote = c then skipLoop stop 0 none (i + 1) s
      else if stop ≠ [] ∧ stop <+: c :: s then (trunc, i)
      else skipLoop stop quote (if trunc.isNone ∧ isargdelim c then some i else trunc) (i + 1) s
    else if c = quoteChar then skipLoop stop c trunc (i + 1) s
    else if stop ≠ [] ∧ stop <+: c :: s then (trunc, i)
    else if trunc.isNone ∧ isargdelim c then (some i, i)
    else skipLoop stop 0 trunc (i + 1) s

/-- `skipqword`: where a NUL is stored, and the pointer that it returns. -/
def skipqword (stop s : Str) : Option ℕ × Str :=
  match skipLoop stop 0 none 0 s with
  | (some i, _) => (some i, s.drop (i + 1))
  | (none, i) => (none, s.drop i)

/-- The string that is left where a NUL was stored. -/
def cutAt (trunc : Option ℕ) (s : Str) : Str :=
  match trunc with
  | some i => s.take i
  | none => s

/-- `rtrimcl` -/
def rtrimcl (s : Str) : Str := (s.reverse.dropWhile isargdelim).reverse

/-- `strnicmp(a, b, len) == 0 || memcmp(a, b, len) == 0` -/
def sameText (ignoreCase : Bool) (a b : Str) : Bool :=
  a.length == b.length && ((ignoreCase && a.map tolower == b.map tolower) || a == b)

/-! ## The forms -/

/-- `EXIST` -/
def wordExist : Str := [101, 120, 105, 115, 116]
/-- `ERRORLEVEL` -/
def wordErrorlevel : Str := [101, 114, 114, 111, 114, 108, 101, 118, 101, 108]
/-- `NOT` -/
def wordNot : Str := [78, 79, 84]
/-- `/I` -/
def wordI : Str := [47, 73]

/-- The options in front of a condition: `negate`, `ignore_case` and the rest. -/
def options (p : Str) : Bool × Bool × Str :=
  let (negate, p) := match matchtok wordNot p with
    | some p => (true, p)
    | none => (false, p)
  let (ignoreCase, p) := match matchtok wordI p with
    | some p => (true, p)
    | none => (false, p)
  match matchtok wordNot p with
  | some p => (true, ignoreCase, p)
  | none => (negate, ignoreCase, p)

/-- The command behind a condition; nothing of it is read unless it is to be executed. -/
def perform (execute : Bool) (pp : Option Str) : Outcome :=
  if execute then
    match pp with
    | none => .outside
    | some pp => if ltrimcl pp = [] then .errorCommand else .exec (ltrimcl pp)
  else .nothing

/-- The file of `EXIST`, and the command, which begins behind the byte that the NUL is stored to. -/
def existForm (env : Env) (p : Str) : Str × Option Str :=
  match skipWord env.sw p with
  | [] => (p, none)
  | c :: pp => (p.take (p.length - (c :: pp).length), some pp)

/-- A signed `char`, less `'0'`. -/
def digit (c : UInt8) : ℤ := (c.toNat : ℤ).bmod 256 - 48

/-- The number of `ERRORLEVEL`, and the rest; the first character always belongs to it. -/
def levelForm : Str → ℤ × Str
  | [] => (0, [])
  | c :: p =>
    let digits := p.takeWhile fun c => !isargdelim c
    (((c :: digits).foldl (fun n c => n * 10 + digit c) 0) % 256,
      p.dropWhile fun c => !isargdelim c)

/-- The form with `==`: the operands are equal, and the command. -/
def equalForm (ignoreCase : Bool) (p : Str) : Option (Bool × Str) :=
  let (trunc, pp) := skipqword [61, 61] p
  let pp := pp.dropWhile fun c => !isargdelim c
  match pp with
  | 61 :: 61 :: rest =>
    let left := rtrimcl (cutAt trunc (p.take (p.length - pp.length)))
    let r := ltrimcl rest
    let (trunc, pp) := skipqword [] r
    some (sameText ignoreCase left (cutAt trunc r), pp)
  | _ => none

/-- `cmd_if` -/
def cmdIf (env : Env) (param : Str) : Outcome :=
  let (negate, ignoreCase, p) := options param
  match matchtok wordExist p with
  | some p =>
    if p = [] then .errorExist
    else perform (env.found (existForm env p).1 != negate) (existForm env p).2
  | none =>
    match matchtok wordErrorlevel p with
    | some p =>
      if p = [] then .errorErrorlevel
      else perform (decide ((levelForm p).1 ≤ env.errorlevel) != negate) (some (levelForm p).2)
    | none =>
      match equalForm ignoreCase p with
      | none => .errorSyntax
      | some (equal, pp) => perform (equal != negate) (some pp)

end If
end Shell
end BurdahDos
