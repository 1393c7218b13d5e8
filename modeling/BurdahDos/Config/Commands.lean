import BurdahDos.Config.Environ
import BurdahDos.Strings.Defs
import Mathlib

/-!
# The commands of CONFIG.SYS

What `DoConfig` of `kernel/config.c` finds out about a line: `scan` with `fMenuSelect`, `LookUp` in
the table `commands`, the user's answers to `SkipLine`, and where the argument of a handler begins.
A pointer into `szLine` is what `szLine` holds from there on.
-/

set_option autoImplicit false

namespace BurdahDos
namespace Config
namespace Chain

open CString
open Strings (bytes)

/-! ## The verb -/

/-- `isnum` -/
def isnum (c : UInt8) : Bool := 48 ≤ c && c ≤ 57

/-- What `scan` leaves: the verb in `szBuf`, the pointer that it returns, and what it has found out
about whom to ask. -/
structure Scanned where
  szBuf : Str
  pLine : Bytes
  menuLine : ℕ
  askThisSingleCommand : Bool
  dontAskThisSingleCommand : Bool

/-- The configurations that a line is for, in front of a `?`.  Digits without one are skipped. -/
def menuSelect (s : Bytes) : ℕ × Bytes :=
  let digits := s.takeWhile isnum
  if digits = [] then (0, s)
  else
    match s.dropWhile isnum with
    | 63 :: t => (digits.foldl (fun numbers c => numbers ||| 1 <<< (c.toNat - 48)) 0, skipwh t)
    | t => (0, t)

/-- A character of the verb, up to the NUL at the end of the line. -/
def inVerb (c : UInt8) : Bool := c != 0 && inWord c

/-- `scan(s, d, 1)` -/
def scan (s : Bytes) : Scanned :=
  let (menuLine, s) := menuSelect (skipwh s)
  let dontAsk := s.head? == some 33
  match skipMark s with
  | 59 :: t => ⟨[59], t, menuLine, false, dontAsk⟩
  | t =>
    let verb := t.takeWhile inVerb
    ⟨verb.filter (· ≠ 63), t.dropWhile inVerb, menuLine, verb.contains 63, dontAsk⟩

/-! ## The table -/

/-- The handlers. -/
inductive Func
  | cfgSwitches | cfgIgnore | cfgMenuColor | cfgMenuDefault | cfgMenu | cfgMenuEsc | cfgBreak
  | configBuffers | cfgBuffersHigh | initPgm | country | dosmem | dosData | fcbs | cfgKeyBuf | files
  | filesHigh | cfgLastdrive | cfgLastdriveHigh | numlock | initPgmHigh | stacks | stacksHigh
  | cfgSwitchar | sysScreenMode | sysVersion | cfgOemId | setAnyDos | setIdleHalt | device
  | deviceHigh | cmdInstall | cmdInstallHigh | cmdChain | cmdSet | cfgFailure
  deriving DecidableEq

/-- `struct table` -/
structure Table where
  entry : Str
  pass : ℤ
  func : Func

/-- `commands`, without the default action at its end. -/
def commands : List Table := [
  ⟨bytes "SWITCHES", 0, .cfgSwitches⟩,
  ⟨bytes "REM", 0, .cfgIgnore⟩,
  ⟨bytes ";", 0, .cfgIgnore⟩,
  ⟨bytes "MENUCOLOR", 0, .cfgMenuColor⟩,
  ⟨bytes "MENUDEFAULT", 0, .cfgMenuDefault⟩,
  ⟨bytes "MENU", 0, .cfgMenu⟩,
  ⟨bytes "ECHO", 2, .cfgMenu⟩,
  ⟨bytes "EECHO", 2, .cfgMenuEsc⟩,
  ⟨bytes "BREAK", 1, .cfgBreak⟩,
  ⟨bytes "BUFFERS", 1, .configBuffers⟩,
  ⟨bytes "BUFFERSHIGH", 1, .cfgBuffersHigh⟩,
  ⟨bytes "COMMAND", 1, .initPgm⟩,
  ⟨bytes "COUNTRY", 1, .country⟩,
  ⟨bytes "DOS", 1, .dosmem⟩,
  ⟨bytes "DOSDATA", 1, .dosData⟩,
  ⟨bytes "FCBS", 1, .fcbs⟩,
  ⟨bytes "KEYBUF", 1, .cfgKeyBuf⟩,
  ⟨bytes "FILES", 1, .files⟩,
  ⟨bytes "FILESHIGH", 1, .filesHigh⟩,
  ⟨bytes "LASTDRIVE", 1, .cfgLastdrive⟩,
  ⟨bytes "LASTDRIVEHIGH", 1, .cfgLastdriveHigh⟩,
  ⟨bytes "NUMLOCK", 1, .numlock⟩,
  ⟨bytes "SHELL", 1, .initPgm⟩,
  ⟨bytes "SHELLHIGH", 1, .initPgmHigh⟩,
  ⟨bytes "STACKS", 1, .stacks⟩,
  ⟨bytes "STACKSHIGH", 1, .stacksHigh⟩,
  ⟨bytes "SWITCHAR", 1, .cfgSwitchar⟩,
  ⟨bytes "SCREEN", 1, .sysScreenMode⟩,
  ⟨bytes "VERSION", 1, .sysVersion⟩,
  ⟨bytes "OEMID", 1, .cfgOemId⟩,
  ⟨bytes "ANYDOS", 1, .setAnyDos⟩,
  ⟨bytes "IDLEHALT", 1, .setIdleHalt⟩,
  ⟨bytes "DEVICE", 2, .device⟩,
  ⟨bytes "DEVICEHIGH", 2, .deviceHigh⟩,
  ⟨bytes "INSTALL", 2, .cmdInstall⟩,
  ⟨bytes "INSTALLHIGH", 2, .cmdInstallHigh⟩,
  ⟨bytes "CHAIN", 2, .cmdChain⟩,
  ⟨bytes "SET", 2, .cmdSet⟩]

/-- `strcaseequal` -/
def strcaseequal (d s : Str) : Bool := strupr d == strupr s

/-- `LookUp`, with the default action where the table ends. -/
def lookUp : List Table → Str → Table
  | [], _ => ⟨[], -1, .cfgFailure⟩
  | p :: ps, token => if strcaseequal p.entry token then p else lookUp ps token

/-! ## The user -/

/-- What is pressed while the first command waits. -/
inductive Key
  | f5 | f8 | other

/-- What is pressed at `[Y,N]?`, other keys left out. -/
inductive Answer
  | no | escape | yes | f5

/-- What the user does, with the answers in order. -/
structure User where
  key : Key
  answers : ℕ → Answer
  menuSelected : ℕ

/-- The variables of `SkipLine`, and how many answers there were. -/
structure Asking where
  skipConfigSeconds : ℤ
  skipAllConfig : Bool
  singleStep : Bool
  asked : ℕ
  deriving DecidableEq

/-- The first command is waited with. -/
def Asking.first (u : User) (a : Asking) : Asking :=
  if 0 ≤ a.skipConfigSeconds then
    match u.key with
    | .f5 => { a with skipConfigSeconds := -1, skipAllConfig := true }
    | .f8 => { a with skipConfigSeconds := -1, singleStep := true }
    | .other => { a with skipConfigSeconds := -1 }
  else a

/-- `SkipLine` -/
def skipLine (u : User) (v : Scanned) (a : Asking) : Bool × Asking :=
  let a := a.first u
  if a.skipAllConfig then (true, a)
  else if v.menuLine ≠ 0 ∧ v.menuLine &&& 1 <<< u.menuSelected = 0 then (true, a)
  else if v.dontAskThisSingleCommand then (false, a)
  else if !v.askThisSingleCommand && !a.singleStep then (false, a)
  else
    let b := { a with asked := a.asked + 1 }
    match u.answers a.asked with
    | .no => (true, b)
    | .escape => (false, { b with singleStep := false })
    | .yes => (false, b)
    | .f5 => (true, { b with skipAllConfig := true })

/-! ## The argument -/

/-- The text of a menu, which begins at once behind the verb, is the argument. -/
def Func.isMenu (func : Func) : Bool := func = .cfgMenu || func = .cfgMenuEsc

/-- Where the argument of a handler begins, if the verb ends as it should. -/
def argument (func : Func) (pLine : Bytes) : Option Bytes :=
  if func.isMenu then some (skipwh (pLine.drop 1))
  else if pLine.head? = some 32 ∨ pLine.head? = some 9 ∨ pLine.head? = some 61 then
    let pLine := skipwh pLine
    some (if pLine.head? = some 61 then skipwh (pLine.drop 1) else pLine)
  else none

end Chain
end Config
end BurdahDos
