import BurdahDos.Config.Commands
import BurdahDos.Lib.Loop
import Mathlib

/-!
# DoConfig

The loop of `DoConfig` in `kernel/config.c` over the lines of the configuration file, and
`CmdChain`, by which another file is read in between.  There is no MEMDISK, and the splash screen,
and `DoMenu` behind the first pass, are left out.  The other handlers are not looked into: they are
written down in a journal, with what `szLine` and `pLine` are when they are called.

The open files are listed with what is still to be read of them, the one opened last in front.
-/

set_option autoImplicit false

namespace BurdahDos
namespace Config
namespace Chain

open CString

/-! ## State -/

/-- `struct CfgFile` -/
structure CfgFile where
  nFileDesc : ℕ
  nCfgLine : ℕ
  deriving DecidableEq

/-- `MAX_CHAINS` -/
def maxChains : ℕ := 5

/-- `sizeof(szLine)` -/
def lineSize : ℕ := 256

inductive Event
  /-- A handler other than `CfgFailure` is called. -/
  | call (func : Func) (szLine pLine : Bytes)
  /-- `CfgFailure` -/
  | failure
  /-- The user has a line skipped. -/
  | skip
  deriving DecidableEq

/-- The variables of `DoConfig`.  Of `cfgFile`, those in use are listed, the last one first. -/
structure State where
  szLine : Bytes
  fds : List (ℕ × Bytes)
  nFileDesc : ℕ
  cfgFile : List CfgFile
  nCfgLine : ℕ
  bEof : Bool
  asking : Asking
  journal : List Event
  deriving DecidableEq

/-- `nCurChain` -/
def State.nCurChain (s : State) : ℕ := s.cfgFile.length

def State.log (s : State) (e : Event) : State := { s with journal := s.journal ++ [e] }

/-! ## Files -/

/-- A descriptor that is free. -/
def freeFd (fds : List (ℕ × Bytes)) : ℕ :=
  ((List.range (fds.length + 1)).find? fun fd => (fds.lookup fd).isNone).getD fds.length

/-- `open`, of a file that is there. -/
def openFd (fds : List (ℕ × Bytes)) (f : Bytes) : ℕ × List (ℕ × Bytes) :=
  (freeFd fds, (freeFd fds, f) :: fds)

/-- `close` -/
def closeFd (fds : List (ℕ × Bytes)) (fd : ℕ) : List (ℕ × Bytes) := fds.eraseP (·.1 == fd)

/-- Something has been read of a file. -/
def setFd : List (ℕ × Bytes) → ℕ → Bytes → List (ℕ × Bytes)
  | [], _, _ => []
  | p :: fds, fd, f => if p.1 = fd then (fd, f) :: fds else p :: setFd fds fd f

/-! ## Lines -/

/-- How the reading of a line ends. -/
inductive Stop
  | line | eof | overflow
  deriving DecidableEq

/-- The loop that reads a line: `szLine`, `pLine`, and what is left of the file. -/
def readLine : Bytes → Bytes → ℕ → Bytes × ℕ × Bytes × Stop
  | [], szLine, pLine => (szLine, pLine, [], .eof)
  | c :: f, szLine, pLine =>
    let szLine := szLine.set pLine c
    if lineSize - 3 ≤ pLine then (szLine, pLine, f, .overflow)
    else if c = 10 ∨ c = 26 then (szLine, pLine, f, .line)
    else readLine f szLine (if c = 13 then pLine else pLine + 1)

/-! ## Commands -/

/-- A string ends in front of the NUL. -/
def cstr (s : Bytes) : Str := s.takeWhile (· != 0)

variable (files : Str → Option Bytes) (u : User)

/-- `CmdChain` -/
def cmdChain (pLine : Bytes) (s : State) : State :=
  if maxChains ≤ s.nCurChain then s.log .failure
  else
    match files (cstr pLine) with
    | none => s.log .failure
    | some f =>
      let (fd, fds) := openFd s.fds f
      { s with fds, cfgFile := ⟨s.nFileDesc, s.nCfgLine⟩ :: s.cfgFile, nFileDesc := fd,
               nCfgLine := 0 }

/-- A handler is called. -/
def call (func : Func) (pLine : Bytes) (s : State) : State :=
  match func with
  | .cfgFailure => s.log .failure
  | .cmdChain => cmdChain files pLine (s.log (.call .cmdChain s.szLine pLine))
  | func => s.log (.call func s.szLine pLine)

/-- What is done with a line that has been read. -/
def command (nPass : ℤ) (s : State) : State :=
  let v := scan s.szLine
  if v.szBuf = [] then s
  else
    let pEntry := lookUp commands v.szBuf
    if 0 ≤ pEntry.pass ∧ pEntry.pass ≠ nPass then s
    else if nPass = 0 then call files pEntry.func v.pLine s
    else
      let (skip, asking) := skipLine u v s.asking
      let s := { s with asking }
      if skip then s.log .skip
      else
        match argument pEntry.func v.pLine with
        | none => s.log .failure
        | some pLine => call files pEntry.func pLine s

/-- A chained file ends. -/
def resume (cfg : CfgFile) (cfgFile : List CfgFile) (s : State) : State :=
  { s with fds := closeFd s.fds s.nFileDesc, cfgFile, nFileDesc := cfg.nFileDesc,
           nCfgLine := cfg.nCfgLine, bEof := false }

/-- A turn of the loop, with `nCfgLine++` behind it. -/
def turn (nPass : ℤ) (s : State) : Option State :=
  (s.fds.lookup s.nFileDesc).map fun f =>
    let (szLine, pLine, f, stop) := readLine f s.szLine 0
    let s := { s with szLine := szLine.set pLine 0, fds := setFd s.fds s.nFileDesc f,
                      bEof := decide (stop = Stop.eof) }
    let s := if stop = Stop.overflow then s.log .failure else s
    let s :=
      match s.bEof, s.cfgFile with
      | true, cfg :: cfgFile => resume cfg cfgFile s
      | _, _ => command files u nPass s
    { s with nCfgLine := s.nCfgLine + 1 }

/-- The configuration file: the first of the names that can be opened. -/
def configFile (names : List Str) : Option Bytes :=
  (names.filter (· ≠ [])).findSome? files

/-- `DoConfig`, by `fuel` turns of its loop at the most. -/
def doConfig (names : List Str) (nPass : ℤ) (fuel : ℕ) (s : State) : Option State :=
  match configFile files names with
  | none => some s
  | some f =>
    let (nFileDesc, fds) := openFd s.fds f
    (loop State.bEof (turn files u nPass) fuel
        { s with fds, nFileDesc, nCfgLine := 0, bEof := false }).map fun s =>
      { s with fds := closeFd s.fds s.nFileDesc }

end Chain
end Config
end BurdahDos
