import BurdahDos.Shell.Read
import Mathlib

/-!
# Redirection

`get_redirection` of `portal/shell/redir.c` and the part of `parsecommandline` that redirects, in
`portal/shell/command.c`.  The handles are the job file table: each is closed or refers to an open
file, and a new one is the lowest that is closed.  `dup` is that of the C library, which returns -1
if it fails.

The results of `dup`, `open`, `creat`, `tmpfn` and `strdup` come as lists of answers; once a list
is used up, all goes well.  What the commands do is a parameter.
-/

set_option autoImplicit false

namespace BurdahDos
namespace Shell

/-! ## Handles -/

/-- The shell, as far as redirection has to do with it. -/
structure Session where
  /-- The open file behind each handle; a closed one is `none`. -/
  handles : List (Option ℕ)
  /-- The next file that is opened. -/
  next : ℕ
  /-- -1 is `none`. -/
  oldinfd : Option ℕ
  oldoutfd : Option ℕ
  /-- The temporary files that exist. -/
  temps : List Str
  /-- Whether `dup` succeeds, if it can. -/
  dups : List Bool
  /-- Whether a file can be opened. -/
  opens : List Bool
  /-- Whether a file can be created. -/
  creats : List Bool
  /-- What `tmpfn` returns. -/
  tmps : List (Option Str)

namespace Session

/-- The open file behind a handle. -/
def file (s : Session) (h : ℕ) : Option ℕ := s.handles.getD h none

/-- The lowest handle that is closed. -/
def lowest (s : Session) : Option ℕ := s.handles.findIdx? (·.isNone)

def setFile (s : Session) (h : ℕ) (f : Option ℕ) : Session := { s with handles := s.handles.set h f }

/-- `dup` -/
def dup (h : ℕ) (s : Session) : Option ℕ × Session :=
  let (ok, dups) := ask true s.dups
  let s := { s with dups := dups }
  match s.file h, s.lowest with
  | some f, some n => if ok then (some n, s.setFile n (some f)) else (none, s)
  | _, _ => (none, s)

/-- `dup2` -/
def dup2 (oldfd : Option ℕ) (newfd : ℕ) (s : Session) : Session :=
  match oldfd.bind s.file with
  | none => s
  | some f => s.setFile newfd (some f)

/-- `dos_close` -/
def close (fd : ℕ) (s : Session) : Session := s.setFile fd none

/-- A new file gets the lowest handle. -/
def newFile (ok : Bool) (s : Session) : Option ℕ × Session :=
  match s.lowest with
  | none => (none, s)
  | some n => if ok then (some n, { s.setFile n (some s.next) with next := s.next + 1 }) else (none, s)

/-- `dos_open` -/
def openFile (s : Session) : Option ℕ × Session :=
  let (ok, opens) := ask true s.opens
  { s with opens := opens }.newFile ok

/-- `dos_creat` -/
def creat (s : Session) : Option ℕ × Session :=
  let (ok, creats) := ask true s.creats
  { s with creats := creats }.newFile ok

/-- `devopen` for reading. -/
def devopenIn (s : Session) : Option ℕ × Session := s.openFile

/-- `devopen` for writing: a file that is appended to is opened, if it is there. -/
def devopenOut (append : Bool) (s : Session) : Option ℕ × Session :=
  if append then
    match s.openFile with
    | (some fd, s) => (some fd, s)
    | (none, s) => s.creat
  else s.creat

/-- `tmpfn`: the file is created, and closed again. -/
def tmpfn (s : Session) : Option Str × Session :=
  match ask (some []) s.tmps with
  | (none, tmps) => (none, { s with tmps := tmps })
  | (some name, tmps) => (some name, { s with tmps := tmps, temps := name :: s.temps })

/-- `killtmpfn` -/
def killtmpfn (fn : Option Str) (s : Session) : Session :=
  match fn with
  | none => s
  | some name => { s with temps := s.temps.filter (· != name) }

end Session

/-! ## The command line -/

/-- `is_redir` -/
def isRedir (c : UInt8) : Bool := c.toNat == 60 || c.toNat == 62 || c.toNat == 124

/-- What `get_redirection` has found so far: the commands in front of the last pipe, and the one in
hand. -/
structure Redirection where
  pipes : List Str
  cmd : Str
  ifn : Option Str
  ofn : Option Str
  /-- Whether `O_APPEND` is on. -/
  append : Bool

/-- A character of the command in hand. -/
def Redirection.put (r : Redirection) (s : Str) : Redirection := { r with cmd := r.cmd ++ s }

/-- A name for redirection, and what is behind it. -/
def redirName (s : Str) : Str × Str :=
  let stop : UInt8 → Bool := fun c => !isRedir c && !isargdelim c
  ((ltrimcl s).takeWhile stop, (ltrimcl s).dropWhile stop)

/-- The text in double quotes, with the quote at its end, and what is behind it. -/
def quoted (s : Str) : Str × Str :=
  let text := s.takeWhile (·.toNat != 34)
  match s.dropWhile (·.toNat != 34) with
  | [] => (text, [])
  | q :: rest => (text ++ [q], rest)

/-- The loop of `get_redirection`, of `fuel` turns at most. -/
def redirections : ℕ → Str → Redirection → List Bool → Option Redirection
  | 0, _, r, _ => some r
  | _ + 1, [], r, _ => some r
  | fuel + 1, ch :: sp, r, strdups =>
    if ch.toNat = 94 then
      match sp with
      | c :: rest =>
        if isRedir c then redirections fuel rest (r.put [c]) strdups
        else redirections fuel sp (r.put [ch]) strdups
      | [] => redirections fuel sp (r.put [ch]) strdups
    else if ch.toNat = 34 then
      redirections fuel (quoted sp).2 (r.put (ch :: (quoted sp).1)) strdups
    else if ch.toNat = 60 then
      let (ok, strdups) := ask true strdups
      if ok then
        redirections fuel (redirName sp).2 { r with ifn := some (redirName sp).1 } strdups
      else none
    else if ch.toNat = 62 then
      let (append, sp) : Bool × Str := match sp with
        | c :: rest => if c.toNat = 62 then (true, rest) else (r.append, sp)
        | [] => (r.append, sp)
      let (ok, strdups) := ask true strdups
      if ok then
        redirections fuel (redirName sp).2 { r with ofn := some (redirName sp).1, append := append }
          strdups
      else none
    else if ch.toNat = 124 then
      redirections fuel sp { r with pipes := r.pipes ++ [r.cmd], cmd := [] } strdups
    else redirections fuel sp (r.put [ch]) strdups

/-- `get_redirection` -/
def getRedirection (s : Str) (strdups : List Bool) : Option Redirection :=
  redirections s.length s ⟨[], [], none, none, false⟩ strdups

/-! ## Redirecting -/

section Redirecting

variable (docommand : Str → Session → Session)

/-- The original stdin is restored, if it has been saved. -/
def restoreIn (s : Session) : Session :=
  match s.oldinfd with
  | none => s
  | some fd => { ((s.close 0).dup2 (some fd) 0).close fd with oldinfd := none }

/-- The original stdout is restored, if it has been saved. -/
def restoreOut (s : Session) : Session :=
  match s.oldoutfd with
  | none => s
  | some fd => { ((s.close 1).dup2 (some fd) 1).close fd with oldoutfd := none }

/-- The part of `parsecommandline` behind the label `abort`. -/
def abort (fname0 fname1 : Option Str) (s : Session) : Session :=
  ((restoreOut (restoreIn s)).killtmpfn fname1).killtmpfn fname0

/-- `oldinfd = dup(0)`, if stdin is redirected. -/
def saveIn (r : Redirection) (s : Session) : Session :=
  if r.ifn.isSome || !r.pipes.isEmpty then { (s.dup 0).2 with oldinfd := (s.dup 0).1 } else s

/-- `oldoutfd = dup(1)`, if stdout is redirected. -/
def saveOut (r : Redirection) (s : Session) : Session :=
  if r.ofn.isSome || !r.pipes.isEmpty then { (s.dup 1).2 with oldoutfd := (s.dup 1).1 } else s

/-- Stdin is the file named; `false` if it is not. -/
def redirectIn (s : Session) : Bool × Session :=
  let (fd, s) := (s.close 0).devopenIn
  (fd == some 0, s)

/-- A command whose output is piped into the next one. -/
def pipe (fname1 : Option Str) (cmd : Str) (s : Session) : Session :=
  let s := docommand cmd s.creat.2
  let s := (s.close 1).dup2 s.oldoutfd 1
  ((s.close 0).killtmpfn fname1).openFile.2

/-- All but the last command; `false` if there is no temporary file. -/
def pipes : List Str → Option Str → Session → Bool × Option Str × Session
  | [], fname1, s => (true, fname1, s)
  | cmd :: cmds, fname1, s =>
    match (s.close 1).tmpfn with
    | (none, s) => (false, fname1, s)
    | (some fname0, s) => pipes cmds (some fname0) (pipe docommand fname1 cmd s)

/-- The last command. -/
def lastCommand (r : Redirection) (fname1 : Option Str) (s : Session) : Session :=
  match r.ofn with
  | some _ =>
    let (fd, s) := (s.close 1).devopenOut r.append
    if fd == some 1 then abort none fname1 (docommand r.cmd s) else abort none fname1 s
  | none => abort none fname1 (docommand r.cmd (restoreOut s))

/-- The commands of a line. -/
def runCommands (r : Redirection) (s : Session) : Session :=
  match pipes docommand r.pipes none s with
  | (false, fname1, s) => abort none fname1 s
  | (true, fname1, s) => lastCommand docommand r fname1 s

/-- `parsecommandline` with redirection: `s` is the line with its aliases expanded, and `answer`
says that there is no trace mode, or that it has been answered with yes. -/
def parsecommandline (answer : Bool) (line : Str) (strdups : List Bool) (s : Session) : Session :=
  if !answer then s
  else
    match getRedirection line strdups with
    | none => abort none none s
    | some r =>
      let s := saveIn r s
      match r.ifn with
      | none => runCommands docommand r (saveOut r s)
      | some _ =>
        match redirectIn s with
        | (false, s) => abort none none s
        | (true, s) => runCommands docommand r (saveOut r s)

end Redirecting

end Shell
end BurdahDos
