import BurdahDos.Shell.Read
import Mathlib

/-!
# COPY

`BIGcopy`, `copy` and `copyFiles` of `portal/cmd/copy.c`.  A file is named by its true path; the
destination is held open as its contents and a position, and is put back when it is closed.  What
goes well and what fails comes as lists of answers, as for the batch contexts.  File times and
messages are left out.
-/

set_option autoImplicit false

namespace BurdahDos
namespace Shell

/-! ## State -/

/-- `ASCII` and `BINARY` -/
structure Mode where
  ascii : Bool
  binary : Bool
deriving DecidableEq

/-- `struct CopySource`, less the links. -/
structure Source where
  fnam : Str
  flags : Mode
deriving DecidableEq

/-- What COPY works with. -/
structure Env where
  /-- `truepath`, if there is memory for it. -/
  truepath : Str → Str
  /-- `fillFnam`; an empty name is `none`. -/
  fillFnam : Str → Str → Option Str
  /-- The names that `dos_findfirst` and `dos_findnext` find for a pattern. -/
  found : Str → List Str
  /-- `isadev` -/
  isadev : Str → Bool
  /-- What a device gives, read by read. -/
  input : Str → List (List UInt8)
  interactiveCommand : Bool

/-- What COPY changes, and what it meets. -/
structure CopyState where
  /-- The files by their true paths. -/
  files : Str → Option (List UInt8)
  optY : Bool
  destFlags : Mode
  /-- Whether there is memory for `samefile`. -/
  mems : List Bool
  /-- Whether `DOSalloc` finds a buffer. -/
  allocs : List Bool
  opens : List Bool
  /-- What `cbreak` is. -/
  breaks : List Bool
  reads : List Bool
  /-- `none` for a write that goes well, or the bytes that are written before one fails. -/
  writes : List (Option ℕ)
  truncs : List Bool
  /-- Whether a second has passed. -/
  ticks : List Bool
  closes : List Bool
  /-- What `userprompt` returns. -/
  prompts : List ℕ

namespace CopyState

def cbreak (s : CopyState) : Bool × CopyState :=
  ((ask false s.breaks).1, { s with breaks := (ask false s.breaks).2 })

def setFile (s : CopyState) (name : Str) (data : Option (List UInt8)) : CopyState :=
  { s with files := Function.update s.files name data }

/-- A file or a device is opened that is there. -/
def openFile (env : Env) (name : Str) (s : CopyState) : Bool × CopyState :=
  ((env.isadev name || (s.files name).isSome) && (ask true s.opens).1,
    { s with opens := (ask true s.opens).2 })

/-- `cbreak` is looked at when a second has passed. -/
def poll (s : CopyState) : Bool × CopyState :=
  let (tick, ticks) := ask false s.ticks
  let s := { s with ticks := ticks }
  if tick then s.cbreak else (false, s)

/-- `unlink`, which does nothing to a device. -/
def unlink (env : Env) (name : Str) (s : CopyState) : CopyState :=
  if env.isadev name then s else s.setFile name none

end CopyState

/-! ## The destination -/

/-- The destination while it is open. -/
structure Out where
  content : List UInt8
  pos : ℕ
  device : Bool

/-- The file ends at the position; the bytes that are added are not defined, and taken as 0. -/
def Out.truncate (o : Out) : Out :=
  if o.device then o
  else { o with content := o.content.take o.pos ++ List.replicate (o.pos - o.content.length) 0 }

/-- `farwrite`: no bytes truncate the file. -/
def Out.write (o : Out) (bytes : List UInt8) : Out :=
  if o.device then o
  else if bytes = [] then o.truncate
  else { o with
    content := o.truncate.content ++ bytes ++ o.content.drop (o.pos + bytes.length)
    pos := o.pos + bytes.length }

/-! ## `BIGcopy` -/

/-- What is read from a file of these data with a buffer of `size` bytes. -/
def chunks (size : ℕ) : ℕ → List UInt8 → List (List UInt8)
  | 0, _ => []
  | _ + 1, [] => []
  | n + 1, data => data.take size :: chunks size n (data.drop size)

/-- The largest buffer that can be had. -/
def getBuffer : ℕ → CopyState → Option ℕ × CopyState
  | 0, s => (none, s)
  | k + 1, s =>
    let (ok, allocs) := ask true s.allocs
    let s := { s with allocs := allocs }
    if ok then (some ((k + 1) * 4096), s) else getBuffer k s

/-- Control-Z -/
def ctrlZ : UInt8 := 26

/-- What is written of what has been read. -/
def upToCtrlZ (asc : Bool) (chunk : List UInt8) : List UInt8 :=
  if asc then chunk.takeWhile (· != ctrlZ) else chunk

/-- Whether the loop of `BIGcopy` ends behind what has been read. -/
def lastChunk (asc deviceIn : Bool) (size : ℕ) (chunk : List UInt8) : Bool :=
  (asc && chunk.contains ctrlZ) || ((upToCtrlZ asc chunk).length < size && !(deviceIn && asc))

/-- The loop of `BIGcopy`: what it returns, and the destination. -/
def bigLoop (asc deviceIn : Bool) (size : ℕ) : List (List UInt8) → Out → CopyState →
    ℕ × Out × CopyState
  | [], out, s =>
    let (ok, reads) := ask true s.reads
    (if ok then 0 else 1, out, { s with reads := reads })
  | chunk :: rest, out, s =>
    let (ok, reads) := ask true s.reads
    let s := { s with reads := reads }
    if !ok then (1, out, s)
    else
      let (short, writes) := ask none s.writes
      let s := { s with writes := writes }
      match short with
      | some n => (if out.device then 0 else 2, out.write ((upToCtrlZ asc chunk).take n), s)
      | none =>
        let out := out.write (upToCtrlZ asc chunk)
        let (brk, s) := s.poll
        if brk then (3, out, s)
        else if lastChunk asc deviceIn size chunk then (0, out, s)
        else bigLoop asc deviceIn size rest out s

/-- What a source gives, read by read. -/
def inputOf (env : Env) (name : Str) (size : ℕ) (s : CopyState) : List (List UInt8) :=
  if env.isadev name then env.input name
  else chunks size ((s.files name).getD []).length ((s.files name).getD [])

/-- `BIGcopy` -/
def bigCopy (env : Env) (asc : Bool) (name : Str) (out : Out) (s : CopyState) :
    ℕ × Out × CopyState :=
  match getBuffer 15 s with
  | (none, s) => (3, out, s)
  | (some size, s) => bigLoop asc (env.isadev name) size (inputOf env name size s) out s

/-! ## `copy` -/

/-- Whether the destination is given the size of the source first. -/
def sizeChanged (env : Env) (single : Bool) (name : Str) (flags : Mode) (out : Out) : Bool :=
  !flags.ascii && single && !env.isadev name && !out.device

/-- The destination gets the size of the source, and is written from its start. -/
def presize (n : ℕ) (out : Out) (s : CopyState) : Option Out × CopyState :=
  let (ok, truncs) := ask true s.truncs
  let s := { s with truncs := truncs }
  (if ok then some { { out with pos := n }.truncate with pos := 0 } else none, s)

/-- A device ends at Ctrl-Z, unless it is binary. -/
def deviceFlags (env : Env) (name : Str) (flags : Mode) : Mode :=
  if env.isadev name && !flags.binary then { flags with ascii := true } else flags

/-- The destination that is read into, which ends behind the data if it had been given a size. -/
def fillSized (env : Env) (changed asc : Bool) (name : Str) : Option Out → CopyState →
    Option Out × CopyState
  | none, s => (none, s)
  | some out, s =>
    let (rc, out, s) := bigCopy env asc name out s
    (if rc = 0 then some (if changed then out.truncate else out) else none, s)

/-- The bytes of a source go to the destination; `none` if they do not. -/
def copyBytes (env : Env) (single : Bool) (name : Str) (flags : Mode) (out : Out) (s : CopyState) :
    Option Out × CopyState :=
  let changed := sizeChanged env single name flags out
  let (sized, s) := if changed then presize ((s.files name).getD []).length out s else (some out, s)
  let (done, s) := fillSized env changed flags.ascii name sized s
  let (brk, s) := s.cbreak
  (if brk then none else done, s)

/-- One source; `none` leads to `unlink`. -/
def copySource (env : Env) (srcFile : Str) (single : Bool) (h : Source) (out : Out) (s : CopyState) :
    Option (Source × Out) × CopyState :=
  match env.fillFnam h.fnam srcFile with
  | none => (none, s)
  | some rSrc =>
    let name := env.truepath rSrc
    match s.openFile env name with
    | (false, s) => (none, s)
    | (true, s) =>
      let flags := deviceFlags env name h.flags
      match s.cbreak with
      | (true, s) => (none, s)
      | (false, s) =>
        match copyBytes env single name flags out s with
        | (none, s) => (none, s)
        | (some out, s) => (some ({ h with flags := flags }, out), s)

/-- All the sources. -/
def copySources (env : Env) (srcFile : Str) (single : Bool) : List Source → Out → CopyState →
    Option (List Source × Out) × CopyState
  | [], out, s => (some ([], out), s)
  | h :: app, out, s =>
    match copySource env srcFile single h out s with
    | (none, s) => (none, s)
    | (some (h, out), s) =>
      match copySources env srcFile single app out s with
      | (none, s) => (none, s)
      | (some (app, out), s) => (some (h :: app, out), s)

/-- `samefile`; `none` if there is no memory. -/
def samefile (env : Env) (f1 f2 : Str) (s : CopyState) : Option Bool × CopyState :=
  let (ok, mems) := ask true s.mems
  (if ok then some (env.truepath f1 == env.truepath f2) else none, { s with mems := mems })

/-- No source is the destination. -/
def checkSources (env : Env) (srcFile rDest : Str) : List Source → CopyState → Bool × CopyState
  | [], s => (true, s)
  | h :: app, s =>
    match env.fillFnam h.fnam srcFile with
    | none => (false, s)
    | some rSrc =>
      match samefile env rDest rSrc s with
      | (some false, s) => checkSources env srcFile rDest app s
      | (_, s) => (false, s)

/-- Sources without flags, up to the first one with some, are text if there are several. -/
def defaultAscii : List Source → List Source
  | [] => []
  | h :: app =>
    if !h.flags.ascii && !h.flags.binary then
      { h with flags := { h.flags with ascii := true } } :: defaultAscii app
    else h :: app

/-- The flags once it is known whether there are several sources. -/
def setFlags (src : List Source) (s : CopyState) : List Source × CopyState :=
  if 1 < src.length then
    (defaultAscii src,
      if !s.destFlags.ascii && !s.destFlags.binary then
        { s with destFlags := { s.destFlags with ascii := true } }
      else s)
  else (src, s)

/-- What comes before the destination is opened: COPY ends, goes on to the next file, or opens
it. -/
inductive Prepared where
  | quit
  | skip
  | go
deriving DecidableEq

/-- The prompt for a destination that exists. -/
def confirm (env : Env) (srcFile rDest : Str) (src : List Source) (s : CopyState) :
    Prepared × CopyState :=
  if env.interactiveCommand && !s.optY then
    match s.openFile env (env.truepath rDest) with
    | (false, s) => (.go, s)
    | (true, s) =>
      if env.isadev (env.truepath rDest) then (.go, s)
      else
        match src.getLast?.bind fun h => env.fillFnam h.fnam srcFile with
        | none => (.quit, s)
        | some rSrc =>
          match s.openFile env (env.truepath rSrc) with
          | (false, s) => (.quit, s)
          | (true, s) =>
            let (key, prompts) := ask 1 s.prompts
            let s := { s with prompts := prompts }
            if key = 3 then (.go, { s with optY := true })
            else if key = 1 then (.go, s)
            else if key = 2 then (.skip, s)
            else (.quit, s)
  else (.go, s)

/-- The destination is opened, for appending or as a new file. -/
def openDest (env : Env) (append : Bool) (name : Str) (s : CopyState) : Option Out × CopyState :=
  if append then
    match s.openFile env name with
    | (false, s) => (none, s)
    | (true, s) =>
      let content := (s.files name).getD []
      (some ⟨content, content.length, env.isadev name⟩, s)
  else
    let (ok, opens) := ask true s.opens
    let s := { s with opens := opens }
    if !ok then (none, s)
    else (some ⟨[], 0, env.isadev name⟩, if env.isadev name then s else s.setFile name (some []))

/-- The Ctrl-Z behind a text, and the end: `false` if that fails. -/
def closeDest (name : Str) (out : Out) (s : CopyState) : Bool × CopyState :=
  let (short, out, s) :=
    if s.destFlags.ascii && !out.device then
      let (short, writes) := ask none s.writes
      (short, if short.isNone then out.write [ctrlZ] else out, { s with writes := writes })
    else (none, out, s)
  let (ok, closes) := ask true s.closes
  let s := { s with closes := closes }
  (short.isNone && ok, if out.device then s else s.setFile name (some out.content))

/-- What is done with the destination while it is open; `none` if COPY ends. -/
def fillDest (env : Env) (srcFile name : Str) (src : List Source) (out : Out) (s : CopyState) :
    Option (List Source) × CopyState :=
  match copySources env srcFile (src.length == 1) src out s with
  | (none, s) => (none, s.unlink env name)
  | (some (src, out), s) =>
    match closeDest name out s with
    | (false, s) => (none, s.unlink env name)
    | (true, s) => (some src, s)

/-- What comes before the destination is opened. -/
def prepare (env : Env) (dst srcFile : Str) (src : List Source) (s : CopyState) :
    Option Str × Prepared × List Source × CopyState :=
  match env.fillFnam dst srcFile with
  | none => (none, .quit, src, s)
  | some rDest =>
    match checkSources env srcFile rDest src s with
    | (false, s) => (some rDest, .quit, src, s)
    | (true, s) =>
      let (src, s) := setFlags src s
      match confirm env srcFile rDest src s with
      | (.go, s) =>
        let (brk, s) := s.cbreak
        (some rDest, if brk then .quit else .go, src, s)
      | (p, s) => (some rDest, p, src, s)

/-- A turn of the loop of `copy`, for a file that is found; `none` if COPY ends. -/
def copyFile (env : Env) (append : Bool) (dst srcFile : Str) (src : List Source) (s : CopyState) :
    Option (List Source) × CopyState :=
  match prepare env dst srcFile src s with
  | (some rDest, .go, src, s) =>
    match openDest env append (env.truepath rDest) s with
    | (none, s) => (none, s)
    | (some out, s) => fillDest env srcFile (env.truepath rDest) src out s
  | (some _, .skip, src, s) => (some src, s)
  | (_, _, _, s) => (none, s)

/-- The loop of `copy`; `false` if COPY ends. -/
def copyAll (env : Env) (append : Bool) (dst : Str) : List Str → List Source → CopyState →
    Bool × CopyState
  | [], _, s => (true, s)
  | srcFile :: found, src, s =>
    match copyFile env append dst srcFile src s with
    | (none, s) => (false, s)
    | (some src, s) => copyAll env append dst found src s

/-- `dfnfilename` -/
def dfnfilename (name : Str) : Str := name.drop (dirPart name).length

/-- The files that a pattern stands for. -/
def matching (env : Env) (pattern : Str) : List Str :=
  if pattern.any fun c => c.toNat == 42 || c.toNat == 63 then env.found pattern
  else [dfnfilename pattern]

/-- `copy` -/
def copy (env : Env) (append : Bool) (dst pattern : Str) (src : List Source) (s : CopyState) :
    Bool × CopyState :=
  match matching env pattern with
  | [] => (false, s)
  | found => copyAll env append dst found src s

/-- `copyFiles`, for a source and those that are appended to it. -/
def copyFiles (env : Env) (dst : Str) (h : Source) (app : List Source) (s : CopyState) :
    Bool × CopyState :=
  match samefile env h.fnam dst s with
  | (none, s) => (false, s)
  | (some false, s) => copy env false dst h.fnam (h :: app) s
  | (some true, s) => if app = [] then (false, s) else copy env true dst h.fnam app s

end Shell
end BurdahDos
