import BurdahDos.Dir.Find
import BurdahDos.Path.Resolve
import BurdahDos.Shell.Defs
import Mathlib

/-!
# DEL

`cmd_del` of `portal/cmd/del.c`, without /P.  It writes a journal of what it stores into `fullname`,
asks and deletes; an event belongs to an argument, by its number.

A search is that of the kernel, without a driver for long names: the last component of the path goes
through the loop of `truename` (`Path.fit`), and the entries are compared with what comes of it
(`Dir.wanted`; `Dir.findAll_lists` is about the search itself).  What the directories hold, what the
user answers, whether Ctrl-C was pressed and whether `unlink` succeeds may depend on all that
happened before.
-/

set_option autoImplicit false

namespace BurdahDos
namespace Shell
namespace Del

open BurdahDos.Path (Str backslash dot star quest)

/-- `MAXPATH` -/
def maxPath : ℕ := 260
/-- `sizeof(f.ff_name)` -/
def ffNameSize : ℕ := 260
/-- `sizeof(fullname)` -/
def fullnameSize : ℕ := maxPath + ffNameSize + 2

/-- `FA_ARCH` -/
def faArch : UInt8 := 0x20

inductive Event where
  /-- `n` bytes are stored from `fullname[p]` on. -/
  | store (p : ℤ) (n : ℕ)
  /-- The delete-all prompt for a directory, and the answer. -/
  | prompt (arg : ℕ) (dir : Str) (r : ℤ)
  /-- `unlink`, and whether it succeeds. -/
  | unlink (arg : ℕ) (path : Str) (ok : Bool)
deriving DecidableEq

/-- What names mean. -/
structure Names where
  /-- `abspath`; an absolute path "always contains a backslash". -/
  abspath : Str → Option Str
  abspath_backslash : ∀ s path, abspath s = some path → backslash ∈ path
  /-- `dfnstat` says `DFN_DIRECTORY`. -/
  isDir : Str → Bool
  /-- `DosUpFChar` -/
  up : UInt8 → UInt8
  /-- A name, without its extension, is that of a device. -/
  device : Str → Bool

/-- What else is outside of the program. -/
structure World where
  /-- The entries of a directory. -/
  entries : List Event → Str → List File.Dirent
  /-- `userprompt` -/
  answer : List Event → ℤ
  /-- `cbreak` -/
  cbreak : List Event → Bool
  /-- `unlink` succeeds for a file. -/
  unlinks : List Event → Str → Bool

/-! ## A path -/

/-- `p`, up to which the path is that of the directory. -/
def lastName (fullname : Str) : Str := (fullname.reverse.takeWhile (· != backslash)).reverse

/-- The directory, with the backslash behind it. -/
def dirOf (fullname : Str) : Str := (fullname.reverse.dropWhile (· != backslash)).reverse

/-- A backslash is put behind a directory. -/
def addBackslash (n : Names) (path : Str) : Str :=
  if n.isDir path ∧ path.getLast? ≠ some backslash then path ++ [backslash] else path

/-- "Delete a whole directory" -/
def addAll (path : Str) : Str :=
  if path.getLast? = some backslash then path ++ [star, dot, star] else path

/-- `fullname` for an absolute path. -/
def complete (n : Names) (path : Str) : Str := addAll (addBackslash n path)

/-- What is behind the last dot. -/
def lastExt (name : Str) : Str := (name.reverse.takeWhile (· != dot)).reverse

/-- "Make sure user is sure if all files are to be deleted" -/
def asks (name : Str) : Bool :=
  name.head? == some star && (!name.contains dot || (lastExt name).head? == some star)

/-! ## A search -/

/-- What the kernel makes of the last component of a path, for comparisons.  That `truename` refuses
what does not fit into `SFTMAX` bytes is left to `World.entries`, which holds nothing then. -/
def pattern (n : Names) (fullname : Str) : Option File.Name :=
  if (dirOf fullname).any fun c => c == star || c == quest then none
  else if (lastName fullname).head? = some dot then none
  else (Path.fit (lastName fullname)).map fun r =>
    (Dir.convertNameSZToName83 (r.1.map n.up)).1

/-- The entries that a search finds. -/
def found (w : World) (h : List Event) (dir : Str) (pat : File.Name) : List File.Dirent :=
  (w.entries h dir).filter (Dir.wanted ⟨0, pat, faArch, 0, 0⟩)

/-- The name of a path is that of a device. -/
def isDevice (n : Names) (fullname : Str) : Bool :=
  n.device ((lastName fullname).takeWhile (· != dot))

/-- The names that `dos_findfirst` and `dos_findnext` tell of, and whether they are of files. -/
def find (n : Names) (w : World) (h : List Event) (fullname : Str) : List (Str × Bool) :=
  match pattern n fullname with
  | none => []
  | some pat =>
    if isDevice n fullname then
      [(Dir.convertName83ToNameSZ (Vector.ofFn fun i => if i.val < 8 then pat.get i else Dir.blank),
        false)]
    else (found w h (dirOf fullname) pat).map fun e => (Dir.convertName83ToNameSZ e.name, true)

/-! ## The command -/

/-- The loop over what is found; it ends early at a Ctrl-C. -/
def deleteLoop (w : World) (arg : ℕ) (dir : Str) :
    List (Str × Bool) → List Event → List Event × Bool
  | [], h => (h, true)
  | f :: fs, h =>
    -- make the full path
    let h := h ++ [.store dir.length (f.1.length + 1)]
    if w.cbreak h then (h, false)
    else deleteLoop w arg dir fs (h ++ [.unlink arg (dir ++ f.1) (f.2 && w.unlinks h (dir ++ f.1))])

/-- `fullname` is put together. -/
def fill (n : Names) (path : Str) (h : List Event) : List Event :=
  let h := h ++ [.store 0 (path.length + 1)]
  let h := if addBackslash n path = path then h else h ++ [.store path.length 1]
  let path := addBackslash n path
  if addAll path = path then h else h ++ [.store path.length 4]

/-- The prompt, with the backslash behind the directory away meanwhile. -/
def prompt (w : World) (arg : ℕ) (dir : Str) (h : List Event) : List Event × Bool :=
  let h := h ++ [.store (dir.length - 1) 1]
  let r := w.answer h
  let h := h ++ [.prompt arg dir.dropLast r]
  (h ++ [.store (dir.length - 1) 1], r == 1)

/-- An argument; whether it goes on with the next. -/
def deleteArg (n : Names) (w : World) (arg : ℕ) (s : Str) (h : List Event) : List Event × Bool :=
  match n.abspath s with
  | none => (h, false)
  | some path =>
    if maxPath ≤ path.length then (h, false)
    else
      let h := fill n path h
      let fullname := complete n path
      let r := if asks (lastName fullname) then prompt w arg (dirOf fullname) h else (h, true)
      if !r.2 then (r.1, false)
      else deleteLoop w arg (dirOf fullname) (find n w r.1 fullname) r.1

/-- The arguments; an empty one that is not the first ends it. -/
def deleteArgs (n : Names) (w : World) : ℕ → List Str → List Event → List Event
  | _, [], h => h
  | arg, s :: args, h =>
    let r := deleteArg n w arg s h
    if !r.2 || args.head? == some [] then r.1 else deleteArgs n w (arg + 1) args r.1

/-- `cmd_del` -/
def cmdDel (n : Names) (w : World) (args : List Str) : List Event := deleteArgs n w 0 args []

end Del
end Shell
end BurdahDos
