import Mathlib

/-!
# Batch contexts of the command shell

`portal/shell/batch.c` with the commands of `portal/cmd` that work on its contexts: CALL, FOR and
GOTO. The chain from `bc` along `prev` is a list of blocks; a block that is freed stays known as
freed, and `none` is an access through a null pointer or to a freed block.

What the shell meets (memory running out, user breaks, files found) comes as lists of answers, the
first one for the first question; once a list is used up, all goes well.  Messages are left out.
-/

set_option autoImplicit false

namespace BurdahDos
namespace Shell

/-! ## State -/

/-- The bytes of a string, less the final NUL. -/
abbrev Str := List UInt8

/-- `struct bcontext`, less `prev`; a null pointer is `none`. -/
structure Context where
  /-- The position in the open file. -/
  bfile : Option ℕ
  bfnam : Option Str
  bfirst : Option Str
  forproto : Option Str
  forvar : Option Str
  params : Option (List Str)
  blabel : Option Str
  /-- Whether a search for the names of a wildcard is on. -/
  ffind : Bool
  bpos : ℕ
  blinecnt : ℕ
  shiftlevel : ℤ
  echo : ℕ
  bclose : Bool
  brewind : Bool
  forFlags : ℕ
deriving DecidableEq

/-- A context in memory. -/
structure Block where
  id : ℕ
  ctx : Context
deriving DecidableEq

/-- The shell. -/
structure State where
  /-- `bc` and the contexts behind it. -/
  bc : List Block
  /-- The next block that `malloc` gives. -/
  next : ℕ
  freed : List ℕ
  echo : ℕ
  /-- The static `size` of `getbline`. -/
  size : ℕ
deriving DecidableEq

/-- What the shell meets. -/
structure World where
  /-- Whether memory can be had. -/
  allocs : List Bool
  /-- What `chkCBreak` returns. -/
  breaks : List Bool
  /-- Whether a batch file can be opened.  One that cannot be is taken as noticed, although the code
  tests for 0 and `dos_open` returns -1. -/
  opens : List Bool
  /-- The files that are found. -/
  finds : List (Option Str)
  files : Str → List UInt8

/-- The next answer, or `dflt` once there are none. -/
def ask {α : Type} (dflt : α) : List α → α × List α
  | [] => (dflt, [])
  | a :: as => (a, as)

def World.alloc (w : World) : Bool × World :=
  let r := ask true w.allocs
  (r.1, { w with allocs := r.2 })

/-- `chkCBreak` -/
def World.chkCBreak (w : World) : Bool × World :=
  let r := ask false w.breaks
  (r.1, { w with breaks := r.2 })

def World.open (w : World) : Bool × World :=
  let r := ask true w.opens
  (r.1, { w with opens := r.2 })

def World.find (w : World) : Option Str × World :=
  let r := ask none w.finds
  (r.1, { w with finds := r.2 })

/-! ## Contexts -/

/-- `initBatchContext` -/
def initContext : Context where
  bfile := none
  bfnam := none
  bfirst := none
  forproto := none
  forvar := none
  params := none
  blabel := none
  ffind := false
  bpos := 0
  blinecnt := 0
  shiftlevel := 0
  echo := 0
  bclose := false
  brewind := true
  forFlags := 0

/-- `numParams` -/
def Context.numParams (c : Context) : ℕ := (c.params.getD []).length

/-- `find_arg_bc` -/
def findArg (c : Context) (n : ℤ) : Option Str :=
  let n := n + c.shiftlevel
  if n = 0 then c.bfirst
  else if (c.numParams : ℤ) < n ∨ n < 0 then some []
  else (c.params.getD [])[(n - 1).toNat]?

/-- The block at `bc`, and the chain behind it. -/
def State.top (s : State) : Option (Block × List Block) :=
  match s.bc with
  | [] => none
  | b :: rest => if b.id ∈ s.freed then none else some (b, rest)

/-- `exit_batch` -/
def exitBatch (s : State) : Option State :=
  if s.bc = [] then some s
  else s.top.map fun (b, rest) =>
    { s with bc := rest, freed := b.id :: s.freed, echo := b.ctx.echo }

/-- `while(bc && bc->forvar) exit_batch();` -/
def exitFors : List Block → State → Option State
  | [], s => some s
  | b :: rest, s =>
    if b.id ∈ s.freed then none
    else if b.ctx.forvar = none then some s
    else (exitBatch s).bind (exitFors rest)

/-- `newBatchContext` -/
def newBatchContext (s : State) (w : World) : Option State × World :=
  let r := w.alloc
  (if r.1 then
    some { s with bc := ⟨s.next, { initContext with echo := s.echo }⟩ :: s.bc, next := s.next + 1 }
  else none, r.2)

/-- The context at `bc` is changed. -/
def State.modify (s : State) (f : Context → Context) : Option State :=
  s.top.map fun (b, rest) => { s with bc := { b with ctx := f b.ctx } :: rest }

/-! ## Commands -/

/-- What `checkFOR` and `expandEnvVars` make of a FOR command. -/
structure ForCommand where
  proto : Str
  varname : Str
  params : List Str
  flags : ℕ

/-- A command, as far as it has to do with contexts. -/
inductive Command where
  /-- CALL, with options that are valid or not. -/
  | call (valid : Bool) (cmd : Command)
  /-- FOR; `none` is for a syntax error or a line that is too long. -/
  | for (cmd : Option ForCommand)
  /-- GOTO, with the first word behind it. -/
  | goto (label : Str)
  /-- A batch file, and its name from `abspath`. -/
  | batch (fullname : Option Str) (firstword : Str) (params : List Str)
  /-- Any other command. -/
  | other

/-- `doFOR` -/
def doFor (f : ForCommand) (s : State) (w : World) : Option (State × World) :=
  match newBatchContext s w with
  | (none, w) => some (s, w)
  | (some s, w) =>
    let (proto, w) := w.alloc
    if !proto then (exitBatch s).map (·, w)
    else
      let (varname, w) := w.alloc
      if !varname then (exitBatch s).map (·, w)
      else
        let (params, w) := w.alloc
        if !params then (exitBatch s).map (·, w)
        else
          (s.modify fun c => { c with
            forproto := some f.proto, forvar := some f.varname, params := some f.params
            shiftlevel := 1, forFlags := f.flags }).map (·, w)

/-- `cmd_goto` -/
def cmdGoto (label : Str) (s : State) (w : World) : Option (State × World) :=
  match exitFors s.bc s with
  | none => none
  | some s =>
    if s.bc = [] then some (s, w)
    else if label = [] then (exitBatch s).map (·, w)
    else
      let (dup, w) := w.alloc
      if !dup then some (s, w)
      else (s.modify fun c => { c with brewind := true, blabel := some label }).map (·, w)

/-- The rest of `batch`, once the new context is at `bc`. -/
def startBatch (fullname firstword : Str) (params : List Str) (s : State) (w : World) :
    Option (State × World) :=
  let (first, w) := w.alloc
  if !first then (exitBatch s).map (·, w)
  else
    let (split, w) := w.alloc
    if !split then (exitBatch s).map (·, w)
    else
      (s.modify fun c => { c with
        bfnam := some fullname, bfirst := some firstword, params := some params }).map (·, w)

/-- `batch` -/
def batch (fullname : Option Str) (firstword : Str) (params : List Str) (s : State) (w : World) :
    Option (State × World) :=
  match fullname with
  | none => some (s, w)
  | some fullname =>
    match exitFors s.bc s with
    | none => none
    | some s =>
      if s.bc = [] then
        match newBatchContext s w with
        | (none, w) => some (s, w)
        | (some s, w) => startBatch fullname firstword params s w
      else
        (s.modify fun c => { initContext with echo := c.echo }).bind fun s =>
          startBatch fullname firstword params s w

/-- The end of `cmd_call`, where `n` is the context it has made. -/
def removeCall (n : ℕ) (s : State) : Option State :=
  s.top.bind fun (b, rest) =>
    if b.ctx.bfile = none ∧ b.ctx.bfnam = none then
      -- `bc = bc->prev; free(n);`
      if n ∈ s.freed then none else some { s with bc := rest, freed := n :: s.freed }
    else some s

/-- `cmd_call`, where `parsecommandline` runs the rest of the line. -/
def cmdCall (valid : Bool) (parsecommandline : State → World → Option (State × World)) (s : State)
    (w : World) : Option (State × World) :=
  match newBatchContext s w with
  | (none, w) => some (s, w)
  | (some s', w) =>
    if !valid then some (s', w)
    else (parsecommandline s' w).bind fun r => (removeCall s.next r.1).map (·, r.2)

/-- `docommand`: nothing is done if there is no memory for the first word. -/
def docommand (func : State → World → Option (State × World)) (s : State) (w : World) :
    Option (State × World) :=
  let (buf, w) := w.alloc
  if !buf then some (s, w) else func s w

/-- `parsecommandline`, without redirection. -/
def run : Command → State → World → Option (State × World)
  | .call valid cmd => docommand (cmdCall valid (run cmd))
  | .for none => docommand fun s w => some (s, w)
  | .for (some f) => docommand (doFor f)
  | .goto label => docommand (cmdGoto label)
  | .batch fullname firstword params => docommand (batch fullname firstword params)
  | .other => docommand fun s w => some (s, w)

end Shell
end BurdahDos
