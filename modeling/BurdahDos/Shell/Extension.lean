import BurdahDos.Lib.CString
import BurdahDos.Shell.Read
import Mathlib

/-!
# Installable commands

`runExtension` of `portal/lib/mux_ae.c`, and the part of `docommand` of `portal/shell/command.c`
that calls it.  Both texts are in one block of 515 bytes, and a store outside of it has no outcome;
a `char` is signed.  What the handler does is its answer and the memory that it leaves.
-/

set_option autoImplicit false

namespace BurdahDos
namespace Shell
namespace MuxAe

open CString

/-! ## The buffers -/

/-- `BUFFER_SIZE_MUX_AE` -/
def bufferSize : ℕ := 255
/-- The size of `buf`. -/
def blockSize : ℕ := 2 + 2 * bufferSize + 2 + 1
/-- `args` -/
def argsAt : ℕ := 2
/-- `com` -/
def comAt : ℕ := 2 + bufferSize + 3
/-- `MUX_AE_MAX_REPEAT_CALL` -/
def maxRepeatCall : ℕ := 32

/-- `isspace` -/
def isspace (c : UInt8) : Bool := c == 32 || (9 ≤ c && c ≤ 13)

/-- The length byte in front of a text. -/
def lengthByte (b : Bytes) (i : ℕ) : ℕ := (b.getD (i - 1) 0).toNat

/-- A text with its length byte. -/
def counted (b : Bytes) (i : ℕ) : Str := (b.drop i).take (lengthByte b i)

/-- The texts are prepared for the handler. -/
def prepare (b : Bytes) : Option Bytes :=
  (str b comAt).bind fun command =>
  (str b argsAt).bind fun line =>
  (store b (comAt - 1) (UInt8.ofNat command.length)).bind fun b =>
  (store b (argsAt - 1) (UInt8.ofNat line.length)).bind fun b =>
  (store b (comAt - 2) (UInt8.ofNat bufferSize)).bind fun b =>
  (store b (argsAt - 2) (UInt8.ofNat bufferSize)).bind fun b =>
  (write b (comAt + command.length) (List.replicate (bufferSize - command.length) 32)).bind fun b =>
  (strcat b (argsAt + line.length) [13]).bind fun b =>
  store b (argsAt + bufferSize) 0

/-- Where the NUL behind the command is stored: the length byte is a signed `char`. -/
def commandEnd (b : Bytes) : ℕ :=
  if lengthByte b comAt < 128 then comAt + ((counted b comAt).rdropWhile isspace).length
  else comAt + lengthByte b comAt - 256

/-- The line is cut at a CR. -/
def cutLine (b : Bytes) : Option Bytes :=
  (str b argsAt).bind fun line =>
  if 13 ∈ line then store b (argsAt + (line.takeWhile (· != 13)).length) 0 else some b

/-- The texts are made strings again. -/
def cleanup (b : Bytes) : Option Bytes :=
  (store b (commandEnd b) 0).bind fun b =>
  (store b (argsAt + (b.getD (argsAt - 2) 0).toNat) 0).bind fun b =>
  (store b (argsAt + lengthByte b argsAt) 0).bind cutLine

/-- A call of `runExtension`: the strings that it was given, the memory in front of the call of the
handler and behind it, and the one that is left. -/
structure Call where
  command : Str
  line : Str
  before : Bytes
  after : Bytes
  result : Bytes

/-- What comes of it. -/
inductive Outcome where
  /-- What `runExtension` returns. -/
  | ret (call : Call) (rc : ℕ)
  /-- `E_CorruptMemory` -/
  | corrupt
  | outside

/-- What the handler returns in AL, and the memory that it leaves. -/
abbrev Handler := Bytes → UInt8 × Bytes

/-- `runExtension` -/
def runExtension (handler : Handler) (b : Bytes) : Outcome :=
  match str b comAt, str b argsAt, prepare b with
  | some command, some line, some before =>
    let answer := handler before
    let rc := if answer.1 = 0xff then if lengthByte answer.2 comAt = 0 then 1 else 2 else 0
    if answer.2.getD (argsAt - 2) 0 ≠ UInt8.ofNat bufferSize ∨
        answer.2.getD (argsAt + bufferSize) 0 ≠ 0 then .corrupt
    else
      match cleanup answer.2 with
      | some result => .ret ⟨command, line, before, answer.2, result⟩ rc
      | none => .outside
  | _, _, _ => .outside

/-! ## `docommand` -/

/-- How the calls end. -/
inductive Ending where
  | done
  | corrupt
  | outside
deriving DecidableEq

/-- The calls of `runExtension`. -/
structure Calls where
  calls : List Call
  ending : Ending

def Calls.cons (call : Call) (r : Calls) : Calls := { r with calls := call :: r.calls }

/-- What is outside of the program: the handler for each of the calls, `is_fnchar`, `toupper`, and
which commands are internal. -/
structure Env where
  handler : ℕ → Handler
  isFnchar : UInt8 → Bool
  toupper : UInt8 → UInt8
  /-- The command is in the table, for the memory from `com` on. -/
  internal : Bytes → Bool

/-- The loop of `docommand`, with the number of turns that are left. -/
def callLoop (env : Env) : ℕ → ℕ → Bytes → Calls
  | 0, _, _ => ⟨[], .done⟩
  | tries + 1, n, b =>
    match runExtension (env.handler n) b with
    | .corrupt => ⟨[], .corrupt⟩
    | .outside => ⟨[], .outside⟩
    | .ret call rc =>
      -- 0 is no extension, and the loop ends with this turn
      if rc = 1 ∨ env.internal (call.result.drop comAt) ∨ rc = 0 then ⟨[call], .done⟩
      else (callLoop env tries (n + 1) call.result).cons call

/-- The first word of a line. -/
def Env.firstWord (env : Env) (line : Str) : Str :=
  line.takeWhile fun c => env.isFnchar c && c != 34

/-- The first word is copied to `com`, and made empty if a quote follows it. -/
def Env.copyWord (env : Env) (text : Str) (b : Bytes) : Option Bytes :=
  let word := (env.firstWord text).map env.toupper
  if text[word.length]? = some 34 then
    (write b comAt word).bind fun b => store b comAt 0
  else strcpy b comAt word

/-- `docommand`, for what `malloc` returns. -/
def docommand (env : Env) (mem : Bytes) (line : Str) : Calls :=
  let line := ltrimcl line
  if bufferSize < line.length then ⟨[], .done⟩
  else
    match strcpy mem argsAt line with
    | none => ⟨[], .outside⟩
    | some b =>
      if line = [] then ⟨[], .done⟩
      else
        match env.copyWord line b with
        | none => ⟨[], .outside⟩
        | some b => if b.getD comAt 0 = 0 then ⟨[], .done⟩ else callLoop env maxRepeatCall 0 b

end MuxAe
end Shell
end BurdahDos
