import BurdahDos.Sys.Copy
import Mathlib

/-!
# Settings of a kernel file

`FDKrnConfigMain` of `sys/fdkrncfg.c`.  `KernelConfig` is packed, and is taken as its 23 bytes, from
offset 2 of the kernel file on; the fields are offsets in it.  What is printed is left out, and with
it the limits that only lead to a warning.  A write into the file that is already there does not
fail.
-/

set_option autoImplicit false

namespace BurdahDos
namespace Sys

/-! ## Numbers -/

/-- `isspace` -/
def isspace (c : UInt8) : Bool := c == 32 || (9 ≤ c && c ≤ 13)

/-- What a character is worth as a digit, 36 if it is none. -/
def radixValue (c : UInt8) : ℕ :=
  if 48 ≤ c ∧ c ≤ 57 then c.toNat - 48
  else if 65 ≤ c ∧ c ≤ 90 then c.toNat - 55
  else if 97 ≤ c ∧ c ≤ 122 then c.toNat - 87
  else 36

/-- The number that the digits in front make up. -/
def magnitude (base : ℕ) (s : Str) : ℕ :=
  (s.takeWhile fun c => radixValue c < base).foldl (fun v c => v * base + radixValue c) 0

/-- A number without its sign, in the base that it shows: hexadecimal behind `0x`, octal behind
`0`. -/
def unsignedNumber : Str → ℕ
  | 48 :: c :: s => if c = 120 ∨ c = 88 then magnitude 16 s else magnitude 8 (c :: s)
  | s => magnitude 10 s

/-- The sign of a number and what is behind it. -/
def signOf : Str → Bool × Str
  | 45 :: s => (true, s)
  | 43 :: s => (false, s)
  | s => (false, s)

/-- The number that a text stands for. -/
def given (value : Str) : ℤ :=
  let (negative, s) := signOf (value.dropWhile isspace)
  if negative then -(unsignedNumber s : ℤ) else unsignedNumber s

/-- `strtoul(value, NULL, 0)` -/
def strtoul (value : Str) : ℤ :=
  if 2 ^ 32 ≤ (given value).natAbs then 2 ^ 32 - 1 else given value % 2 ^ 32

/-- `strtol(value, NULL, 0)` -/
def strtol (value : Str) : ℤ :=
  if 2 ^ 31 ≤ given value then 2 ^ 31 - 1
  else if given value < -2 ^ 31 then -2 ^ 31
  else given value

/-- `(byte) optionValue`, and the same for an `sbyte`. -/
def byteOf (v : ℤ) : UInt8 := UInt8.ofNat (v % 256).toNat

/-! ## The structure -/

/-- `sizeof(KernelConfig)` -/
def sizeofKernelConfig : ℕ := 23

/-- "CONFIG" -/
def configMark : Str := [67, 79, 78, 70, 73, 71]

/-- `cfg->ConfigSize` -/
def configSize (cfg : Str) : ℕ := (cfg.getD 6 0).toNat + 256 * (cfg.getD 7 0).toNat

/-- A `ConfigSize` that was wrong in a kernel and is set right. -/
def wrongSize (size : ℕ) : Bool := size == 19 || size == 14

/-- What `readConfigSettings` leaves in `cfg`, `none` if it exits. -/
def readConfigSettings (kfile : Str) : Option Str :=
  let cfg := (kfile.drop 2).take sizeofKernelConfig
  if cfg.length ≠ sizeofKernelConfig then none
  else if cfg.take 6 ≠ configMark then none
  else some (if wrongSize (configSize cfg) then (cfg.set 6 6).set 7 0 else cfg)

/-- `writeConfigSettings` -/
def writeConfigSettings (kfile cfg : Str) : Str :=
  kfile.take 2 ++ cfg ++ kfile.drop (2 + sizeofKernelConfig)

/-! ## The options -/

/-- The fields that there is an option for. -/
inductive Setting where
  | dlaSortByDriveNo
  | initDiskShowDriveAssignment
  | skipConfigSeconds
  | forceLBA
  | globalEnableLBAsupport
  | bootHarddiskSeconds
  | checkDebugger
  | verbose
  deriving DecidableEq

/-- The letters of the name that are compared, in lower case: 5 for "CheckDebugger" and else 3. -/
def Setting.letters : Setting → Str
  | dlaSortByDriveNo => [100, 108, 97]
  | initDiskShowDriveAssignment => [115, 104, 111]
  | skipConfigSeconds => [115, 107, 105]
  | forceLBA => [102, 111, 114]
  | globalEnableLBAsupport => [103, 108, 111]
  | bootHarddiskSeconds => [98, 111, 111]
  | checkDebugger => [99, 104, 101, 99, 107]
  | verbose => [118, 101, 114]

/-- Where the field is in the structure. -/
def Setting.field : Setting → ℕ
  | dlaSortByDriveNo => 8
  | initDiskShowDriveAssignment => 9
  | skipConfigSeconds => 10
  | forceLBA => 11
  | globalEnableLBAsupport => 12
  | bootHarddiskSeconds => 13
  | checkDebugger => 20
  | verbose => 21

/-- The field is a `signed char`. -/
def Setting.signed : Setting → Bool
  | skipConfigSeconds | bootHarddiskSeconds | verbose => true
  | _ => false

/-- The settings in the order in which their names are tried. -/
def Setting.all : List Setting :=
  [dlaSortByDriveNo, initDiskShowDriveAssignment, skipConfigSeconds, forceLBA,
    globalEnableLBAsupport, bootHarddiskSeconds, checkDebugger, verbose]

/-- `tolower` -/
def tolower (c : UInt8) : UInt8 := if 65 ≤ c ∧ c ≤ 90 then c + 32 else c

/-- `memicmp` finds the name in front of the zero that is put over `=`. -/
def Setting.matches (o : Setting) (name : Str) : Bool :=
  (name.take o.letters.length).map tolower == o.letters

/-- `cfg`, and whether anything in it was changed. -/
structure Config where
  cfg : Str
  updates : Bool

def Config.store (c : Config) (field : ℕ) (v : UInt8) : Config :=
  if v = c.cfg.getD field 0 then c else ⟨c.cfg.set field v, true⟩

/-- `setByteOption` -/
def setByteOption (field : ℕ) (value : Str) (c : Config) : Config :=
  c.store field (byteOf (strtoul value))

/-- `setSByteOption` -/
def setSByteOption (field : ℕ) (value : Str) (c : Config) : Config :=
  c.store field (byteOf (strtol value))

def Setting.set (o : Setting) (value : Str) (c : Config) : Config :=
  if o.signed then setSByteOption o.field value c else setByteOption o.field value c

/-- The setting that an argument names and the text that it gives for it. -/
def named (arg : Str) : Option (Setting × Str) :=
  match arg.dropWhile (· ≠ 61) with
  | [] => none
  | _ :: value => (Setting.all.find? (·.matches (arg.takeWhile (· ≠ 61)))).map (·, value)

/-- One turn of the loop over the options, `none` for an option that it exits with. -/
def option (c : Config) (arg : Str) : Option Config :=
  match named arg with
  | none => none
  | some (o, value) => some (o.set value c)

/-! ## The whole program -/

structure KernelFile where
  /-- The file can only be opened with `O_RDONLY`. -/
  readonly : Bool
  bytes : Str

/-- "BURDAH.SYS" -/
def kernelName : Str := [66, 85, 82, 68, 65, 72, 46, 83, 89, 83]

/-- The name of the kernel file and the options. -/
def kernelAndOptions : List Str → Str × List Str
  | [] => (kernelName, [])
  | arg :: args => if 61 ∈ arg then (kernelName, arg :: args) else (arg, args)

/-- The argument starts in `-` or `/`. -/
def isSwitch (arg : Str) : Bool := arg.head? == some 45 || arg.head? == some 47

/-- `FDKrnConfigMain` with the arguments behind `CONFIG`: what is in the kernel file in the end.
`kernel` is that file. -/
def fdKrnConfigMain (args : List Str) (kernel : KernelFile) : Str :=
  if args.any isSwitch then kernel.bytes
  else
    match readConfigSettings kernel.bytes with
    | none => kernel.bytes
    | some cfg =>
      match (kernelAndOptions args).2.foldlM option ⟨cfg, false⟩ with
      | none => kernel.bytes
      | some c =>
        if c.updates && !kernel.readonly then writeConfigSettings kernel.bytes c.cfg
        else kernel.bytes

end Sys
end BurdahDos
