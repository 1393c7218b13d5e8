import BurdahDos.Lib.Int16
import Mathlib

/-!
# Formatted output

`portal/lib/prf.c` without `TEST`, for output to a buffer.  A format is a list of bytes without the
final NUL, and the arguments are a list of what `va_arg` takes; `none` means that it took something
of another type.  An `int` has 16 bits and a `long` has 32.

The loop over width and precision takes arguments as it goes; here a directive is read first, and
its arguments are taken in the same order behind that.  `outside` records a store behind the end of
the buffer `s`.
-/

set_option autoImplicit false

namespace BurdahDos
namespace Print

abbrev Str := List UInt8

/-- An argument, as it has been passed. -/
inductive Arg where
  | int (v : UInt16)
  | long (v : UInt32)
  | str (s : Str)
  | far (s : Str)
deriving DecidableEq

/-! ## Numbers as text -/

/-- `"0123456789ABCDEF"[d]` -/
def digitChar (d : ℕ) : UInt8 := UInt8.ofNat (if d < 10 then 48 + d else 55 + d)

/-- The first loop of `ltob`: the digits in reverse order. -/
def digitLoop (base : ℕ) : ℕ → ℕ → Str
  | 0, _ => []
  | fuel + 1, u =>
    digitChar (u % base) :: if u / base = 0 then [] else digitLoop base fuel (u / base)

/-- The digits; an `unsigned long` has 32 of them at most. -/
def digitsOf (base : ℕ) (u : UInt32) : Str := (digitLoop base 32 u.toNat).reverse

/-- `ltob`; the base `-10` is for signed numbers. -/
def ltob (n : UInt32) (base : ℤ) : Str :=
  if base = -10 then
    if 2 ^ 31 ≤ n.toNat then 45 :: digitsOf 10 (-n) else digitsOf 10 n
  else digitsOf base.toNat n

/-- The size of `s`. -/
def bufferSize : ℕ := 11

/-- A text and its NUL do not fit into `s`. -/
def overruns (text : Str) : Bool := bufferSize < text.length + 1

/-! ## Output -/

/-- `handle_char`, for the character that is stored last and whether `c == '\\n'`. -/
def handleChar (newline : Bool) (c : UInt8) : Str := if newline then [13, c] else [c]

/-- `handle_char` for a character of a text. -/
def put (c : UInt8) : Str := handleChar (c == 10) c

/-- The loop that puts out the text at `p`, up to `precision` characters. -/
def putText : ℤ → Str → Str
  | _, [] => []
  | precision, c :: p =>
    if precision = 0 then [] else put c ++ putText (int16 (precision - 1)) p

/-- What follows `do_outputstring`. -/
def outputString (left : Bool) (fill : UInt8) (size precision : ℤ) (p : Str) : Str :=
  let size := int16 (size - p.length)
  let pad := List.replicate size.toNat fill
  if left then putText precision p ++ pad else pad ++ putText precision p

/-! ## Directives -/

/-- The digits of a width or a precision. -/
def number : ℤ → Str → ℤ × Str
  | n, [] => (n, [])
  | n, c :: fmt =>
    if 48 ≤ c.toNat ∧ c.toNat ≤ 57 then number (int16 (n * 10 + (c.toNat - 48))) fmt
    else (n, c :: fmt)

/-- A width or a precision; a star is `none`. -/
def field (fmt : Str) : Option ℤ × Str :=
  if fmt.head? = some 42 then (none, fmt.drop 1)
  else
    let r := number 0 fmt
    (some r.1, r.2)

/-- What is behind dots. -/
def moreFields : ℕ → Str → List (Option ℤ) × Str
  | 0, fmt => ([], fmt)
  | fuel + 1, fmt =>
    if fmt.head? = some 46 then
      let f := field (fmt.drop 1)
      let r := moreFields fuel f.2
      (f.1 :: r.1, r.2)
    else ([], fmt)

/-- What is between a percent sign and the end of a conversion. -/
structure Directive where
  zero : Bool
  minus : Bool
  size : Option ℤ
  precisions : List (Option ℤ)
  longarg : Bool
  /-- The conversion; 0 at the end of the format. -/
  conv : UInt8

/-- The directive behind a percent sign, and what is behind the directive. -/
def directive (fmt : Str) : Directive × Str :=
  let zero := fmt.head? == some 48
  let fmt := if zero then fmt.drop 1 else fmt
  let minus := fmt.head? == some 45
  let fmt := if minus then fmt.drop 1 else fmt
  let size := field fmt
  let precisions := moreFields size.2.length size.2
  let longarg := precisions.2.head? == some 108
  let fmt := if longarg then precisions.2.drop 1 else precisions.2
  (⟨zero, minus, size.1, precisions.1, longarg, fmt.headD 0⟩, fmt.drop 1)

/-! ## Conversions -/

/-- The value of a width or a precision. -/
def fieldValue : Option ℤ → List Arg → Option (ℤ × List Arg)
  | some n, args => some (n, args)
  | none, .int v :: args => some (int16 v.toNat, args)
  | none, _ => none

/-- The last precision counts. -/
def precisionValue : ℤ → List (Option ℤ) → List Arg → Option (ℤ × List Arg)
  | precision, [], args => some (precision, args)
  | _, f :: fs, args =>
    match fieldValue f args with
    | none => none
    | some (n, args) => precisionValue n fs args

/-- The base of a conversion of numbers. -/
def baseOf (conv : UInt8) : Option ℤ :=
  if conv = 105 ∨ conv = 100 then some (-10)
  else if conv = 111 then some 8
  else if conv = 117 then some 10
  else if conv = 88 ∨ conv = 120 then some 16
  else none

/-- `currentArg` -/
def currentArg (longarg : Bool) (base : ℤ) : List Arg → Option (UInt32 × List Arg)
  | .long v :: args => if longarg then some (v, args) else none
  | .int v :: args =>
    if longarg then none
    else some (if base < 0 then UInt32.ofInt (int16 v.toNat) else UInt32.ofNat v.toNat, args)
  | _ => none

/-- Four hexadecimal digits, as `%04x` makes them. -/
def hex4 (v : UInt16) : Str :=
  [digitChar (v.toNat / 4096 % 16), digitChar (v.toNat / 256 % 16), digitChar (v.toNat / 16 % 16),
    digitChar (v.toNat % 16)]

/-- What a conversion makes of its arguments. -/
structure Converted where
  text : Str
  outside : Bool
  args : List Arg

/-- The text at `p` is put out, with what is known of the directive. -/
def Directive.output (d : Directive) (size precision : ℤ) (p : Str) : Str :=
  let left := d.minus || decide (size < 0)
  outputString left (if d.zero then 48 else 32) (if size < 0 then int16 (-size) else size)
    precision p

/-- The `switch` of `do_printf`, but for the end of the format. -/
def convert (d : Directive) (size precision : ℤ) (args : List Arg) : Option Converted :=
  match baseOf d.conv with
  | some base =>
    (currentArg d.longarg base args).map fun r =>
      let s := ltob r.1 base
      ⟨d.output size precision s, overruns s, r.2⟩
  | none =>
    if d.conv = 99 then
      match args with
      | .int v :: args => some ⟨handleChar (v == 10) (UInt8.ofNat v.toNat), false, args⟩
      | _ => none
    else if d.conv = 112 then
      match args with
      | .int w0 :: .int w1 :: args =>
        let s := hex4 w1 ++ 58 :: hex4 w0
        some ⟨d.output size precision s, overruns s, args⟩
      | _ => none
    else if d.conv = 115 then
      match args with
      | .str p :: args => some ⟨d.output size precision p, false, args⟩
      | _ => none
    else if d.conv = 70 ∨ d.conv = 83 then
      match args with
      | .far p :: args => some ⟨d.output size precision p, false, args⟩
      | _ => none
    else if d.conv = 37 then some ⟨put 37, false, args⟩
    else some ⟨put 63 ++ put d.conv, false, args⟩

/-- A directive takes its arguments; at the end of the format nothing is made of them. -/
def Directive.run (d : Directive) (args : List Arg) : Option Converted :=
  match fieldValue d.size args with
  | none => none
  | some (size, args) =>
    match precisionValue (-1) d.precisions args with
    | none => none
    | some (precision, args) =>
      if d.conv = 0 then some ⟨[], false, args⟩ else convert d size precision args

/-- The loop of `do_printf`: what is put out, and whether there is a store outside `s`. -/
def printLoop : ℕ → Str → List Arg → Option (Str × Bool)
  | 0, _, _ => some ([], false)
  | _ + 1, [], _ => some ([], false)
  | fuel + 1, c :: fmt, args =>
    if c ≠ 37 then (printLoop fuel fmt args).map fun r => (put c ++ r.1, r.2)
    else
      let d := directive fmt
      match d.1.run args with
      | none => none
      | some r =>
        if d.1.conv = 0 then some ([], false)
        else
          -- `%Fs`: the character behind `F` is skipped
          let rest := if d.1.conv = 70 then d.2.drop 1 else d.2
          (printLoop fuel rest r.args).map fun q => (r.text ++ q.1, r.outside || q.2)

/-- `do_printf`, to a buffer. -/
def doPrintf (fmt : Str) (args : List Arg) : Option (Str × Bool) :=
  printLoop (fmt.length + 1) fmt args

/-- What `sprintf` leaves. -/
structure Printed where
  /-- What is stored in the buffer. -/
  buff : Str
  /-- The number returned. -/
  ret : ℤ
  /-- There was a store outside `s`. -/
  outside : Bool

/-- `sprintf` -/
def sprintf (fmt : Str) (args : List Arg) : Option Printed :=
  (doPrintf fmt args).map fun r => ⟨r.1 ++ put 0, int16 ((r.1 ++ put 0).length - 1), r.2⟩

end Print
end BurdahDos
