import BurdahDos.Lib.Int16
import Mathlib

/-!
# Dates and times that are typed in

`portal/lib/parsenum.c`, `pr_date.c` and `pr_time.c`, with `FEATURE_NLS`.  A string is a list of
bytes without the final NUL, and an `int` has 16 bits.  The functions of `ctype.h` know the
characters of ASCII only.
-/

set_option autoImplicit false

namespace BurdahDos
namespace Dates

abbrev Str := List UInt8

/-! ## Characters -/

/-- `isdigit` -/
def isdigit (c : UInt8) : Bool := 48 ≤ c.toNat && c.toNat ≤ 57

/-- `isspace` -/
def isspace (c : UInt8) : Bool := c.toNat == 32 || (9 ≤ c.toNat && c.toNat ≤ 13)

/-- `isascii(c) && ispunct(c)` -/
def ispunct (c : UInt8) : Bool :=
  (33 ≤ c.toNat && c.toNat ≤ 47) || (58 ≤ c.toNat && c.toNat ≤ 64) ||
    (91 ≤ c.toNat && c.toNat ≤ 96) || (123 ≤ c.toNat && c.toNat ≤ 126)

/-- `toupper` -/
def toupper (c : UInt8) : UInt8 := if 97 ≤ c.toNat ∧ c.toNat ≤ 122 then c - 32 else c

/-- `ltrimsp` -/
def ltrimsp (s : Str) : Str := s.dropWhile isspace

/-! ## Numbers -/

/-- The inner loop of `parsenum`, behind the digits that gave `n`; `none` if the bound is
exceeded. -/
def scanNumber : ℤ → Str → Option (ℤ × Str)
  | n, [] => some (n, [])
  | n, c :: s =>
    if isdigit c then
      if 10000 ≤ n then none else scanNumber (int16 (n * 10 + (c.toNat - 48))) s
    else some (n, c :: s)

/-- The outer loop of `parsenum`; `maxCnt` numbers are still allowed. -/
def numLoop : ℕ → Str → Option (List ℤ × Str)
  | 0, s => some ([], s)
  | maxCnt + 1, s =>
    if (s.head?.map isdigit).getD false then
      match scanNumber 0 s with
      | none => none
      | some (n, []) => some ([n], [])
      | some (n, c :: s) =>
        if ispunct c ∧ maxCnt ≠ 0 then (numLoop maxCnt s).map fun r => (n :: r.1, r.2)
        else some ([n], c :: s)
    else some ([], s)

/-- `parsenum`: the numbers and what is behind them. -/
def parsenum (s : Str) (maxCnt : ℕ) : Option (List ℤ × Str) :=
  (numLoop maxCnt (ltrimsp s)).map fun r => (r.1, ltrimsp r.2)

/-- What is returned. -/
inductive Code where
  | none
  | useage
  | empty
  | syntaxError
  | range
deriving DecidableEq

/-! ## Dates -/

/-- `dosdate_t` -/
structure DosDate where
  day : UInt8
  month : UInt8
  year : UInt16
  dayofweek : UInt8
deriving DecidableEq

/-- `nlsBuf->datefmt` -/
inductive DateFmt where
  | mdy
  | dmy
  | ymd
deriving DecidableEq

/-- A number is stored in a byte. -/
def byteOf (n : ℤ) : UInt8 := UInt8.ofNat (n % 256).toNat

/-- A number is stored in an `unsigned`. -/
def wordOf (n : ℤ) : UInt16 := UInt16.ofNat (n % 65536).toNat

/-- The numbers are stored where the country has them; `none` if there are none. -/
def DateFmt.store (fmt : DateFmt) (d : DosDate) : List ℤ → Option DosDate
  | [n0] => some { d with day := byteOf n0 }
  | [n0, n1] =>
    match fmt with
    | .mdy => some { d with day := byteOf n1, month := byteOf n0 }
    | .dmy => some { d with month := byteOf n1, day := byteOf n0 }
    | .ymd => some { d with month := byteOf n0, day := byteOf n1 }
  | [n0, n1, n2] =>
    match fmt with
    | .mdy => some { d with year := wordOf n2, day := byteOf n1, month := byteOf n0 }
    | .dmy => some { d with year := wordOf n2, month := byteOf n1, day := byteOf n0 }
    | .ymd => some { d with year := wordOf n0, month := byteOf n1, day := byteOf n2 }
  | _ => none

/-- A short year is completed. -/
def completeYear (year : UInt16) : UInt16 :=
  if year < 80 then year + 2000 else if year < 200 then year + 1900 else year

/-- `months[leap]` -/
def months (leap : Bool) : List ℕ :=
  [0, 31, if leap then 29 else 28, 31, 30, 31, 30, 31, 31, 30, 31, 30, 31]

/-- `leap` -/
def leapYear (year : UInt16) : Bool :=
  (year % 4 == 0 && year % 100 != 0) || year % 400 == 0

/-- The check of `parsedate`. -/
def DosDate.inRange (d : DosDate) : Bool :=
  (1 ≤ d.month && d.month ≤ 12) &&
    (1 ≤ d.day && d.day.toNat ≤ (months (leapYear d.year)).getD d.month.toNat 0) &&
    (1980 ≤ d.year && d.year ≤ 2099)

/-- The end of `parsedate`. -/
def DosDate.check (d : DosDate) : Code × Option DosDate :=
  if d.inRange then (.none, some d) else (.range, none)

/-- `parsedate`, with the date that it stores; `today` is what `_dos_getdate` gives. -/
def parsedate (fmt : DateFmt) (today : DosDate) (s : Str) : Code × Option DosDate :=
  match parsenum s 3 with
  | none => (.empty, none)
  | some (nums, rest) =>
    if rest ≠ [] then (.empty, none)
    else
      match fmt.store today nums with
      | none => (.empty, none)
      | some d => { d with year := completeYear d.year }.check

/-! ## Times -/

/-- `dostime_t` -/
structure DosTime where
  hour : UInt8
  minute : UInt8
  second : UInt8
  hsecond : UInt8
deriving DecidableEq

/-- The `switch` on the letter behind the numbers: `pm`, and what is behind the letters. -/
def meridian (s : Str) : ℕ × Str :=
  let c := toupper (s.headD 0)
  if c = 80 ∨ c = 65 then
    let pm := if c = 80 then 2 else 1
    if toupper ((s.drop 1).headD 0) = 77 then (pm, s.drop 2)
    else if ((s.drop 1).take 3).map toupper = [46, 77, 46] then (pm, s.drop 4)
    else (pm, s)
  else (0, s)

/-- The hour of 12 hours is converted. -/
def convertHour (pm : ℕ) (hour : UInt8) : UInt8 :=
  if pm = 2 then if hour ≠ 12 then hour + 12 else hour
  else if pm = 1 then if hour = 12 then 0 else hour
  else hour

/-- The check of `parsetime`. -/
def DosTime.inRange (t : DosTime) : Bool :=
  t.hour < 24 && t.minute < 60 && t.second < 60 && t.hsecond ≤ 99

/-- The fields of `t`; what is missing among the numbers is zero. -/
def storeTime (pm : ℕ) (nums : List ℤ) : DosTime :=
  ⟨convertHour pm (byteOf (nums.getD 0 0)), byteOf (nums.getD 1 0), byteOf (nums.getD 2 0),
    byteOf (nums.getD 3 0)⟩

/-- The end of `parsetime`. -/
def DosTime.check (t : DosTime) : Code × Option DosTime :=
  if t.inRange then (.none, some t) else (.range, none)

/-- `parsetime`, with the time that it stores. -/
def parsetime (s : Str) : Code × Option DosTime :=
  match parsenum s 4 with
  | none => (.syntaxError, none)
  | some (nums, s) =>
    let r := meridian s
    if ltrimsp r.2 ≠ [] then (.syntaxError, none)
    else if nums.length = 0 then (.empty, none)
    else if nums.length = 1 then (.useage, none)
    else (storeTime r.1 nums).check

end Dates
end BurdahDos
