import BurdahDos.Print.Defs
import Mathlib

/-!
# Formatted output, as standard C has it

A format made of plain characters and the usual directives is a list of items.  With arguments that
match it, `pieces` gives what is to be printed: the items with the values of their arguments.
`Piece.standard` is what standard C prints for a piece, `Piece.Good` says where the code does so,
and `Correct` is what `sprintf` is to do with a whole format.

* `directive_text`: the code reads a directive as it has been written.
* `digitsOf_eq`: the loop of `ltob` gives the digits of a number.
-/

set_option autoImplicit false

namespace BurdahDos
namespace Print

/-! ## Formats -/

/-- A width or a precision in a format. -/
inductive Field where
  | absent
  | digits (ds : Str)
  | star
deriving DecidableEq

/-- A flag of a number. -/
inductive Flag where
  | none
  | zero
  | minus
deriving DecidableEq

/-- The conversions of numbers. -/
inductive Conv where
  | d | i | u | x | o
deriving DecidableEq

def Conv.code : Conv → UInt8
  | .d => 100
  | .i => 105
  | .u => 117
  | .x => 120
  | .o => 111

def Conv.base : Conv → ℕ
  | .d | .i | .u => 10
  | .x => 16
  | .o => 8

def Conv.signed : Conv → Bool
  | .d | .i => true
  | .u | .x | .o => false

/-- What a format is made of. -/
inductive Item where
  | plain (c : UInt8)
  | percent
  | char (minus : Bool) (width : Field)
  | string (minus : Bool) (width precision : Field)
  | number (flag : Flag) (width : Field) (long : Bool) (conv : Conv)
deriving DecidableEq

def Field.render : Field → Str
  | .absent => []
  | .digits ds => ds
  | .star => [42]

/-- A precision is behind a dot. -/
def Field.renderPrecision : Field → Str
  | .absent => []
  | p => 46 :: p.render

/-- A directive in a format, behind the percent sign. -/
def directiveText (zero minus : Bool) (width precision : Field) (long : Bool) (conv : UInt8) :
    Str :=
  (if zero then [48] else []) ++ ((if minus then [45] else []) ++ (width.render ++
    (precision.renderPrecision ++ ((if long then [108] else []) ++ [conv]))))

/-- The text of an item. -/
def Item.render : Item → Str
  | .plain c => [c]
  | .percent => 37 :: directiveText false false .absent .absent false 37
  | .char minus width => 37 :: directiveText false minus width .absent false 99
  | .string minus width precision => 37 :: directiveText false minus width precision false 115
  | .number flag width long conv =>
    37 :: directiveText (flag == .zero) (flag == .minus) width .absent long conv.code

def isDigit (c : UInt8) : Prop := 48 ≤ c.toNat ∧ c.toNat ≤ 57

instance : DecidablePred isDigit := fun c =>
  inferInstanceAs (Decidable (48 ≤ c.toNat ∧ c.toNat ≤ 57))

/-- A width in digits begins with none that would be a flag. -/
def Field.WidthOk : Field → Prop
  | .digits ds => ds ≠ [] ∧ ds.head? ≠ some 48 ∧ ∀ c ∈ ds, isDigit c
  | _ => True

def Field.PrecisionOk : Field → Prop
  | .digits ds => ∀ c ∈ ds, isDigit c
  | _ => True

/-- The item can be in a format. -/
def Item.Ok : Item → Prop
  | .plain c => c ≠ 37 ∧ c ≠ 0
  | .percent => True
  | .char _ width => width.WidthOk
  | .string _ width precision => width.WidthOk ∧ precision.PrecisionOk
  | .number _ width _ _ => width.WidthOk

/-! ## Pieces -/

/-- The value of digits. -/
def valueOf (ds : Str) : ℕ := ds.foldl (fun n c => n * 10 + (c.toNat - 48)) 0

/-- A width or a precision with the argument that a star takes; `none` if there is none. -/
def Field.take : Field → List Arg → Option (Option ℤ × List Arg)
  | .absent, args => some (none, args)
  | .digits ds, args => some (some (valueOf ds), args)
  | .star, .int v :: args => some (some (int16 v.toNat), args)
  | .star, _ => none

/-- What is to be printed. -/
inductive Piece where
  | plain (c : UInt8)
  | char (minus : Bool) (width : ℤ) (v : UInt16)
  | string (minus : Bool) (width : ℤ) (precision : Option ℤ) (s : Str)
  | number (flag : Flag) (width : ℤ) (base : ℕ) (value : ℤ)

/-- The value of a number that is an argument. -/
def numberArg (signed long : Bool) : List Arg → Option (ℤ × List Arg)
  | .int v :: args =>
    if long then none else some (if signed then int16 v.toNat else v.toNat, args)
  | .long v :: args =>
    if long then some (if signed then (v.toNat : ℤ).bmod (2 ^ 32) else v.toNat, args) else none
  | _ => none

/-- An item with its arguments, if they match. -/
def Item.piece : Item → List Arg → Option (Piece × List Arg)
  | .plain c, args => some (.plain c, args)
  | .percent, args => some (.plain 37, args)
  | .char minus width, args =>
    match width.take args with
    | some (w, .int v :: args) => some (.char minus (w.getD 0) v, args)
    | _ => none
  | .string minus width precision, args =>
    match width.take args with
    | none => none
    | some (w, args) =>
      match precision.take args with
      | some (p, .str s :: args) => some (.string minus (w.getD 0) p s, args)
      | _ => none
  | .number flag width long conv, args =>
    match width.take args with
    | none => none
    | some (w, args) =>
      (numberArg conv.signed long args).map fun r => (.number flag (w.getD 0) conv.base r.1, r.2)

/-- The items with the arguments, if these match. -/
def pieces : List Item → List Arg → Option (List Piece)
  | [], _ => some []
  | i :: is, args =>
    match i.piece args with
    | none => none
    | some (p, args) => (pieces is args).map fun ps => p :: ps

/-! ## Standard C -/

/-- A text with `n` characters that fill the field. -/
def filled (left : Bool) (n : ℕ) (fill : UInt8) (text : Str) : Str :=
  if left then text ++ List.replicate n fill else List.replicate n fill ++ text

/-- A text in a field; blanks fill it up. -/
def pad (left : Bool) (width : ℕ) (s : Str) : Str := filled left (width - s.length) 32 s

/-- The digits of a number, without a sign. -/
def numeral (base n : ℕ) : Str :=
  if n = 0 then [48] else ((Nat.digits base n).map digitChar).reverse

def sign (value : ℤ) : Str := if value < 0 then [45] else []

/-- A number without a width. -/
def numberText (base : ℕ) (value : ℤ) : Str := sign value ++ numeral base value.natAbs

/-- The text that a precision leaves. -/
def cut : Option ℤ → Str → Str
  | none, s => s
  | some p, s => if p < 0 then s else s.take p.toNat

/-- What standard C prints for a piece. -/
def Piece.standard : Piece → Str
  | .plain c => [c]
  | .char minus width v => pad (minus || decide (width < 0)) width.natAbs [UInt8.ofNat v.toNat]
  | .string minus width precision s =>
    pad (minus || decide (width < 0)) width.natAbs (cut precision s)
  | .number flag width base value =>
    let text := numberText base value
    if flag = .zero ∧ 0 ≤ width then
      sign value ++ (List.replicate (width.natAbs - text.length) 48 ++ numeral base value.natAbs)
    else pad (flag == .minus || decide (width < 0)) width.natAbs text

/-- A newline is expanded to CR LF. -/
def expand (s : Str) : Str := s.flatMap put

/-- What is to be stored for all of the pieces. -/
def standardText (ps : List Piece) : Str := expand (ps.flatMap Piece.standard)

/-! ## The condition -/

/-- The code prints the piece as it should. -/
def Piece.Good : Piece → Prop
  | .plain _ => True
  -- there is no width, and only 10 is taken as a newline
  | .char _ width v => width.natAbs ≤ 1 ∧ (UInt8.ofNat v.toNat = 10 → v = 10)
  -- a text that is cut is not padded
  | .string _ width precision s => s.length ≤ width.natAbs + 32768 ∧
    ∀ p : ℤ, precision = some p → 0 ≤ p →
      min s.length (p.toNat % 65536) = min s.length p.toNat ∧ (p < s.length → width.natAbs ≤ p)
  -- zeros come behind a sign, and on the left; the text fits into the buffer
  | .number flag width base value =>
    (numberText base value).length ≤ 10 ∧
    (flag = .zero → (numberText base value).length < width.natAbs → 0 ≤ value ∧ 0 ≤ width)

/-- The code prints all pieces as it should, and the number of characters is an `int`. -/
def Good (ps : List Piece) : Prop :=
  (∀ p ∈ ps, p.Good) ∧ (standardText ps).length ≤ 32767

/-- No text is longer than its width by more than 32768 characters. -/
def Piece.Short : Piece → Prop
  | .string _ width _ s => s.length ≤ width.natAbs + 32768
  | _ => True

/-- What `sprintf` is to do with a format. -/
def Correct (items : List Item) (args : List Arg) (ps : List Piece) : Prop :=
  ∃ r, sprintf (items.flatMap Item.render) args = some r ∧ r.buff = standardText ps ++ [0] ∧
    r.ret = (standardText ps).length ∧ r.outside = false

/-! ## Digits -/

theorem digitLoop_eq {base : ℕ} (hbase : 1 < base) (fuel : ℕ) {u : ℕ} (hu : u < base ^ fuel)
    (hpos : 0 < u) : digitLoop base fuel u = (Nat.digits base u).map digitChar := by
  induction fuel generalizing u with
  | zero => simp at hu; omega
  | succ fuel ih =>
    rw [digitLoop, Nat.digits_def' hbase hpos, List.map_cons]
    congr 1
    split
    next h => rw [h, Nat.digits_zero, List.map_nil]
    next h =>
      exact ih (Nat.div_lt_of_lt_mul (by rwa [pow_succ, mul_comm] at hu)) (Nat.pos_of_ne_zero h)

theorem digitsOf_eq {base : ℕ} (hbase : 1 < base) (u : UInt32) :
    digitsOf base u = numeral base u.toNat := by
  rw [digitsOf, numeral]
  split
  next h => rw [h, digitLoop, if_pos (by simp)]; simp [digitChar]
  next h =>
    have hu : u.toNat < base ^ 32 :=
      lt_of_lt_of_le u.toNat_lt (Nat.pow_le_pow_left hbase 32)
    rw [digitLoop_eq hbase 32 hu (Nat.pos_of_ne_zero h)]

/-! ## Reading a directive -/

theorem number_append {ds rest : Str} (hds : ∀ c ∈ ds, isDigit c)
    (hrest : ∀ c, rest.head? = some c → ¬ isDigit c) (n : ℕ) :
    number (int16 n) (ds ++ rest) =
      (int16 (ds.foldl (fun n c => n * 10 + (c.toNat - 48)) n : ℕ), rest) := by
  induction ds generalizing n with
  | nil =>
    cases rest with
    | nil => rfl
    | cons c rest =>
      have hc : ¬ (48 ≤ c.toNat ∧ c.toNat ≤ 57) := hrest c rfl
      rw [List.nil_append, number, if_neg hc]
      rfl
  | cons c ds ih =>
    have hc : 48 ≤ c.toNat ∧ c.toNat ≤ 57 := hds c List.mem_cons_self
    have hcast : ((n : ℤ) * 10 + ((c.toNat : ℤ) - 48)) = ((n * 10 + (c.toNat - 48) : ℕ) : ℤ) := by
      have := hc.1
      omega
    rw [List.cons_append, number, if_pos hc, int16_add_mul, hcast,
      ih (fun d hd => hds d (List.mem_cons_of_mem c hd))]
    rfl

/-- A width or a precision as the code reads it. -/
def Field.raw : Field → Option ℤ
  | .absent => some 0
  | .digits ds => some (int16 (valueOf ds))
  | .star => none

theorem field_render {f : Field} (hf : f.PrecisionOk) {rest : Str}
    (hrest : ∀ c, rest.head? = some c → ¬ isDigit c ∧ c ≠ 42) :
    field (f.render ++ rest) = (f.raw, rest) := by
  have hdigit : ∀ c, rest.head? = some c → ¬ isDigit c := fun c hc => (hrest c hc).1
  have hstar : rest.head? ≠ some 42 := fun h => (hrest 42 h).2 rfl
  have hzero : int16 (0 : ℕ) = 0 := rfl
  cases f with
  | absent =>
    have hnil : ∀ c ∈ ([] : Str), isDigit c := by simp
    have := number_append hnil hdigit 0
    rw [hzero] at this
    rw [Field.render, List.nil_append, field, if_neg hstar]
    simp only [List.nil_append] at this
    rw [this]
    rfl
  | digits ds =>
    have := number_append hf hdigit 0
    rw [hzero] at this
    have hne : (ds ++ rest).head? ≠ some 42 := by
      cases ds with
      | nil => exact hstar
      | cons c ds =>
        intro h
        have hc : c = 42 := Option.some.inj h
        have := (hf c List.mem_cons_self).1
        rw [hc] at this
        exact absurd this (by decide)
    rw [Field.render, field, if_neg hne, this, Field.raw, valueOf]
  | star => rfl

/-- The precisions as the code reads them. -/
def Field.rawPrecision : Field → List (Option ℤ)
  | .absent => []
  | p => [p.raw]

theorem moreFields_none {rest : Str} (hrest : rest.head? ≠ some 46) (fuel : ℕ) :
    moreFields fuel rest = ([], rest) := by
  cases fuel with
  | zero => rfl
  | succ fuel => rw [moreFields, if_neg hrest]

theorem moreFields_render {p : Field} (hp : p.PrecisionOk) {rest : Str}
    (hrest : ∀ c, rest.head? = some c → ¬ isDigit c ∧ c ≠ 42 ∧ c ≠ 46) :
    moreFields (p.renderPrecision ++ rest).length (p.renderPrecision ++ rest) =
      (p.rawPrecision, rest) := by
  have hdot : rest.head? ≠ some 46 := fun h => (hrest 46 h).2.2 rfl
  have hone : ∀ text : Str, field (text ++ rest) = (p.raw, rest) →
      moreFields (46 :: text ++ rest).length (46 :: text ++ rest) = ([p.raw], rest) := by
    intro text htext
    rw [List.cons_append, List.length_cons, moreFields, if_pos (by rfl), List.drop_one,
      List.tail_cons, htext]
    simp only [moreFields_none hdot]
  have hfield := field_render hp fun c hc => ⟨(hrest c hc).1, (hrest c hc).2.1⟩
  cases p with
  | absent => exact moreFields_none hdot _
  | digits ds => exact hone _ hfield
  | star => exact hone _ hfield

theorem flag_head (b : Bool) {c : UInt8} {tail : Str} (h : tail.head? ≠ some c) :
    (((if b then [c] else []) ++ tail).head? == some c) = b := by
  cases b with
  | true => simp
  | false => simpa using h

theorem flag_drop (b : Bool) (c : UInt8) (tail : Str) :
    (if b then ((if b then [c] else []) ++ tail).drop 1 else (if b then [c] else []) ++ tail) =
      tail := by
  cases b <;> rfl

/-- The character can be behind a directive's width and precision. -/
def convOk (c : UInt8) : Prop := ¬ isDigit c ∧ c ≠ 42 ∧ c ≠ 46 ∧ c ≠ 45 ∧ c ≠ 108

instance : DecidablePred convOk := fun c =>
  inferInstanceAs (Decidable (¬ isDigit c ∧ c ≠ 42 ∧ c ≠ 46 ∧ c ≠ 45 ∧ c ≠ 108))

theorem head_long (long : Bool) {conv : UInt8} (hconv : convOk conv) (rest : Str) (c : UInt8)
    (hc : ((if long then [108] else []) ++ [conv] ++ rest).head? = some c) :
    ¬ isDigit c ∧ c ≠ 42 ∧ c ≠ 46 ∧ c ≠ 45 := by
  cases long with
  | true =>
    obtain rfl : 108 = c := Option.some.inj hc
    decide
  | false =>
    obtain rfl : conv = c := Option.some.inj hc
    exact ⟨hconv.1, hconv.2.1, hconv.2.2.1, hconv.2.2.2.1⟩

theorem Field.WidthOk.precisionOk {f : Field} (hf : f.WidthOk) : f.PrecisionOk := by
  cases f with
  | digits ds => exact hf.2.2
  | absent => trivial
  | star => trivial

/-- What is behind a width begins with no digit and no star. -/
theorem head_precision (p : Field) (long : Bool) {conv : UInt8} (hconv : convOk conv) (rest : Str)
    (c : UInt8)
    (hc : (p.renderPrecision ++ ((if long then [108] else []) ++ [conv] ++ rest)).head? = some c) :
    ¬ isDigit c ∧ c ≠ 42 ∧ c ≠ 45 := by
  have hdot : some 46 = some c → ¬ isDigit c ∧ c ≠ 42 ∧ c ≠ 45 := by
    intro h
    obtain rfl : 46 = c := Option.some.inj h
    decide
  cases p with
  | absent =>
    have := head_long long hconv rest c hc
    exact ⟨this.1, this.2.1, this.2.2.2⟩
  | digits ds => exact hdot hc
  | star => exact hdot hc

/-- A width begins with no flag. -/
theorem head_width {f : Field} (hf : f.WidthOk) {tail : Str}
    (htail : ∀ c, tail.head? = some c → ¬ isDigit c ∧ c ≠ 42 ∧ c ≠ 45) :
    (f.render ++ tail).head? ≠ some 48 ∧ (f.render ++ tail).head? ≠ some 45 := by
  cases f with
  | absent =>
    exact ⟨fun h => (htail 48 h).1 (by decide), fun h => (htail 45 h).2.2 rfl⟩
  | digits ds =>
    obtain ⟨hne, hzero, hdigits⟩ := hf
    cases ds with
    | nil => exact absurd rfl hne
    | cons c ds =>
      refine ⟨hzero, fun h => ?_⟩
      have hc : c = 45 := Option.some.inj h
      have := hdigits c List.mem_cons_self
      rw [hc] at this
      exact absurd this (by decide)
  | star => exact ⟨by simp [Field.render], by simp [Field.render]⟩

/-- The code reads a directive as it has been written. -/
theorem directive_text (zero minus : Bool) {width precision : Field} (hw : width.WidthOk)
    (hp : precision.PrecisionOk) (long : Bool) {conv : UInt8} (hconv : convOk conv) (rest : Str) :
    directive (directiveText zero minus width precision long conv ++ rest) =
      (⟨zero, minus, width.raw, precision.rawPrecision, long, conv⟩, rest) := by
  have hlong := fun c => head_long long hconv rest c
  have htail := fun c => head_precision precision long hconv rest c
  obtain ⟨hzero, hminus⟩ := head_width hw htail
  have hfield := field_render hw.precisionOk fun c hc => ⟨(htail c hc).1, (htail c hc).2.1⟩
  have hmore := moreFields_render hp fun c hc =>
    ⟨(hlong c hc).1, (hlong c hc).2.1, (hlong c hc).2.2.1⟩
  have hzero' : ((if minus then [45] else []) ++ (width.render ++ (precision.renderPrecision ++
      ((if long then [108] else []) ++ [conv] ++ rest)))).head? ≠ some 48 := by
    cases minus with
    | true => simp
    | false => exact hzero
  have hconv' : ([conv] ++ rest).head? ≠ some 108 := by
    intro h
    exact hconv.2.2.2.2 (Option.some.inj h)
  have htext : directiveText zero minus width precision long conv ++ rest =
      (if zero then [48] else []) ++ ((if minus then [45] else []) ++ (width.render ++
        (precision.renderPrecision ++ ((if long then [108] else []) ++ [conv] ++ rest)))) := by
    simp only [directiveText, List.append_assoc]
  rw [htext]
  simp only [directive, flag_head zero hzero', flag_drop, flag_head minus hminus, hfield, hmore]
  rw [List.append_assoc, flag_head long hconv', flag_drop]
  rfl

end Print
end BurdahDos
