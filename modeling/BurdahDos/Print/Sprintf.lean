import BurdahDos.Print.Standard
import Mathlib

/-!
# What `sprintf` prints

Each item of a format makes `do_printf` put out the text `Piece.printed`.  `currentArg_number` says
that the number converted is the one passed, and `printLoop_items` puts the texts together.
-/

set_option autoImplicit false

namespace BurdahDos
namespace Print

/-! ## What the code prints -/

/-- The effect of a width on a text. -/
def outputOf (zero minus : Bool) (width precision : ℤ) (s : Str) : Str :=
  outputString (minus || decide (int16 width < 0)) (if zero then 48 else 32)
    (if int16 width < 0 then int16 (-int16 width) else int16 width) precision s

/-- A precision in the code. -/
def precision16 : Option ℤ → ℤ
  | none => -1
  | some p => int16 p

/-- What the code prints for a piece. -/
def Piece.printed : Piece → Str
  | .plain c => put c
  | .char _ _ v => handleChar (v == 10) (UInt8.ofNat v.toNat)
  | .string minus width precision s => outputOf false minus width (precision16 precision) s
  | .number flag width base value =>
    outputOf (flag == .zero) (flag == .minus) width (-1) (numberText base value)

/-- There is a store behind the buffer `s`. -/
def Piece.overruns : Piece → Bool
  | .number _ _ base value => Print.overruns (numberText base value)
  | _ => false

theorem take_star (v : UInt16) (args : List Arg) :
    Field.star.take (.int v :: args) = some (some (int16 v.toNat), args) := rfl

theorem fieldValue_star (v : UInt16) (args : List Arg) :
    fieldValue none (.int v :: args) = some (int16 v.toNat, args) := rfl

theorem fieldValue_raw (f : Field) (args : List Arg) :
    fieldValue f.raw args = (f.take args).map fun r => (int16 (r.1.getD 0), r.2) := by
  cases f with
  | absent => simp [Field.raw, Field.take, fieldValue, int16_zero]
  | digits ds => simp [Field.raw, Field.take, fieldValue]
  | star =>
    cases args with
    | nil => rfl
    | cons a args =>
      cases a with
      | int v =>
        rw [take_star, Option.map_some, Option.getD_some, int16_int16, Field.raw, fieldValue_star]
      | long v => rfl
      | str s => rfl
      | far s => rfl

theorem precisionValue_one (f : Option ℤ) (args : List Arg) :
    precisionValue (-1) [f] args = fieldValue f args := by
  rw [precisionValue]
  cases fieldValue f args <;> rfl

theorem precisionValue_raw (f : Field) (args : List Arg) :
    precisionValue (-1) f.rawPrecision args =
      (f.take args).map fun r => (precision16 r.1, r.2) := by
  cases f with
  | absent => rfl
  | digits ds =>
    rw [Field.rawPrecision, precisionValue_one, fieldValue_raw]
    · rfl
    · exact Field.noConfusion
  | star =>
    rw [Field.rawPrecision, precisionValue_one]
    · cases args with
      | nil => rfl
      | cons a args =>
        cases a with
        | int v =>
          rw [take_star, Option.map_some, precision16, int16_int16, Field.raw, fieldValue_star]
        | long v => rfl
        | str s => rfl
        | far s => rfl
    · exact Field.noConfusion

/-! ## Numbers -/

theorem ltob_signed (n : UInt32) : ltob n (-10) = numberText 10 ((n.toNat : ℤ).bmod (2 ^ 32)) := by
  have hn := n.toNat_lt
  have hmod : (n.toNat : ℤ).bmod (2 ^ 32) =
      if 2 ^ 31 ≤ n.toNat then (n.toNat : ℤ) - (2 ^ 32 : ℤ) else (n.toNat : ℤ) := by
    rw [Int.bmod_def]
    split <;> split <;> omega
  rw [ltob, if_pos rfl, hmod]
  split
  next h =>
    have hneg : (-n).toNat = 2 ^ 32 - n.toNat := by
      rw [UInt32.toNat_neg, UInt32.size]
      omega
    have habs : ((n.toNat : ℤ) - 2 ^ 32).natAbs = 2 ^ 32 - n.toNat := by omega
    rw [digitsOf_eq (by decide), hneg, numberText, sign, if_pos (by omega), habs,
      List.singleton_append]
  next h =>
    rw [digitsOf_eq (by decide), numberText, sign, if_neg (by omega), Int.natAbs_natCast,
      List.nil_append]

theorem ltob_unsigned (n : UInt32) {base : ℕ} (hbase : 1 < base) :
    ltob n base = numberText base n.toNat := by
  rw [ltob, if_neg (by omega), Int.toNat_natCast, digitsOf_eq hbase, numberText, sign,
    if_neg (by omega), Int.natAbs_natCast]
  rfl

theorem ltob_length (n : UInt32) (base : ℤ) : (ltob n base).length ≤ 33 := by
  have hloop : ∀ (base fuel u : ℕ), (digitLoop base fuel u).length ≤ fuel := by
    intro base fuel
    induction fuel with
    | zero => intro u; exact le_rfl
    | succ fuel ih =>
      intro u
      rw [digitLoop, List.length_cons]
      split
      next => simp
      next => exact Nat.succ_le_succ (ih _)
  have hdigits : ∀ (base : ℕ) (u : UInt32), (digitsOf base u).length ≤ 32 := by
    intro base u
    rw [digitsOf, List.length_reverse]
    exact hloop base 32 u.toNat
  rw [ltob]
  split
  next =>
    split
    next => exact Nat.succ_le_succ (hdigits _ _)
    next => exact (hdigits _ _).trans (by decide)
  next => exact (hdigits _ _).trans (by decide)

/-- The base that `do_printf` chooses. -/
def Conv.codeBase (conv : Conv) : ℤ := if conv.signed then -10 else conv.base

theorem baseOf_code (conv : Conv) : baseOf conv.code = some conv.codeBase := by
  cases conv <;> rfl

theorem currentArg_int (v : UInt16) :
    ((UInt32.ofInt (int16 v.toNat)).toNat : ℤ).bmod (2 ^ 32) = int16 v.toNat := by
  have hr := int16_range v.toNat
  rw [UInt32.ofInt, UInt32.toNat_ofNat', Int.bmod_def]
  split <;> omega

theorem currentArg_uint (v : UInt16) : (UInt32.ofNat v.toNat).toNat = v.toNat := by
  have := v.toNat_lt
  rw [UInt32.toNat_ofNat', Nat.mod_eq_of_lt (by omega)]

theorem ltob_code (conv : Conv) (n : UInt32) :
    ltob n conv.codeBase =
      numberText conv.base (if conv.signed then (n.toNat : ℤ).bmod (2 ^ 32) else n.toNat) := by
  have hbase : 1 < conv.base := by cases conv <;> decide
  rw [Conv.codeBase]
  by_cases hs : conv.signed = true
  · have hten : conv.base = 10 := by cases conv <;> first | rfl | exact absurd hs (by decide)
    rw [if_pos hs, if_pos hs, ltob_signed, hten]
  · rw [if_neg hs, if_neg hs, ltob_unsigned n hbase]

theorem codeBase_neg (conv : Conv) : conv.codeBase < 0 ↔ conv.signed = true := by
  cases conv <;> decide

/-- The number that is converted is the one that has been passed. -/
theorem currentArg_number {conv : Conv} {long : Bool} {args : List Arg} {r : ℤ × List Arg}
    (h : numberArg conv.signed long args = some r) :
    ∃ n, currentArg long conv.codeBase args = some (n, r.2) ∧
      ltob n conv.codeBase = numberText conv.base r.1 := by
  match args, long, h with
  | .int v :: args, false, h =>
    refine ⟨if conv.codeBase < 0 then UInt32.ofInt (int16 v.toNat) else UInt32.ofNat v.toNat,
      ?_, ?_⟩
    · rw [← Option.some.inj h]
      rfl
    · have hr : r.1 = if conv.signed then int16 v.toNat else (v.toNat : ℤ) := by
        rw [← Option.some.inj h]
      rw [ltob_code, hr]
      by_cases hs : conv.signed = true
      · rw [if_pos hs, if_pos hs, if_pos ((codeBase_neg conv).2 hs), currentArg_int]
      · rw [if_neg hs, if_neg hs, if_neg (mt (codeBase_neg conv).1 hs), currentArg_uint]
  | .long v :: args, true, h =>
    refine ⟨v, ?_, ?_⟩
    · rw [← Option.some.inj h]
      rfl
    · rw [ltob_code, ← Option.some.inj h]

/-! ## The loop -/

/-- The directive of an item, carried out. -/
theorem directive_step (zero minus : Bool) (width precision : Field) (long : Bool) (conv : UInt8)
    (hw : width.WidthOk) (hp : precision.PrecisionOk) (hconv : convOk conv) (h0 : conv ≠ 0)
    (h70 : conv ≠ 70) {args : List Arg} {w p : Option ℤ} {args' args'' : List Arg} {c : Converted}
    (hwidth : width.take args = some (w, args')) (hprec : precision.take args' = some (p, args''))
    (hc : convert ⟨zero, minus, width.raw, precision.rawPrecision, long, conv⟩ (int16 (w.getD 0))
      (precision16 p) args'' = some c) (fuel : ℕ) (rest : Str) :
    printLoop (fuel + 1)
        (37 :: directiveText zero minus width precision long conv ++ rest) args =
      (printLoop fuel rest c.args).map fun q => (c.text ++ q.1, c.outside || q.2) := by
  have hfield := fieldValue_raw width args
  have hprecision := precisionValue_raw precision args'
  rw [hwidth] at hfield
  rw [hprec] at hprecision
  simp only [Option.map_some] at hfield hprecision
  have hpercent : ¬ ((37 : UInt8) ≠ 37) := fun h => h rfl
  have hrun : (⟨zero, minus, width.raw, precision.rawPrecision, long, conv⟩ : Directive).run args =
      some c := by
    simp only [Directive.run, hfield, hprecision, if_neg h0, hc]
  rw [List.cons_append, printLoop, if_neg hpercent]
  simp only [directive_text zero minus hw hp long hconv rest, hrun, if_neg h0, if_neg h70]

/-- An item makes the code print its piece. -/
theorem item_step {i : Item} (hi : i.Ok) {args args' : List Arg} {p : Piece}
    (h : i.piece args = some (p, args')) (fuel : ℕ) (rest : Str) :
    printLoop (fuel + 1) (i.render ++ rest) args =
      (printLoop fuel rest args').map fun q => (p.printed ++ q.1, p.overruns || q.2) := by
  cases i with
  | plain c =>
    obtain ⟨rfl, rfl⟩ := Prod.mk.inj (Option.some.inj h)
    rw [Item.render, List.singleton_append, printLoop, if_pos hi.1]
    rfl
  | percent =>
    obtain ⟨rfl, rfl⟩ := Prod.mk.inj (Option.some.inj h)
    exact directive_step false false .absent .absent false 37 trivial trivial (by decide)
      (by decide) (by decide) rfl rfl rfl fuel rest
  | char minus width =>
    rw [Item.piece] at h
    split at h
    next w v args'' htake =>
      obtain ⟨rfl, rfl⟩ := Prod.mk.inj (Option.some.inj h)
      exact directive_step false minus width .absent false 99 hi trivial (by decide) (by decide)
        (by decide) htake rfl rfl fuel rest
    next => exact absurd h (by simp)
  | string minus width precision =>
    rw [Item.piece] at h
    split at h
    next => exact absurd h (by simp)
    next w args'' htake =>
      split at h
      next p s args''' hprec =>
        obtain ⟨rfl, rfl⟩ := Prod.mk.inj (Option.some.inj h)
        exact directive_step false minus width precision false 115 hi.1 hi.2 (by decide) (by decide)
          (by decide) htake hprec rfl fuel rest
      next => exact absurd h (by simp)
  | number flag width long conv =>
    rw [Item.piece] at h
    split at h
    next => exact absurd h (by simp)
    next w args'' htake =>
      obtain ⟨r, hr, hp⟩ := Option.map_eq_some_iff.1 h
      obtain ⟨rfl, rfl⟩ := Prod.mk.inj hp
      obtain ⟨n, hn, htext⟩ := currentArg_number hr
      have hconv : convOk conv.code ∧ conv.code ≠ 0 ∧ conv.code ≠ 70 := by cases conv <;> decide
      refine directive_step (flag == .zero) (flag == .minus) width .absent long conv.code hi trivial
        hconv.1 hconv.2.1 hconv.2.2 htake rfl (c := ⟨(Piece.number flag (w.getD 0) conv.base
          r.1).printed, overruns (numberText conv.base r.1), r.2⟩) ?_ fuel rest
      simp only [convert, baseOf_code, hn, Option.map_some, htext]
      rfl

theorem printLoop_nil (fuel : ℕ) (args : List Arg) : printLoop fuel [] args = some ([], false) := by
  cases fuel <;> rfl

/-- **A format makes the code print its pieces**, one after the other. -/
theorem printLoop_items {items : List Item} (hok : ∀ i ∈ items, i.Ok) {args : List Arg}
    {ps : List Piece} (h : pieces items args = some ps) {fuel : ℕ} (hfuel : items.length ≤ fuel) :
    printLoop fuel (items.flatMap Item.render) args =
      some (ps.flatMap Piece.printed, ps.any Piece.overruns) := by
  induction items generalizing args ps fuel with
  | nil =>
    obtain rfl : [] = ps := Option.some.inj h
    exact printLoop_nil fuel args
  | cons i items ih =>
    rw [pieces] at h
    split at h
    next => exact absurd h (by simp)
    next p args' hp =>
      obtain ⟨qs, hqs, hps⟩ := Option.map_eq_some_iff.1 h
      obtain ⟨fuel, rfl⟩ : ∃ k, fuel = k + 1 :=
        ⟨fuel - 1, by have := hfuel; rw [List.length_cons] at this; omega⟩
      rw [List.flatMap_cons, item_step (hok i List.mem_cons_self) hp,
        ih (fun j hj => hok j (List.mem_cons_of_mem i hj)) hqs (Nat.le_of_succ_le_succ hfuel),
        ← hps]
      rfl

theorem render_ne_nil (i : Item) : i.render ≠ [] := by
  cases i <;> simp [Item.render]

theorem length_le_render (items : List Item) :
    items.length ≤ (items.flatMap Item.render).length := by
  induction items with
  | nil => exact le_rfl
  | cons i items ih =>
    have := List.length_pos_iff.2 (render_ne_nil i)
    rw [List.flatMap_cons, List.length_append, List.length_cons]
    omega

theorem sprintf_items {items : List Item} (hok : ∀ i ∈ items, i.Ok) {args : List Arg}
    {ps : List Piece} (h : pieces items args = some ps) :
    sprintf (items.flatMap Item.render) args =
      some ⟨ps.flatMap Piece.printed ++ [0], int16 (ps.flatMap Piece.printed).length,
        ps.any Piece.overruns⟩ := by
  have hfuel : items.length ≤ (items.flatMap Item.render).length + 1 :=
    (length_le_render items).trans (Nat.le_succ _)
  have hput : put 0 = [0] := rfl
  rw [sprintf, doPrintf, printLoop_items hok h hfuel, Option.map_some, hput, List.length_append,
    List.length_singleton, Nat.cast_add, Nat.cast_one, add_sub_cancel_right]

end Print
end BurdahDos
