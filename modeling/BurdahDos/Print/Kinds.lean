import BurdahDos.Print.Standard
import Mathlib

/-!
# The arguments that a format takes

`kinds` follows `do_printf` without the output: it lists the types that `va_arg` is asked for, in
order.

* `doPrintf_isSome_iff`: output goes well if and only if the arguments begin with these types.
* `kinds_newline`: a newline behind a format makes no difference.
-/

set_option autoImplicit false

namespace BurdahDos
namespace Print

/-- What `va_arg` can be asked for. -/
inductive Kind where
  | int
  | long
  | str
  | far
deriving DecidableEq

def Arg.kind : Arg → Kind
  | .int _ => .int
  | .long _ => .long
  | .str _ => .str
  | .far _ => .far

/-! ## The types -/

/-- A star takes an `int`. -/
def fieldKinds : Option ℤ → List Kind
  | none => [.int]
  | some _ => []

/-- What a conversion takes. -/
def convKinds (longarg : Bool) (conv : UInt8) : List Kind :=
  match baseOf conv with
  | some _ => [if longarg then .long else .int]
  | none =>
    if conv = 99 then [.int]
    else if conv = 112 then [.int, .int]
    else if conv = 115 then [.str]
    else if conv = 70 ∨ conv = 83 then [.far]
    else []

def Directive.kinds (d : Directive) : List Kind :=
  fieldKinds d.size ++ (d.precisions.flatMap fieldKinds ++ convKinds d.longarg d.conv)

/-- The loop of `do_printf`, for the types only. -/
def kindsLoop : ℕ → Str → List Kind
  | 0, _ => []
  | _ + 1, [] => []
  | fuel + 1, c :: fmt =>
    if c ≠ 37 then kindsLoop fuel fmt
    else
      let d := directive fmt
      d.1.kinds ++
        if d.1.conv = 0 then []
        else kindsLoop fuel (if d.1.conv = 70 then d.2.drop 1 else d.2)

/-- The types of the arguments that `do_printf` takes. -/
def kinds (fmt : Str) : List Kind := kindsLoop (fmt.length + 1) fmt

/-! ## Taking arguments -/

/-- Arguments of these types are taken. -/
def takeKinds : List Kind → List Arg → Option (List Arg)
  | [], args => some args
  | _ :: _, [] => none
  | k :: ks, a :: args => if a.kind = k then takeKinds ks args else none

theorem takeKinds_append (ks ls : List Kind) (args : List Arg) :
    takeKinds (ks ++ ls) args = (takeKinds ks args).bind (takeKinds ls) := by
  induction ks generalizing args with
  | nil => rfl
  | cons k ks ih =>
    cases args with
    | nil => rfl
    | cons a args =>
      rw [List.cons_append, takeKinds, takeKinds]
      split
      · exact ih args
      · rfl

theorem takeKinds_isSome (ks : List Kind) (args : List Arg) :
    (takeKinds ks args).isSome ↔ ks <+: args.map Arg.kind := by
  induction ks generalizing args with
  | nil => simp [takeKinds]
  | cons k ks ih =>
    cases args with
    | nil => simp [takeKinds]
    | cons a args =>
      rw [takeKinds, List.map_cons, List.cons_prefix_cons]
      split
      next h => rw [ih, h]; simp
      next h => simpa using fun hk : k = a.kind => absurd hk.symm h

theorem fieldValue_args (f : Option ℤ) (args : List Arg) :
    (fieldValue f args).map Prod.snd = takeKinds (fieldKinds f) args := by
  cases f with
  | some n => rfl
  | none =>
    cases args with
    | nil => rfl
    | cons a args => cases a <;> rfl

theorem precisionValue_args (p : ℤ) (fs : List (Option ℤ)) (args : List Arg) :
    (precisionValue p fs args).map Prod.snd = takeKinds (fs.flatMap fieldKinds) args := by
  induction fs generalizing p args with
  | nil => rfl
  | cons f fs ih =>
    rw [List.flatMap_cons, takeKinds_append, ← fieldValue_args, precisionValue]
    cases fieldValue f args with
    | none => rfl
    | some r => exact ih r.1 r.2

theorem currentArg_args (longarg : Bool) (base : ℤ) (args : List Arg) :
    (currentArg longarg base args).map Prod.snd =
      takeKinds [if longarg then .long else .int] args := by
  cases args with
  | nil => rfl
  | cons a args => cases a <;> cases longarg <;> rfl

theorem convert_args (d : Directive) (size precision : ℤ) (args : List Arg) :
    (convert d size precision args).map Converted.args =
      takeKinds (convKinds d.longarg d.conv) args := by
  unfold convert convKinds
  cases baseOf d.conv with
  | some base =>
    simp only [Option.map_map, ← currentArg_args d.longarg base]
    rfl
  | none =>
    simp only
    split_ifs with hc hp hs hf hpercent
    · rcases args with - | ⟨a, args⟩
      · rfl
      · cases a <;> rfl
    · rcases args with - | ⟨a, - | ⟨b, args⟩⟩
      · rfl
      · cases a <;> rfl
      · cases a <;> cases b <;> rfl
    · rcases args with - | ⟨a, args⟩
      · rfl
      · cases a <;> rfl
    · rcases args with - | ⟨a, args⟩
      · rfl
      · cases a <;> rfl
    · rfl
    · rfl

theorem convKinds_zero (longarg : Bool) : convKinds longarg 0 = [] := rfl

theorem Directive.run_args (d : Directive) (args : List Arg) :
    (d.run args).map Converted.args = takeKinds d.kinds args := by
  rw [Directive.run, Directive.kinds, takeKinds_append, ← fieldValue_args]
  cases fieldValue d.size args with
  | none => rfl
  | some r =>
    rw [Option.map_some, Option.bind_some, takeKinds_append, ← precisionValue_args (-1)]
    simp only
    cases precisionValue (-1) d.precisions r.2 with
    | none => rfl
    | some q =>
      rw [Option.map_some, Option.bind_some]
      simp only
      split
      next h => rw [h, convKinds_zero]; rfl
      next => exact convert_args d r.1 q.1 q.2

theorem printLoop_isSome (fuel : ℕ) (fmt : Str) (args : List Arg) :
    (printLoop fuel fmt args).isSome = (takeKinds (kindsLoop fuel fmt) args).isSome := by
  induction fuel generalizing fmt args with
  | zero => rfl
  | succ fuel ih =>
    cases fmt with
    | nil => rfl
    | cons c fmt =>
      simp only [printLoop, kindsLoop]
      split
      next => rw [Option.isSome_map, ih]
      next =>
        have hrun := (directive fmt).1.run_args args
        rw [takeKinds_append, ← hrun]
        cases (directive fmt).1.run args with
        | none => rfl
        | some r =>
          rw [Option.map_some, Option.bind_some]
          simp only
          split
          next => rfl
          next => rw [Option.isSome_map, ih]

/-- Output goes well if and only if the arguments begin with the types of the format. -/
theorem doPrintf_isSome_iff (fmt : Str) (args : List Arg) :
    (doPrintf fmt args).isSome ↔ kinds fmt <+: args.map Arg.kind := by
  rw [doPrintf, printLoop_isSome, takeKinds_isSome, kinds]

/-! ## How far a directive reads -/

theorem number_length (n : ℤ) (fmt : Str) : (number n fmt).2.length ≤ fmt.length := by
  induction fmt generalizing n with
  | nil => exact Nat.le_refl _
  | cons c fmt ih =>
    rw [number]
    split
    · exact (ih _).trans (Nat.le_succ _)
    · exact Nat.le_refl _

theorem field_length (fmt : Str) : (field fmt).2.length ≤ fmt.length := by
  rw [field]
  split
  · simp
  · exact number_length 0 fmt

theorem moreFields_length (fuel : ℕ) (fmt : Str) :
    (moreFields fuel fmt).2.length ≤ fmt.length := by
  induction fuel generalizing fmt with
  | zero => exact Nat.le_refl _
  | succ fuel ih =>
    rw [moreFields]
    split
    · have := field_length (fmt.drop 1)
      have := ih (field (fmt.drop 1)).2
      simp only [List.length_drop] at *
      omega
    · exact Nat.le_refl _

/-- A part that may be there or not has been read. -/
theorem length_drop_if (b : Prop) [Decidable b] (fmt : Str) :
    (if b then fmt.drop 1 else fmt).length ≤ fmt.length := by
  split <;> simp

theorem directive_length (fmt : Str) : (directive fmt).2.length ≤ fmt.length := by
  simp only [directive]
  have hzero := length_drop_if ((fmt.head? == some 48) = true) fmt
  set s := if (fmt.head? == some 48) = true then fmt.drop 1 else fmt with hs
  have hminus := length_drop_if ((s.head? == some 45) = true) s
  set t := if (s.head? == some 45) = true then s.drop 1 else s with ht
  have hfield := field_length t
  have hmore := moreFields_length (field t).2.length (field t).2
  have hlong := length_drop_if
    (((moreFields (field t).2.length (field t).2).2.head? == some 108) = true)
    (moreFields (field t).2.length (field t).2).2
  rw [List.length_drop]
  omega

/-! ## The loop without fuel -/

theorem kindsLoop_fuel {fuel : ℕ} {fmt : Str} (h : fmt.length < fuel) :
    kindsLoop fuel fmt = kinds fmt := by
  have hall : ∀ (n m : ℕ) (fmt : Str), fmt.length < n → fmt.length < m →
      kindsLoop n fmt = kindsLoop m fmt := by
    intro n
    induction n with
    | zero => intro m fmt hn; omega
    | succ n ih =>
      intro m fmt hn hm
      obtain ⟨m, rfl⟩ : ∃ k, m = k + 1 := ⟨m - 1, by omega⟩
      cases fmt with
      | nil => rfl
      | cons c fmt =>
        rw [List.length_cons] at hn hm
        have hd := directive_length fmt
        have hrest := length_drop_if ((directive fmt).1.conv = 70) (directive fmt).2
        simp only [kindsLoop]
        rw [ih m fmt (by omega) (by omega), ih m _ (by omega) (by omega)]
  exact hall _ _ _ h (Nat.lt_succ_self _)

@[simp] theorem kinds_nil : kinds [] = [] := rfl

theorem kinds_cons {c : UInt8} (hc : c ≠ 37) (fmt : Str) : kinds (c :: fmt) = kinds fmt := by
  rw [kinds, kindsLoop, if_pos hc, List.length_cons, kindsLoop_fuel (Nat.lt_succ_self _)]

theorem kinds_percent (fmt : Str) :
    kinds (37 :: fmt) = (directive fmt).1.kinds ++
      if (directive fmt).1.conv = 0 then []
      else kinds (if (directive fmt).1.conv = 70 then (directive fmt).2.drop 1
        else (directive fmt).2) := by
  have hd := directive_length fmt
  have hrest := length_drop_if ((directive fmt).1.conv = 70) (directive fmt).2
  rw [kinds, kindsLoop, if_neg (not_not.2 rfl), List.length_cons]
  simp only
  rw [kindsLoop_fuel (by omega)]

/-- A directive of a percent sign and a conversion. -/
theorem directive_conv {c : UInt8} (hc : convOk c) (rest : Str) :
    directive (c :: rest) = (⟨false, false, some 0, [], false, c⟩, rest) :=
  @directive_text false false .absent .absent trivial trivial false c hc rest

theorem kinds_conv {c : UInt8} (hc : convOk c) (hzero : c ≠ 0) (rest : Str) :
    kinds (37 :: c :: rest) =
      convKinds false c ++ kinds (if c = 70 then rest.drop 1 else rest) := by
  rw [kinds_percent, directive_conv hc]
  simp only [if_neg hzero]
  rfl

/-! ## A newline at the end -/

theorem head_newline {c : UInt8} (hc : c ≠ 10) (fmt : Str) :
    ((fmt ++ [10]).head? = some c ↔ fmt.head? = some c) := by
  cases fmt with
  | nil => simpa using hc.symm
  | cons d fmt => rfl

theorem number_newline (n : ℤ) (fmt : Str) :
    number n (fmt ++ [10]) = ((number n fmt).1, (number n fmt).2 ++ [10]) := by
  induction fmt generalizing n with
  | nil => rfl
  | cons c fmt ih =>
    rw [List.cons_append, number, number]
    split
    · exact ih _
    · rfl

/-- Dropping what is at the front leaves the newline where it is. -/
theorem drop_newline {c : UInt8} {fmt : Str} (h : fmt.head? = some c) :
    (fmt ++ [10]).drop 1 = fmt.drop 1 ++ [10] := by
  cases fmt with
  | nil => cases h
  | cons d fmt => rfl

theorem field_newline (fmt : Str) :
    field (fmt ++ [10]) = ((field fmt).1, (field fmt).2 ++ [10]) := by
  rw [field, field]
  simp only [head_newline (by decide : (42 : UInt8) ≠ 10)]
  split
  next h => rw [drop_newline h]
  next => rw [number_newline]

theorem moreFields_newline (fuel : ℕ) (fmt : Str) :
    moreFields fuel (fmt ++ [10]) = ((moreFields fuel fmt).1, (moreFields fuel fmt).2 ++ [10]) := by
  induction fuel generalizing fmt with
  | zero => rfl
  | succ fuel ih =>
    rw [moreFields, moreFields]
    simp only [head_newline (by decide : (46 : UInt8) ≠ 10)]
    split
    next h => rw [drop_newline h, field_newline]; simp only [ih]
    next => rfl

theorem moreFields_fuel {fuel : ℕ} {fmt : Str} (h : fmt.length ≤ fuel) :
    moreFields fuel fmt = moreFields fmt.length fmt := by
  have hall : ∀ (n m : ℕ) (fmt : Str), fmt.length ≤ n → fmt.length ≤ m →
      moreFields n fmt = moreFields m fmt := by
    intro n
    induction n with
    | zero =>
      intro m fmt hn _
      obtain rfl : fmt = [] := List.length_eq_zero_iff.1 (Nat.le_zero.1 hn)
      exact (moreFields_none (by simp) m).symm
    | succ n ih =>
      intro m fmt hn hm
      cases m with
      | zero =>
        obtain rfl : fmt = [] := List.length_eq_zero_iff.1 (Nat.le_zero.1 hm)
        exact moreFields_none (by simp) _
      | succ m =>
        have hf := field_length (fmt.drop 1)
        rw [List.length_drop] at hf
        rw [moreFields, moreFields]
        simp only [ih m _ (show (field (fmt.drop 1)).2.length ≤ n by omega) (by omega)]
  exact hall _ _ _ h (Nat.le_refl _)

/-- The part of a directive in front of the conversion. -/
theorem drop_if_newline {c : UInt8} (hc : c ≠ 10) (fmt : Str) :
    (if ((fmt ++ [10]).head? == some c) = true then (fmt ++ [10]).drop 1 else fmt ++ [10]) =
      (if (fmt.head? == some c) = true then fmt.drop 1 else fmt) ++ [10] := by
  simp only [beq_iff_eq, head_newline hc]
  split
  next h => exact drop_newline h
  next => rfl

/-- A newline behind a directive that is not complete is its conversion, which takes nothing. -/
theorem directive_newline (fmt : Str) :
    (directive (fmt ++ [10])).1.kinds = (directive fmt).1.kinds ∧
    ((directive fmt).1.conv = 0 ∧ (directive (fmt ++ [10])).1.conv = 10 ∧
        (directive (fmt ++ [10])).2 = [] ∨
      (directive (fmt ++ [10])).1.conv = (directive fmt).1.conv ∧
        (directive (fmt ++ [10])).2 = (directive fmt).2 ++ [10]) := by
  simp only [directive, drop_if_newline (by decide : (48 : UInt8) ≠ 10),
    drop_if_newline (by decide : (45 : UInt8) ≠ 10), field_newline]
  set size := field (if ((if (fmt.head? == some 48) = true then fmt.drop 1 else fmt).head? ==
      some 45) = true then (if (fmt.head? == some 48) = true then fmt.drop 1 else fmt).drop 1
    else if (fmt.head? == some 48) = true then fmt.drop 1 else fmt)
  have hfuel : size.2.length ≤ (size.2 ++ [10]).length := by simp
  simp only [moreFields_newline, moreFields_fuel hfuel]
  set more := moreFields size.2.length size.2
  have hlong : ((more.2 ++ [10]).head? == some 108) = (more.2.head? == some 108) := by
    rw [Bool.eq_iff_iff, beq_iff_eq, beq_iff_eq, head_newline (by decide)]
  simp only [hlong, Directive.kinds]
  have hdrop := drop_if_newline (by decide : (108 : UInt8) ≠ 10) more.2
  rw [hlong] at hdrop
  rw [hdrop]
  cases (if (more.2.head? == some 108) = true then more.2.drop 1 else more.2) with
  | nil => exact ⟨by simp [convKinds, baseOf], .inl ⟨rfl, rfl, rfl⟩⟩
  | cons c rest => exact ⟨rfl, .inr ⟨rfl, rfl⟩⟩

/-- A newline behind a format takes no argument. -/
theorem kinds_newline (fmt : Str) : kinds (fmt ++ [10]) = kinds fmt := by
  induction hn : fmt.length using Nat.strong_induction_on generalizing fmt with
  | _ n ih =>
    cases fmt with
    | nil => rfl
    | cons c fmt =>
      rw [List.length_cons] at hn
      by_cases hc : c = 37
      · subst hc
        have hlen := directive_length fmt
        obtain ⟨hkinds, hend | ⟨hconv, hrest⟩⟩ := directive_newline fmt
        · obtain ⟨hzero, hten, hnil⟩ := hend
          rw [List.cons_append, kinds_percent, kinds_percent, hkinds, if_pos hzero, hten, hnil]
          rfl
        · rw [List.cons_append, kinds_percent, kinds_percent, hkinds, hconv, hrest]
          congr 1
          split
          next => rfl
          next =>
            split
            next =>
              cases hr : (directive fmt).2 with
              | nil => rfl
              | cons d rest =>
                rw [hr, List.length_cons] at hlen
                exact ih rest.length (by omega) rest rfl
            next => exact ih _ (by omega) _ rfl
      · rw [List.cons_append, kinds_cons hc, kinds_cons hc]
        exact ih fmt.length (by omega) fmt rfl

end Print
end BurdahDos
