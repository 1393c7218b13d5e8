import BurdahDos.Print.Sprintf
import Mathlib

/-!
# `sprintf` prints what standard C does

What the code prints for a piece is compared with `Piece.standard`, one piece at a time.  This is
enough for a whole format, since no text is longer than it should be.

* `sprintf_iff`: `sprintf` is correct where all pieces are `Good`, and only there, if no text is
  longer than its width by more than 32768 characters.
* `long_number_overruns`: the buffer `s` is too short for `-2147483648`.
-/

set_option autoImplicit false

namespace BurdahDos
namespace Print

/-! ## Texts -/

theorem expand_append (s t : Str) : expand (s ++ t) = expand s ++ expand t := List.flatMap_append

theorem expand_replicate {c : UInt8} (hc : c ≠ 10) (n : ℕ) :
    expand (List.replicate n c) = List.replicate n c := by
  induction n with
  | zero => rfl
  | succ n ih =>
    have hput : put c = [c] := by simp [put, handleChar, hc]
    rw [List.replicate_succ, expand, List.flatMap_cons, hput, ← expand, ih]
    rfl

theorem expand_sign (value : ℤ) : expand (sign value) = sign value := by
  rw [sign]
  split <;> rfl

theorem expand_filled (left : Bool) (n : ℕ) (s : Str) :
    expand (filled left n 32 s) = filled left n 32 (expand s) := by
  cases left with
  | true => simp [filled, expand_append, expand_replicate]
  | false => simp [filled, expand_append, expand_replicate]

theorem length_le_expand (s : Str) : s.length ≤ (expand s).length := by
  induction s with
  | nil => exact le_rfl
  | cons c s ih =>
    have hput : 1 ≤ (put c).length := by
      rw [put, handleChar]
      split <;> simp
    rw [expand, List.flatMap_cons, List.length_append, List.length_cons, ← expand]
    omega

theorem filled_length (left : Bool) (n : ℕ) (fill : UInt8) (s : Str) :
    (filled left n fill s).length = n + s.length := by
  cases left with
  | true => simp [filled, Nat.add_comm]
  | false => simp [filled]

/-- The precision counts down modulo 65536. -/
theorem putText_take {p : ℤ} (h : -32768 ≤ p) (h' : p ≤ 32767) (s : Str) :
    putText p s = expand (s.take (p % 65536).toNat) := by
  induction s generalizing p with
  | nil => simp [putText, expand]
  | cons c s ih =>
    rw [putText]
    split
    next hp => subst hp; rfl
    next hp =>
      have hr := int16_range (p - 1)
      have hk : (p % 65536).toNat = (int16 (p - 1) % 65536).toNat + 1 := by
        rw [int16, Int.bmod_def]
        split <;> omega
      rw [ih hr.1 hr.2, hk, List.take_succ_cons, expand, expand, List.flatMap_cons]

/-- A text in its field. -/
theorem outputOf_eq {w : ℤ} (hw : w.natAbs ≤ 32767) {s : Str} (hs : s.length ≤ w.natAbs + 32768)
    {p : ℤ} (h : -32768 ≤ p) (h' : p ≤ 32767) (zero minus : Bool) :
    outputOf zero minus w p s = filled (minus || decide (w < 0)) (w.natAbs - s.length)
      (if zero then 48 else 32) (expand (s.take (p % 65536).toNat)) := by
  have hw16 : int16 w = w := int16_eq (by omega) (by omega)
  have habs : (if int16 w < 0 then int16 (-int16 w) else int16 w) = w.natAbs := by
    rw [hw16]
    split
    next => rw [int16_eq (by omega) (by omega)]; omega
    next => omega
  have hsize : (int16 ((w.natAbs : ℤ) - s.length)).toNat = w.natAbs - s.length := by
    rw [int16_eq (by omega) (by omega)]
    omega
  rw [outputOf, outputString, habs, hw16, putText_take h h']
  simp only [hsize]
  rfl

/-! ## Pieces -/

/-- What holds of every piece that comes from arguments. -/
def Piece.Fits : Piece → Prop
  | .string _ _ precision _ => ∀ p : ℤ, precision = some p → -32768 ≤ p
  | .number _ _ base value => (numberText base value).length ≤ 33
  | _ => True

theorem take_range {f : Field} {args args' : List Arg} {n : ℤ}
    (h : f.take args = some (some n, args')) : -32768 ≤ n := by
  match f, args, h with
  | .digits ds, args, h =>
    have hn : (valueOf ds : ℤ) = n := Option.some.inj (Prod.mk.inj (Option.some.inj h)).1
    omega
  | .star, .int v :: args, h =>
    have hn : int16 v.toNat = n := Option.some.inj (Prod.mk.inj (Option.some.inj h)).1
    rw [← hn]
    exact (int16_range _).1

theorem piece_fits {i : Item} {args args' : List Arg} {p : Piece}
    (h : i.piece args = some (p, args')) : p.Fits := by
  cases i with
  | plain c =>
    obtain ⟨rfl, rfl⟩ := Prod.mk.inj (Option.some.inj h)
    trivial
  | percent =>
    obtain ⟨rfl, rfl⟩ := Prod.mk.inj (Option.some.inj h)
    trivial
  | char minus width =>
    rw [Item.piece] at h
    split at h
    next => obtain ⟨rfl, rfl⟩ := Prod.mk.inj (Option.some.inj h); trivial
    next => exact absurd h (by simp)
  | string minus width precision =>
    rw [Item.piece] at h
    split at h
    next => exact absurd h (by simp)
    next w args'' htake =>
      split at h
      next p s args''' hprec =>
        obtain ⟨rfl, rfl⟩ := Prod.mk.inj (Option.some.inj h)
        rintro n rfl
        exact take_range hprec
      next => exact absurd h (by simp)
  | number flag width long conv =>
    rw [Item.piece] at h
    split at h
    next => exact absurd h (by simp)
    next w args'' htake =>
      obtain ⟨r, hr, hp⟩ := Option.map_eq_some_iff.1 h
      obtain ⟨rfl, rfl⟩ := Prod.mk.inj hp
      obtain ⟨n, -, htext⟩ := currentArg_number hr
      rw [Piece.Fits, ← htext]
      exact ltob_length n _

theorem pieces_fits {items : List Item} {args : List Arg} {ps : List Piece}
    (h : pieces items args = some ps) : ∀ p ∈ ps, p.Fits := by
  induction items generalizing args ps with
  | nil =>
    obtain rfl : [] = ps := Option.some.inj h
    simp
  | cons i items ih =>
    rw [pieces] at h
    split at h
    next => exact absurd h (by simp)
    next p args' hp =>
      obtain ⟨qs, hqs, hps⟩ := Option.map_eq_some_iff.1 h
      intro q hq
      rw [← hps, List.mem_cons] at hq
      cases hq with
      | inl hq => exact hq ▸ piece_fits hp
      | inr hq => exact ih hqs q hq

/-- The characters that a precision lets through. -/
def counted (precision : Option ℤ) : ℕ := (precision16 precision % 65536).toNat

theorem precision16_range (precision : Option ℤ) :
    -32768 ≤ precision16 precision ∧ precision16 precision ≤ 32767 := by
  cases precision with
  | none => decide
  | some p => exact int16_range p

theorem take_cut (precision : Option ℤ) (s : Str) :
    s.take (counted precision) = (cut precision s).take (counted precision) := by
  cases precision with
  | none => rfl
  | some p =>
    rw [cut]
    split
    next => rfl
    next hp =>
      have hk : counted (some p) ≤ p.toNat := by
        rw [counted, precision16, int16, Int.bmod_def]
        split <;> omega
      rw [List.take_take, Nat.min_eq_left hk]

theorem string_printed {minus : Bool} {w : ℤ} {precision : Option ℤ} {s : Str}
    (hw : w.natAbs ≤ 32767) (hs : s.length ≤ w.natAbs + 32768) :
    (Piece.string minus w precision s).printed = filled (minus || decide (w < 0))
      (w.natAbs - s.length) 32 (expand ((cut precision s).take (counted precision))) := by
  obtain ⟨h, h'⟩ := precision16_range precision
  rw [Piece.printed, outputOf_eq hw hs h h', ← take_cut]
  rfl

theorem string_standard (minus : Bool) (w : ℤ) (precision : Option ℤ) (s : Str) :
    expand (Piece.string minus w precision s).standard = filled (minus || decide (w < 0))
      (w.natAbs - (cut precision s).length) 32 (expand (cut precision s)) := by
  rw [Piece.standard, pad, expand_filled]

/-- A text is cut and padded as it should be. -/
def Piece.Shown (w : ℤ) (precision : Option ℤ) (s : Str) : Prop :=
  (cut precision s).length ≤ counted precision ∧
    w.natAbs - s.length = w.natAbs - (cut precision s).length

theorem cut_length_le (precision : Option ℤ) (s : Str) : (cut precision s).length ≤ s.length := by
  cases precision with
  | none => exact le_rfl
  | some p =>
    rw [cut]
    split
    next => exact le_rfl
    next => rw [List.length_take]; exact Nat.min_le_right _ _

theorem shown_iff {minus : Bool} {w : ℤ} {precision : Option ℤ} {s : Str}
    (hs : s.length ≤ w.natAbs + 32768) (hfits : (Piece.string minus w precision s).Fits)
    (hcut : (cut precision s).length ≤ 32767) :
    Piece.Shown w precision s ↔ (Piece.string minus w precision s).Good := by
  cases precision with
  | none =>
    have hk : counted none = 65535 := rfl
    have hlen : s.length ≤ 32767 := hcut
    refine ⟨fun _ => ⟨hs, fun p hp => absurd hp (by simp)⟩, fun _ => ⟨?_, rfl⟩⟩
    rw [hk]
    exact hlen.trans (by decide)
  | some p =>
    have hp := hfits p rfl
    have hk : (counted (some p) : ℤ) = p % 65536 := by
      rw [counted, precision16, int16, Int.bmod_def]
      split <;> omega
    by_cases hneg : p < 0
    · have hcs : cut (some p) s = s := if_pos hneg
      rw [Piece.Shown, hcs]
      rw [hcs] at hcut
      refine ⟨fun _ => ⟨hs, fun q hq hq0 => ?_⟩, fun _ => ⟨by omega, rfl⟩⟩
      have := Option.some.inj hq
      omega
    · have hcs : (cut (some p) s).length = min p.toNat s.length := by
        rw [cut, if_neg hneg, List.length_take]
      rw [Piece.Shown, hcs]
      constructor
      · rintro ⟨hcount, hpad⟩
        refine ⟨hs, fun q hq hq0 => ?_⟩
        obtain rfl : p = q := Option.some.inj hq
        exact ⟨by omega, by omega⟩
      · rintro ⟨-, h⟩
        have := h p rfl (by omega)
        exact ⟨by omega, by omega⟩

/-- A field is not longer than what is in it. -/
theorem standard_width {left : Bool} {n w : ℕ} {fill : UInt8} {s : Str} (hn : n = w - s.length)
    (h : (filled left n fill (expand s)).length ≤ 32767) : w ≤ 32767 ∧ s.length ≤ 32767 := by
  have := length_le_expand s
  rw [filled_length] at h
  omega

theorem expand_take_length (s : Str) (k : ℕ) :
    (expand (s.take k)).length + (s.length - k) ≤ (expand s).length := by
  have hsplit := expand_append (s.take k) (s.drop k)
  have hdrop := length_le_expand (s.drop k)
  rw [List.take_append_drop] at hsplit
  rw [hsplit, List.length_append]
  rw [List.length_drop] at hdrop
  omega

section strings

variable {minus : Bool} {w : ℤ} {precision : Option ℤ} {s : Str}

theorem string_good (hgood : (Piece.string minus w precision s).Good)
    (hfits : (Piece.string minus w precision s).Fits)
    (hstd : (expand (Piece.string minus w precision s).standard).length ≤ 32767) :
    (Piece.string minus w precision s).printed =
      expand (Piece.string minus w precision s).standard := by
  rw [string_standard] at hstd
  obtain ⟨hw, hcut⟩ := standard_width rfl hstd
  obtain ⟨hcount, hpad⟩ := (shown_iff hgood.1 hfits hcut).2 hgood
  rw [string_standard, string_printed hw hgood.1, List.take_of_length_le hcount, hpad]

theorem string_length_le (hs : s.length ≤ w.natAbs + 32768)
    (hstd : (expand (Piece.string minus w precision s).standard).length ≤ 32767) :
    (Piece.string minus w precision s).printed.length ≤
      (expand (Piece.string minus w precision s).standard).length := by
  rw [string_standard] at hstd ⊢
  have hw := (standard_width rfl hstd).1
  have hle := cut_length_le precision s
  have htake := expand_take_length (cut precision s) (counted precision)
  rw [string_printed hw hs, filled_length, filled_length]
  omega

theorem string_shown (hs : s.length ≤ w.natAbs + 32768)
    (hfits : (Piece.string minus w precision s).Fits)
    (hstd : (expand (Piece.string minus w precision s).standard).length ≤ 32767)
    (h : (Piece.string minus w precision s).printed =
      expand (Piece.string minus w precision s).standard) :
    (Piece.string minus w precision s).Good := by
  rw [string_standard] at hstd h
  obtain ⟨hw, hcut⟩ := standard_width rfl hstd
  have hle := cut_length_le precision s
  have htake := expand_take_length (cut precision s) (counted precision)
  have hlen := congrArg List.length h
  rw [string_printed hw hs, filled_length, filled_length] at hlen
  refine (shown_iff hs hfits hcut).1 ⟨?_, ?_⟩ <;> omega

end strings

section numbers

variable {flag : Flag} {w value : ℤ} {base : ℕ}

theorem number_printed (hw : w.natAbs ≤ 32767) (hfits : (numberText base value).length ≤ 33) :
    (Piece.number flag w base value).printed = filled (flag == .minus || decide (w < 0))
      (w.natAbs - (numberText base value).length) (if flag == .zero then 48 else 32)
      (expand (numberText base value)) := by
  have htake : (numberText base value).take ((-1 : ℤ) % 65536).toNat = numberText base value :=
    List.take_of_length_le (hfits.trans (by decide))
  rw [Piece.printed, outputOf_eq hw (by omega) (by decide) (by decide), htake]

theorem number_standard_zero (hflag : flag = .zero) (hw : 0 ≤ w) :
    expand (Piece.number flag w base value).standard = sign value ++
      (List.replicate (w.natAbs - (numberText base value).length) 48 ++
        expand (numeral base value.natAbs)) := by
  rw [Piece.standard]
  simp only [if_pos (And.intro hflag hw)]
  rw [expand_append, expand_append, expand_sign, expand_replicate (by decide)]

theorem number_standard (h : ¬ (flag = .zero ∧ 0 ≤ w)) :
    expand (Piece.number flag w base value).standard = filled (flag == .minus || decide (w < 0))
      (w.natAbs - (numberText base value).length) 32 (expand (numberText base value)) := by
  rw [Piece.standard]
  simp only [if_neg h, pad, expand_filled]

theorem number_standard_length :
    (expand (Piece.number flag w base value).standard).length =
      w.natAbs - (numberText base value).length + (expand (numberText base value)).length := by
  by_cases h : flag = .zero ∧ 0 ≤ w
  · rw [number_standard_zero h.1 h.2, numberText, expand_append, expand_sign]
    simp only [List.length_append, List.length_replicate]
    omega
  · rw [number_standard h, filled_length]

theorem number_width (hstd : (expand (Piece.number flag w base value).standard).length ≤ 32767) :
    w.natAbs ≤ 32767 := by
  have := length_le_expand (numberText base value)
  rw [number_standard_length] at hstd
  omega

/-- Zeros are before a sign, and in the place of blanks that are on the right. -/
theorem number_eq_iff (hfits : (numberText base value).length ≤ 33)
    (hstd : (expand (Piece.number flag w base value).standard).length ≤ 32767) :
    (Piece.number flag w base value).printed = expand (Piece.number flag w base value).standard ↔
      (flag = .zero → (numberText base value).length < w.natAbs → 0 ≤ value ∧ 0 ≤ w) := by
  rw [number_printed (number_width hstd) hfits]
  by_cases hflag : flag = .zero
  · subst hflag
    have hfill : (if Flag.zero == .zero then (48 : UInt8) else 32) = 48 := rfl
    have hlt : (numberText base value).length < w.natAbs ↔
        0 < w.natAbs - (numberText base value).length := by omega
    rw [hfill, hlt]
    generalize hn : w.natAbs - (numberText base value).length = n
    by_cases hw : 0 ≤ w
    · have hleft : (Flag.zero == .minus || decide (w < 0)) = false := by
        rw [decide_eq_false (by omega)]
        rfl
      rw [number_standard_zero rfl hw, hn, hleft, numberText, expand_append, expand_sign]
      by_cases hvalue : value < 0
      · rw [sign, if_pos hvalue]
        cases n with
        | zero => exact ⟨fun _ _ h => absurd h (by decide), fun _ => rfl⟩
        | succ n =>
          refine ⟨fun h => ?_, fun h => ?_⟩
          · have hhead : (48 : UInt8) = 45 := (List.cons.inj h).1
            exact absurd hhead (by decide)
          · have := (h rfl (Nat.succ_pos n)).1
            omega
      · rw [sign, if_neg hvalue]
        exact ⟨fun _ _ _ => ⟨by omega, hw⟩, fun _ => rfl⟩
    · have hleft : (Flag.zero == .minus || decide (w < 0)) = true := by
        rw [decide_eq_true (by omega)]
        rfl
      rw [number_standard (fun h => hw h.2), hn, hleft]
      cases n with
      | zero => exact ⟨fun _ _ h => absurd h (by decide), fun _ => rfl⟩
      | succ n =>
        refine ⟨fun h => ?_, fun h => ?_⟩
        · have hfills := List.append_cancel_left h
          have hhead : (48 : UInt8) = 32 := (List.cons.inj hfills).1
          exact absurd hhead (by decide)
        · have := (h rfl (Nat.succ_pos n)).2
          omega
  · have hfill : (if flag == .zero then (48 : UInt8) else 32) = 32 := by
      rw [if_neg (by simpa using hflag)]
    rw [number_standard (fun h => hflag h.1), hfill]
    exact ⟨fun _ h => absurd h hflag, fun _ => rfl⟩

end numbers

section chars

variable {minus : Bool} {w : ℤ} {v : UInt16}

theorem char_standard :
    expand (Piece.char minus w v).standard = filled (minus || decide (w < 0)) (w.natAbs - 1) 32
      (put (UInt8.ofNat v.toNat)) := by
  rw [Piece.standard, pad, expand_filled]
  simp [expand]

theorem put_length (c : UInt8) : (put c).length = if c = 10 then 2 else 1 := by
  rw [put, handleChar]
  by_cases hc : c = 10 <;> simp [hc]

theorem char_length (newline : Bool) (c : UInt8) :
    (handleChar newline c).length = if newline then 2 else 1 := by
  cases newline <;> rfl

theorem char_length_le : (Piece.char minus w v).printed.length ≤
    (expand (Piece.char minus w v).standard).length := by
  rw [char_standard, filled_length, put_length, Piece.printed, char_length]
  by_cases hv : v = 10
  · subst hv
    exact Nat.le_add_left _ _
  · rw [if_neg (by simpa using hv)]
    split <;> omega

/-- There is no width for a character, and only 10 is taken as a newline. -/
theorem char_eq_iff : (Piece.char minus w v).printed = expand (Piece.char minus w v).standard ↔
    (Piece.char minus w v).Good := by
  constructor
  · intro h
    have hlen := congrArg List.length h
    rw [char_standard, filled_length, put_length, Piece.printed, char_length] at hlen
    by_cases hv : v = 10
    · subst hv
      have : w.natAbs - 1 + 2 = 2 := hlen.symm
      exact ⟨by omega, fun _ => rfl⟩
    · rw [if_neg (by simpa using hv)] at hlen
      split at hlen
      next => omega
      next h10 => exact ⟨by omega, fun h => absurd h h10⟩
  · rintro ⟨hw, hnewline⟩
    have hn : w.natAbs - 1 = 0 := by omega
    have hput : (v == 10) = (UInt8.ofNat v.toNat == 10) := by
      rw [Bool.eq_iff_iff, beq_iff_eq, beq_iff_eq]
      exact ⟨fun h => h ▸ rfl, hnewline⟩
    rw [char_standard, hn, Piece.printed, hput, put]
    cases minus || decide (w < 0) <;> simp [filled]

end chars

/-! ## Whole formats -/

section pieces

variable {p : Piece}

/-- A good piece is printed as it should be. -/
theorem printed_good (hgood : p.Good) (hfits : p.Fits) (hstd : (expand p.standard).length ≤ 32767) :
    p.printed = expand p.standard ∧ p.overruns = false := by
  cases p with
  | plain c => exact ⟨(List.append_nil _).symm, rfl⟩
  | char minus w v => exact ⟨char_eq_iff.2 hgood, rfl⟩
  | string minus w precision s => exact ⟨string_good hgood hfits hstd, rfl⟩
  | number flag w base value =>
    refine ⟨(number_eq_iff hfits hstd).2 hgood.2, decide_eq_false ?_⟩
    have := hgood.1
    rw [bufferSize]
    omega

/-- Nothing is printed longer than it should be. -/
theorem printed_length_le (hshort : p.Short) (hfits : p.Fits)
    (hstd : (expand p.standard).length ≤ 32767) :
    p.printed.length ≤ (expand p.standard).length := by
  cases p with
  | plain c => exact le_of_eq (congrArg List.length (List.append_nil _).symm)
  | char minus w v => exact char_length_le
  | string minus w precision s => exact string_length_le hshort hstd
  | number flag w base value =>
    rw [number_printed (number_width hstd) hfits, filled_length, number_standard_length]

/-- A piece that is printed as it should be is good. -/
theorem good_of_printed (hshort : p.Short) (hfits : p.Fits)
    (hstd : (expand p.standard).length ≤ 32767) (h : p.printed = expand p.standard)
    (ho : p.overruns = false) : p.Good := by
  cases p with
  | plain c => trivial
  | char minus w v => exact char_eq_iff.1 h
  | string minus w precision s => exact string_shown hshort hfits hstd h
  | number flag w base value =>
    refine ⟨?_, (number_eq_iff hfits hstd).1 h⟩
    have := of_decide_eq_false ho
    rw [bufferSize] at this
    omega

end pieces

theorem standardText_eq (ps : List Piece) :
    standardText ps = ps.flatMap fun p => expand p.standard := by
  rw [standardText, expand, List.flatMap_assoc]
  rfl

theorem length_le_flatMap {α : Type} {f : α → Str} {l : List α} {a : α} (ha : a ∈ l) :
    (f a).length ≤ (l.flatMap f).length := by
  induction l with
  | nil => exact absurd ha (by simp)
  | cons b l ih =>
    rw [List.flatMap_cons, List.length_append]
    cases List.mem_cons.1 ha with
    | inl h => rw [h]; exact Nat.le_add_right _ _
    | inr h => exact (ih h).trans (Nat.le_add_left _ _)

/-- Where no part is too long, the whole determines the parts. -/
theorem flatMap_parts {α : Type} {f g : α → Str} {l : List α}
    (hle : ∀ a ∈ l, (f a).length ≤ (g a).length) (h : l.flatMap f = l.flatMap g) :
    ∀ a ∈ l, f a = g a := by
  have hlengths : ∀ l : List α, (∀ a ∈ l, (f a).length ≤ (g a).length) →
      (l.flatMap f).length ≤ (l.flatMap g).length := by
    intro l hl
    induction l with
    | nil => exact le_rfl
    | cons a l ih =>
      have := ih fun b hb => hl b (List.mem_cons_of_mem a hb)
      have := hl a List.mem_cons_self
      rw [List.flatMap_cons, List.flatMap_cons, List.length_append, List.length_append]
      omega
  induction l with
  | nil => simp
  | cons a l ih =>
    have htail : ∀ b ∈ l, (f b).length ≤ (g b).length :=
      fun b hb => hle b (List.mem_cons_of_mem a hb)
    rw [List.flatMap_cons, List.flatMap_cons] at h
    have hlen := congrArg List.length h
    rw [List.length_append, List.length_append] at hlen
    have hhead : (f a).length = (g a).length := by
      have := hle a List.mem_cons_self
      have := hlengths l htail
      omega
    obtain ⟨ha, hl⟩ := List.append_inj h hhead
    intro b hb
    cases List.mem_cons.1 hb with
    | inl hb => rw [hb, ha]
    | inr hb => exact ih htail hl b hb

/-- **`sprintf` is correct where all pieces are good**, and, as long as no text is longer than its
width by more than 32768 characters, only there. -/
theorem sprintf_iff {items : List Item} (hok : ∀ i ∈ items, i.Ok) {args : List Arg}
    {ps : List Piece} (hargs : pieces items args = some ps) :
    (Good ps → Correct items args ps) ∧
      ((∀ p ∈ ps, p.Short) → Correct items args ps → Good ps) := by
  have hfits := pieces_fits hargs
  have hprinted := sprintf_items hok hargs
  have hpart : (standardText ps).length ≤ 32767 → ∀ p ∈ ps, (expand p.standard).length ≤ 32767 := by
    intro hlen p hp
    rw [standardText_eq] at hlen
    exact (length_le_flatMap (f := fun p : Piece => expand p.standard) hp).trans hlen
  constructor
  · rintro ⟨hgood, hlen⟩
    have hall : ∀ p ∈ ps, p.printed = expand p.standard ∧ p.overruns = false :=
      fun p hp => printed_good (hgood p hp) (hfits p hp) (hpart hlen p hp)
    have htext : ps.flatMap Piece.printed = standardText ps := by
      rw [standardText_eq]
      exact List.flatMap_congr fun p hp => (hall p hp).1
    have hret : int16 (standardText ps).length = (standardText ps).length :=
      int16_eq (by omega) (by omega)
    have hover : ps.any Piece.overruns = false :=
      List.any_eq_false.2 fun p hp => by simp [(hall p hp).2]
    rw [htext, hret, hover] at hprinted
    exact ⟨_, hprinted, rfl, rfl, rfl⟩
  · rintro hshort ⟨r, hr, hbuff, hret, hout⟩
    rw [hprinted, Option.some_inj] at hr
    rw [← hr] at hbuff hret hout
    simp only at hbuff hret hout
    have htext : ps.flatMap Piece.printed = standardText ps := List.append_cancel_right hbuff
    have hlen : (standardText ps).length ≤ 32767 := by
      have hrange := (int16_range (ps.flatMap Piece.printed).length).2
      omega
    have hparts := flatMap_parts (g := fun p : Piece => expand p.standard)
      (fun p hp => printed_length_le (hshort p hp) (hfits p hp) (hpart hlen p hp))
      (htext.trans (standardText_eq ps))
    have hover : ∀ p ∈ ps, p.overruns = false := by
      intro p hp
      have := List.any_eq_false.1 hout p hp
      simpa using this
    exact ⟨fun p hp => good_of_printed (hshort p hp) (hfits p hp) (hpart hlen p hp) (hparts p hp)
      (hover p hp), hlen⟩

/-- `%-3s|%04x` -/
theorem sprintf_padded : Correct
    [.string true (.digits [51]) .absent, .plain 124, .number .zero (.digits [52]) false .x]
    [.str [65, 66], .int 255]
    [.string true 3 none [65, 66], .plain 124, .number .zero 4 16 255] := by
  refine (sprintf_iff ?_ rfl).1 ⟨?_, by decide⟩
  · simp [Item.Ok, Field.WidthOk, Field.PrecisionOk, isDigit]
  · simp [Piece.Good, numberText, sign, numeral]

/-- `%ld` with -2147483648: eleven characters and a NUL are stored in eleven bytes. -/
theorem long_number_overruns : ¬ ∀ (items : List Item) (args : List Arg) (ps : List Piece),
    (∀ i ∈ items, i.Ok) → pieces items args = some ps → Correct items args ps := by
  intro h
  have hargs : pieces [.number .none .absent true .d] [.long 0x80000000] =
      some [.number .none 0 10 (-2147483648)] := by
    simp [pieces, Item.piece, Field.take, numberArg, Conv.signed, Conv.base]
  obtain ⟨r, hr, -, -, hout⟩ := h [.number .none .absent true .d] [.long 0x80000000]
    [.number .none 0 10 (-2147483648)] (by simp [Item.Ok, Field.WidthOk]) hargs
  have hover : (sprintf [37, 108, 100] [.long 0x80000000]).map Printed.outside = some true := by
    decide
  have htext : ([.number .none .absent true .d] : List Item).flatMap Item.render = [37, 108, 100] :=
    rfl
  rw [← htext, hr, Option.map_some, hout] at hover
  exact absurd hover (by decide)

/-- `%05d` with -1 gives `000-1`. -/
example : (sprintf [37, 48, 53, 100] [.int 0xffff]).map Printed.buff =
    some [48, 48, 48, 45, 49, 0] := by decide

/-- `%5.2s` with `abcd` gives ` ab`. -/
example : (sprintf [37, 53, 46, 50, 115] [.str [97, 98, 99, 100]]).map Printed.buff =
    some [32, 97, 98, 0] := by decide

end Print
end BurdahDos
