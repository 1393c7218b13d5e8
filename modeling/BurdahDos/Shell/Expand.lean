import BurdahDos.Shell.Read
import Mathlib

/-!
# Substitutions in a command line

`expandEnvVars` of `portal/shell/command.c`.  The input is read by its position, and a read behind
its final NUL is a `fault`; of the buffer there is what stands in front of `cp`, and how many of
its bytes have been stored to at most.  Pointers are compared as integers.

`pieces` takes an input apart and knows no bounds.  The code fills its buffer with the pieces in
order (`expandEnvLoop_fill`), and there is one way to too long a line, by `expandEnvVars_fits_iff`:
the number of `%ERRORLEVEL%` is not checked, and the check of the loop does not come after the last
piece.
-/

set_option autoImplicit false

namespace BurdahDos
namespace Shell

/-! ## What is substituted -/

/-- `MAX_INTERNAL_COMMAND_SIZE` -/
def maxInternalCommandSize : ℕ := 256

/-- The size of the buffers of the callers, with `sizeof(errorlevel) * 8` bytes in reserve. -/
def parsedSize : ℕ := maxInternalCommandSize + 2 * 8

/-- What the substitutions are taken from. -/
structure Substs where
  /-- `activeBatchContext()` -/
  batch : Option Context
  getEnv : Str → Option Str
  cwd : Option Str
  errorlevel : UInt16

/-- `find_arg` -/
def Substs.findArg (e : Substs) (n : ℕ) : Option Str := e.batch.bind fun b => Shell.findArg b n

/-- `sprintf(cp, "%u", errorlevel)` -/
def Substs.number (e : Substs) : Str :=
  (Nat.toDigits 10 e.errorlevel.toNat).map fun c => UInt8.ofNat c.toNat

/-- The bytes of a word. -/
def word (s : String) : Str := s.toList.map fun c => UInt8.ofNat c.toNat

/-- `matchtok`, for a word in lower case. -/
def matchtok (s w : Str) : Bool :=
  (s.take w.length).map tolower == w && (s.drop w.length).head?.all isargdelim

/-- `'0'` to `'9'` -/
def isDigit (c : UInt8) : Bool := 48 ≤ c && c ≤ 57

/-! ## `expandEnvVars` -/

/-- `ip[i]`, if that is not behind the NUL. -/
def byteAt (input : Str) (i : ℕ) : Option UInt8 := (input ++ [0])[i]?

/-- `strchr` -/
def strchr (input : Str) (ip : ℕ) (c : UInt8) : Option ℕ :=
  if c ∈ input.drop ip then some (ip + ((input.drop ip).takeWhile (· != c)).length) else none

/-- The variables of `expandEnvVars`. -/
structure Expanding where
  ip : ℕ
  /-- What is in the buffer in front of `cp`. -/
  line : Str
  /-- The number of bytes of the buffer up to the last one stored to. -/
  stored : ℕ
deriving DecidableEq

/-- `*cp++ = c;` -/
def Expanding.putc (x : Expanding) (c : UInt8) : Expanding :=
  { x with line := x.line ++ [c], stored := max x.stored (x.line.length + 1) }

/-- `cp = stpcpy(cp, s);`, with a NUL behind it. -/
def Expanding.puts (x : Expanding) (s : Str) : Expanding :=
  { x with line := x.line ++ s, stored := max x.stored (x.line.length + s.length + 1) }

/-- `cp >= parsedMax(n)` -/
def Expanding.over (x : Expanding) (n : ℕ) : Bool := maxInternalCommandSize - 1 ≤ x.line.length + n

/-- What `expandEnvVars` returns, with the bytes stored to. -/
inductive Expanded where
  /-- There was a read behind the end of the input. -/
  | fault
  | zero (stored : ℕ)
  | one (line : Str) (stored : ℕ)
deriving DecidableEq

inductive ExpandTurn where
  | again (x : Expanding)
  | done (r : Expanded)

/-- A string is put in if it fits. -/
def insert (s : Str) (ip : ℕ) (x : Expanding) : ExpandTurn :=
  if x.over s.length then .done (.zero x.stored) else .again { x.puts s with ip := ip }

/-- A name between percent signs, with the input going on at `ip`. -/
def variableTurn (e : Substs) (name : Str) (ip : ℕ) (x : Expanding) : ExpandTurn :=
  match e.getEnv name with
  | some evar => insert evar ip x
  | none =>
    if matchtok name (word "errorlevel") then .again { x.puts e.number with ip := ip }
    else if matchtok name (word "_cwd") || matchtok name (word "cd") then
      match e.cwd with
      | none => .done (.zero x.stored)
      | some evar => insert evar ip x
    else .again { x with ip := ip }

/-- A percent sign at `ip`. -/
def percentTurn (e : Substs) (input : Str) (x : Expanding) : ExpandTurn :=
  match byteAt input (x.ip + 1) with
  | none => .done .fault
  | some c =>
    if c = 0 then .again { x.putc 37 with ip := x.ip + 1 }
    else if c = 37 then .again { x.putc 37 with ip := x.ip + 2 }
    else if isDigit c then
      match e.findArg (c.toNat - 48) with
      | some tp => insert tp (x.ip + 2) x
      | none => .again { x.putc 37 with ip := x.ip + 1 }
    else
      match strchr input (x.ip + 1) 37 with
      | some tp =>
        variableTurn e ((input.drop (x.ip + 1)).take (tp - (x.ip + 1))) (tp + 1) x
      | none => .again { x with ip := x.ip + 1 }

/-- A turn of the loop, or what comes behind it. -/
def expandTurn (e : Substs) (input : Str) (x : Expanding) : ExpandTurn :=
  match byteAt input x.ip with
  | none => .done .fault
  | some c =>
    if c = 0 then .done (.one x.line (max x.stored (x.line.length + 1)))
    else if x.over 1 then .done (.zero x.stored)
    else if c = 37 then percentTurn e input x
    else .again { x.putc c with ip := x.ip + 1 }

/-- The loop, of `fuel` turns at most. -/
def expandEnvLoop (e : Substs) (input : Str) : ℕ → Expanding → Option Expanded
  | 0, _ => none
  | fuel + 1, x =>
    match expandTurn e input x with
    | .done r => some r
    | .again x => expandEnvLoop e input fuel x

/-- `expandEnvVars` -/
def expandEnvVars (fuel : ℕ) (e : Substs) (input : Str) : Option Expanded :=
  expandEnvLoop e input fuel ⟨0, [], 0⟩

/-! ## The pieces of an input -/

/-- What one substitution, or one character, comes to. -/
inductive Piece where
  | byte (c : UInt8)
  /-- A string that is checked to fit. -/
  | checked (s : Str)
  /-- `%ERRORLEVEL%` -/
  | number
  /-- An unknown variable, or a percent sign that is dropped. -/
  | empty
  /-- The current directory cannot be told. -/
  | failure
deriving DecidableEq

/-- What a piece puts into the line. -/
def Piece.text (e : Substs) : Piece → Str
  | .byte c => [c]
  | .checked s => s
  | .number => e.number
  | .empty => []
  | .failure => []

/-- The name of a variable between percent signs. -/
def variablePiece (e : Substs) (name : Str) : Piece :=
  match e.getEnv name with
  | some evar => .checked evar
  | none =>
    if matchtok name (word "errorlevel") then .number
    else if matchtok name (word "_cwd") || matchtok name (word "cd") then
      match e.cwd with
      | none => .failure
      | some evar => .checked evar
    else .empty

/-- The piece that starts with a percent sign, and the input behind it. -/
def percentPiece (e : Substs) : Str → Piece × Str
  | [] => (.byte 37, [])
  | c :: rest =>
    if c = 37 then (.byte 37, rest)
    else if isDigit c then
      match e.findArg (c.toNat - 48) with
      | some tp => (.checked tp, rest)
      | none => (.byte 37, c :: rest)
    else if 37 ∈ c :: rest then
      (variablePiece e ((c :: rest).takeWhile (· != 37)), ((c :: rest).dropWhile (· != 37)).tail)
    else (.empty, c :: rest)

theorem percentPiece_length_le (e : Substs) (s : Str) : (percentPiece e s).2.length ≤ s.length := by
  cases s with
  | nil => exact le_rfl
  | cons c rest =>
    rw [percentPiece]
    split_ifs
    · exact Nat.le_succ _
    · split
      · exact Nat.le_succ _
      · exact le_rfl
    · rw [List.length_tail]
      exact le_trans (Nat.sub_le _ _) (List.dropWhile_sublist _).length_le
    · exact le_rfl

/-- The pieces of an input. -/
def pieces (e : Substs) : Str → List Piece
  | [] => []
  | c :: rest =>
    if c = 37 then (percentPiece e rest).1 :: pieces e (percentPiece e rest).2
    else .byte c :: pieces e rest
termination_by s => s.length
decreasing_by
  · exact Nat.lt_succ_of_le (percentPiece_length_le e rest)
  · exact Nat.lt_succ_self _

/-- The line that pieces come to. -/
def textOf (e : Substs) (ps : List Piece) : Str := ps.flatMap (Piece.text e)

/-- A piece is put into the buffer, with the check of the code. -/
def Piece.put (e : Substs) (line : Str) : Piece → Option Str
  | .byte c => some (line ++ [c])
  | .checked s => if maxInternalCommandSize - 1 ≤ line.length + s.length then none else some (line ++ s)
  | .number => some (line ++ e.number)
  | .empty => some line
  | .failure => none

/-- The buffer is filled with pieces, as long as there is room for one character more. -/
def fillLine (e : Substs) : Str → List Piece → Option Str
  | line, [] => some line
  | line, p :: ps =>
    if maxInternalCommandSize - 1 ≤ line.length + 1 then none
    else (p.put e line).bind fun line => fillLine e line ps

/-! ## The code takes the input piece by piece -/

theorem byteAt_lt {input : Str} {i : ℕ} {c : UInt8} {rest : Str} (h : input.drop i = c :: rest) :
    byteAt input i = some c ∧ i < input.length ∧ input.drop (i + 1) = rest := by
  have hi : i < input.length := by
    by_contra hi
    rw [List.drop_eq_nil_of_le (by omega)] at h
    cases h
  rw [List.drop_eq_getElem_cons hi] at h
  injection h with hc hrest
  refine ⟨?_, hi, hrest⟩
  rw [byteAt, List.getElem?_append_left hi, List.getElem?_eq_getElem hi, hc]

theorem byteAt_end {input : Str} {i : ℕ} (hi : i ≤ input.length) (h : input.drop i = []) :
    byteAt input i = some 0 := by
  have heq : i = input.length := le_antisymm hi (List.drop_eq_nil_iff.1 h)
  rw [byteAt, heq, List.getElem?_append_right le_rfl, Nat.sub_self]
  rfl

theorem ne_zero_of_drop {input rest : Str} {i : ℕ} {c : UInt8} (hnul : 0 ∉ input)
    (h : input.drop i = c :: rest) : c ≠ 0 := by
  rintro rfl
  exact hnul (List.mem_of_mem_drop (i := i) (by rw [h]; exact List.mem_cons_self))

/-- What a turn does with a piece, where the input goes on at `ip`. -/
def place (e : Substs) (ip : ℕ) (x : Expanding) : Piece → ExpandTurn
  | .byte c => .again { x.putc c with ip := ip }
  | .checked s => insert s ip x
  | .number => .again { x.puts e.number with ip := ip }
  | .empty => .again { x with ip := ip }
  | .failure => .done (.zero x.stored)

theorem variableTurn_eq (e : Substs) (name : Str) (ip : ℕ) (x : Expanding) :
    variableTurn e name ip x = place e ip x (variablePiece e name) := by
  rw [variableTurn, variablePiece]
  cases e.getEnv name with
  | some evar => rfl
  | none =>
    simp only
    split_ifs
    · rfl
    · cases e.cwd <;> rfl
    · rfl

/-- A percent sign that is found parts the name from the rest. -/
theorem strchr_some {input : Str} {ip : ℕ} (hmem : 37 ∈ input.drop ip) :
    ∃ tp, strchr input ip 37 = some tp ∧ ip ≤ tp ∧ tp < input.length ∧
      (input.drop ip).take (tp - ip) = (input.drop ip).takeWhile (· != 37) ∧
      input.drop (tp + 1) = ((input.drop ip).dropWhile (· != 37)).tail := by
  obtain ⟨name, hname⟩ : ∃ name, name = (input.drop ip).takeWhile (· != 37) := ⟨_, rfl⟩
  obtain ⟨rest, hrest⟩ : ∃ rest, rest = (input.drop ip).dropWhile (· != 37) := ⟨_, rfl⟩
  have hsplit : input.drop ip = name ++ rest := by
    rw [hname, hrest, List.takeWhile_append_dropWhile]
  have hne : rest ≠ [] := by
    rintro rfl
    rw [hsplit, List.append_nil, hname] at hmem
    simpa using List.mem_takeWhile_imp hmem
  refine ⟨ip + name.length, by rw [strchr, if_pos hmem, hname], by omega, ?_, ?_, ?_⟩
  · have hpos := List.length_pos_of_ne_nil hne
    have hlen := congrArg List.length hsplit
    rw [List.length_append, List.length_drop] at hlen
    omega
  · rw [Nat.add_sub_cancel_left, ← hname, hsplit, List.take_left]
  · rw [← hrest, Nat.add_assoc, ← List.drop_drop, hsplit, ← List.drop_drop, List.drop_left, List.drop_one]

theorem percentTurn_eq (e : Substs) {input : Str} (hnul : 0 ∉ input) {x : Expanding}
    (hip : x.ip < input.length) :
    ∃ ip', x.ip < ip' ∧ ip' ≤ input.length ∧
      (percentPiece e (input.drop (x.ip + 1))).2 = input.drop ip' ∧
      percentTurn e input x = place e ip' x (percentPiece e (input.drop (x.ip + 1))).1 := by
  rw [percentTurn]
  cases hrest : input.drop (x.ip + 1) with
  | nil =>
    rw [byteAt_end (by omega) hrest]
    exact ⟨x.ip + 1, by omega, by omega, hrest.symm, rfl⟩
  | cons c rest =>
    obtain ⟨hbyte, hlt, hnext⟩ := byteAt_lt hrest
    have hc := ne_zero_of_drop hnul hrest
    rw [hbyte, percentPiece]
    simp only
    rw [if_neg hc]
    split_ifs with h37 hdigit hmem
    · exact ⟨x.ip + 2, by omega, by omega, hnext.symm, rfl⟩
    · cases e.findArg (c.toNat - 48) with
      | some tp => exact ⟨x.ip + 2, by omega, by omega, hnext.symm, rfl⟩
      | none => exact ⟨x.ip + 1, by omega, by omega, hrest.symm, rfl⟩
    · rw [← hrest] at hmem
      obtain ⟨tp, hstrchr, hle, htp, htake, htail⟩ := strchr_some hmem
      rw [hstrchr]
      simp only
      rw [← hrest, htake, variableTurn_eq]
      exact ⟨tp + 1, by omega, htp, htail.symm, rfl⟩
    · rw [strchr, hrest, if_neg hmem]
      exact ⟨x.ip + 1, by omega, by omega, hrest.symm, rfl⟩

theorem expandTurn_eq (e : Substs) {input : Str} (hnul : 0 ∉ input) {x : Expanding}
    (hip : x.ip < input.length) (hover : x.over 1 = false) :
    ∃ p ip', x.ip < ip' ∧ ip' ≤ input.length ∧
      pieces e (input.drop x.ip) = p :: pieces e (input.drop ip') ∧
      expandTurn e input x = place e ip' x p := by
  cases hrest : input.drop x.ip with
  | nil => exact absurd (List.drop_eq_nil_iff.1 hrest) (by omega)
  | cons c rest =>
    obtain ⟨hbyte, -, hnext⟩ := byteAt_lt hrest
    have hc := ne_zero_of_drop hnul hrest
    rw [expandTurn, hbyte, pieces]
    simp only
    rw [if_neg hc, hover, if_neg Bool.false_ne_true]
    split_ifs with h37
    · obtain ⟨ip', hlt, hle, hrest', hturn⟩ := percentTurn_eq e hnul hip
      rw [hnext] at hrest' hturn
      exact ⟨_, ip', hlt, hle, by rw [hrest'], hturn⟩
    · exact ⟨.byte c, x.ip + 1, by omega, by omega, by rw [hnext], rfl⟩

theorem number_length_le (e : Substs) : e.number.length ≤ 5 := by
  rw [Substs.number, List.length_map, Nat.length_toDigits_le_iff (by decide) (by decide)]
  have hlt := e.errorlevel.toNat_lt
  omega

/-- The buffer, up to the longest line that can come about. -/
structure Expanding.Bounded (x : Expanding) : Prop where
  line : x.line.length ≤ maxInternalCommandSize + 2
  stored : x.stored ≤ x.line.length + 1

/-- What the code returns where the buffer is filled with pieces. -/
def Filled : Option Str → Expanded → Prop
  | none, r => ∃ stored ≤ maxInternalCommandSize + 3, r = .zero stored
  | some line, r => ∃ stored ≤ maxInternalCommandSize + 3, r = .one line stored

theorem over_iff (x : Expanding) (n : ℕ) : x.over n = true ↔ maxInternalCommandSize - 1 ≤ x.line.length + n := by
  rw [Expanding.over, decide_eq_true_iff]

theorem Expanding.Bounded.putc {x : Expanding} (h : x.Bounded) (hover : x.over 1 = false) (c : UInt8) (ip : ℕ) :
    Expanding.Bounded { x.putc c with ip := ip } := by
  have hroom := mt (over_iff x 1).2 (Bool.eq_false_iff.1 hover)
  have hstored := h.stored
  simp only [maxInternalCommandSize] at hroom
  constructor
  · simp only [Expanding.putc, List.length_append, List.length_singleton, maxInternalCommandSize]
    omega
  · simp only [Expanding.putc, List.length_append, List.length_singleton]
    omega

theorem Expanding.Bounded.puts {x : Expanding} (h : x.Bounded) {s : Str}
    (hs : x.line.length + s.length ≤ maxInternalCommandSize + 2) (ip : ℕ) :
    Expanding.Bounded { x.puts s with ip := ip } := by
  have hstored := h.stored
  constructor
  · simp only [Expanding.puts, List.length_append]
    exact hs
  · simp only [Expanding.puts, List.length_append]
    omega

/-- **The code reads its input piece by piece and fills the buffer with them.** -/
theorem expandEnvLoop_fill (e : Substs) {input : Str} (hnul : 0 ∉ input) : ∀ {fuel : ℕ} {x : Expanding},
    x.ip ≤ input.length → input.length < x.ip + fuel → x.Bounded →
    ∃ r, expandEnvLoop e input fuel x = some r ∧
      Filled (fillLine e x.line (pieces e (input.drop x.ip))) r
  | 0, x, hip, hfuel, _ => absurd hfuel (by omega)
  | fuel + 1, x, hip, hfuel, h => by
    have hline := h.line
    have hstored := h.stored
    rw [expandEnvLoop]
    rcases Nat.eq_or_lt_of_le hip with heq | hlt
    · have hnil : input.drop x.ip = [] := List.drop_eq_nil_of_le heq.ge
      rw [hnil, pieces, fillLine, expandTurn, byteAt_end hip hnil]
      exact ⟨_, rfl, _, by omega, rfl⟩
    · cases hover : x.over 1 with
      | true =>
        obtain ⟨c, rest, hrest⟩ : ∃ c rest, input.drop x.ip = c :: rest :=
          List.exists_cons_of_ne_nil (mt List.drop_eq_nil_iff.1 (by omega))
        obtain ⟨p, ps, hps⟩ : ∃ p ps, pieces e (input.drop x.ip) = p :: ps := by
          rw [hrest, pieces]
          split_ifs
          · exact ⟨_, _, rfl⟩
          · exact ⟨_, _, rfl⟩
        rw [hps, fillLine, if_pos ((over_iff x 1).1 hover), expandTurn, (byteAt_lt hrest).1]
        simp only
        rw [if_neg (ne_zero_of_drop hnul hrest), hover, if_pos rfl]
        exact ⟨_, rfl, _, by omega, rfl⟩
      | false =>
        obtain ⟨p, ip', hlt', hle', hpieces, hturn⟩ := expandTurn_eq e hnul hlt hover
        have hroom := mt (over_iff x 1).2 (Bool.eq_false_iff.1 hover)
        have hgo : ∀ x' : Expanding, x'.ip = ip' → x'.Bounded → ∃ r, expandEnvLoop e input fuel x' = some r ∧
            Filled (fillLine e x'.line (pieces e (input.drop ip'))) r := by
          rintro x' rfl hx'
          exact expandEnvLoop_fill e hnul hle' (by omega) hx'
        rw [hturn, hpieces, fillLine, if_neg hroom]
        cases p with
        | byte c => exact hgo _ rfl (h.putc hover c ip')
        | checked s =>
          rw [place, insert, Piece.put]
          by_cases hs : maxInternalCommandSize - 1 ≤ x.line.length + s.length
          · rw [if_pos ((over_iff x _).2 hs), if_pos hs]
            exact ⟨_, rfl, _, by omega, rfl⟩
          · rw [if_neg (mt (over_iff x _).1 hs), if_neg hs]
            refine hgo _ rfl (h.puts ?_ ip')
            simp only [maxInternalCommandSize] at hs ⊢
            omega
        | number =>
          refine hgo _ rfl (h.puts ?_ ip')
          have hnum := number_length_le e
          simp only [maxInternalCommandSize] at hroom ⊢
          omega
        | empty => exact hgo _ rfl ⟨h.line, h.stored⟩
        | failure => exact ⟨_, rfl, _, by omega, rfl⟩

/-! ## The one way to too long a line -/

/-- The input ends with `%ERRORLEVEL%`, in front of which there is still room for a character, but
not for the number. -/
def NumberAtEnd (e : Substs) (input : Str) : Prop :=
  ∃ ps, pieces e input = ps ++ [.number] ∧ .failure ∉ ps ∧
    (textOf e ps).length + 1 < maxInternalCommandSize - 1 ∧
    maxInternalCommandSize ≤ (textOf e ps).length + e.number.length

theorem textOf_cons (e : Substs) (p : Piece) (ps : List Piece) :
    textOf e (p :: ps) = p.text e ++ textOf e ps := List.flatMap_cons

theorem put_some {e : Substs} {line out : Str} {p : Piece} (h : p.put e line = some out) :
    p ≠ .failure ∧ out = line ++ p.text e := by
  cases p with
  | byte c => exact ⟨by simp, (Option.some.inj h).symm⟩
  | checked s =>
    rw [Piece.put] at h
    split_ifs at h
    exact ⟨by simp, (Option.some.inj h).symm⟩
  | number => exact ⟨by simp, (Option.some.inj h).symm⟩
  | empty => exact ⟨by simp, by rw [← Option.some.inj h, Piece.text, List.append_nil]⟩
  | failure => cases h

/-- There is room for a piece if there is still room for a character behind it. -/
theorem put_of_room {e : Substs} {line : Str} {p : Piece} (hp : p ≠ .failure)
    (h : line.length + (p.text e).length + 1 < maxInternalCommandSize - 1) :
    p.put e line = some (line ++ p.text e) := by
  cases p with
  | byte c => rfl
  | checked s =>
    rw [Piece.text] at h
    rw [Piece.put, if_neg (by omega), Piece.text]
  | number => rfl
  | empty => rw [Piece.put, Piece.text, List.append_nil]
  | failure => exact absurd rfl hp

/-- Where there is room for a character, only a number makes the line too long. -/
theorem number_of_put {e : Substs} {line out : Str} {p : Piece} (h : p.put e line = some out)
    (hroom : ¬ maxInternalCommandSize - 1 ≤ line.length + 1) (hout : maxInternalCommandSize ≤ out.length) :
    p = .number := by
  rw [(put_some h).2, List.length_append] at hout
  cases p with
  | byte c =>
    rw [Piece.text, List.length_singleton] at hout
    omega
  | checked s =>
    rw [Piece.put] at h
    rw [Piece.text] at hout
    split_ifs at h
    omega
  | number => rfl
  | empty =>
    rw [Piece.text, List.length_nil] at hout
    omega
  | failure => exact absurd rfl (put_some h).1

/-- What is filled is the text of the pieces. -/
theorem fillLine_some (e : Substs) : ∀ {ps : List Piece} {line out : Str},
    fillLine e line ps = some out → out = line ++ textOf e ps
  | [], line, out, h => by
    rw [fillLine, Option.some.injEq] at h
    rw [← h, textOf, List.flatMap_nil, List.append_nil]
  | p :: ps, line, out, h => by
    rw [fillLine] at h
    split_ifs at h
    obtain ⟨line', hput, hrest⟩ := Option.bind_eq_some_iff.1 h
    rw [fillLine_some e hrest, (put_some hput).2, textOf_cons, List.append_assoc]

/-- Pieces with room for a character behind them do no harm. -/
theorem fillLine_append (e : Substs) (qs : List Piece) : ∀ {ps : List Piece} {line : Str},
    .failure ∉ ps → line.length + (textOf e ps).length + 1 < maxInternalCommandSize - 1 →
    fillLine e line (ps ++ qs) = fillLine e (line ++ textOf e ps) qs
  | [], line, _, _ => by rw [textOf, List.flatMap_nil, List.append_nil, List.nil_append]
  | p :: ps, line, hps, hroom => by
    rw [textOf_cons, List.length_append] at hroom
    rw [List.mem_cons, not_or] at hps
    rw [List.cons_append, fillLine, if_neg (by omega), put_of_room (Ne.symm hps.1) (by omega), Option.bind_some,
      fillLine_append e qs hps.2 (by rw [List.length_append]; omega), textOf_cons, List.append_assoc]

/-- Only a number at the end makes the line too long. -/
theorem fillLine_long (e : Substs) : ∀ {ps : List Piece} {line out : Str},
    fillLine e line ps = some out → line.length < maxInternalCommandSize →
    maxInternalCommandSize ≤ out.length →
    ∃ qs, ps = qs ++ [.number] ∧ .failure ∉ qs ∧
      line.length + (textOf e qs).length + 1 < maxInternalCommandSize - 1
  | [], line, out, h, hline, hout => by
    rw [fillLine, Option.some.injEq] at h
    subst h
    omega
  | p :: ps, line, out, h, hline, hout => by
    rw [fillLine] at h
    split_ifs at h with hroom
    obtain ⟨line', hput, hrest⟩ := Option.bind_eq_some_iff.1 h
    obtain ⟨hp, hline'⟩ := put_some hput
    by_cases hlong : line'.length < maxInternalCommandSize
    · obtain ⟨qs, rfl, hqs, hlen⟩ := fillLine_long e hrest hlong hout
      refine ⟨p :: qs, rfl, List.not_mem_cons_of_ne_of_not_mem hp.symm hqs, ?_⟩
      rw [hline', List.length_append] at hlen
      rw [textOf_cons, List.length_append]
      omega
    · -- the check of the loop stops at the next piece, if there is one
      have hnil : ps = [] := by
        cases ps with
        | nil => rfl
        | cons q ps =>
          rw [fillLine, if_pos (by omega)] at hrest
          cases hrest
      subst hnil
      refine ⟨[], ?_, List.not_mem_nil, ?_⟩
      · rw [number_of_put hput hroom (not_lt.1 hlong), List.nil_append]
      · rw [textOf, List.flatMap_nil, List.length_nil]
        omega

/-- The result is `0`, or a line that is shorter than `MAX_INTERNAL_COMMAND_SIZE`. -/
def Expanded.Fits : Expanded → Prop
  | .fault => False
  | .zero _ => True
  | .one line _ => line.length < maxInternalCommandSize

/-- The bytes of the buffer that have been stored to. -/
def Expanded.stored : Expanded → ℕ
  | .fault => 0
  | .zero stored => stored
  | .one _ stored => stored

/-- **`expandEnvVars` ends, reads nothing behind its input and stores in the buffer of its callers,
and a line that it returns is the text of the pieces; the line is short enough unless the input
ends with the number of `%ERRORLEVEL%`, and there is room for one character only in front of
it.** -/
theorem expandEnvVars_fits_iff (e : Substs) {input : Str} (hnul : 0 ∉ input) {fuel : ℕ}
    (hfuel : input.length < fuel) :
    ∃ r, expandEnvVars fuel e input = some r ∧ r ≠ .fault ∧ r.stored ≤ parsedSize ∧
      (∀ line stored, r = .one line stored → line = textOf e (pieces e input)) ∧
      (r.Fits ↔ ¬ NumberAtEnd e input) := by
  obtain ⟨r, hr, hfilled⟩ := expandEnvLoop_fill e (x := ⟨0, [], 0⟩) hnul (Nat.zero_le _) (by simpa using hfuel)
    ⟨Nat.zero_le _, Nat.zero_le _⟩
  rw [List.drop_zero] at hfilled
  simp only at hfilled
  refine ⟨r, hr, ?_⟩
  cases hfill : fillLine e [] (pieces e input) with
  | none =>
    rw [hfill] at hfilled
    obtain ⟨stored, hstored, rfl⟩ := hfilled
    refine ⟨by simp, by simp only [Expanded.stored, parsedSize]; omega, by simp, ?_⟩
    refine iff_of_true trivial ?_
    rintro ⟨ps, hps, hfailure, hroom, -⟩
    rw [hps, fillLine_append e _ hfailure (by simpa using hroom), fillLine,
      if_neg (by rw [List.nil_append]; omega)] at hfill
    cases hfill
  | some line =>
    rw [hfill] at hfilled
    obtain ⟨stored, hstored, rfl⟩ := hfilled
    have hline := fillLine_some e hfill
    rw [List.nil_append] at hline
    refine ⟨by simp, by simp only [Expanded.stored, parsedSize]; omega, ?_, ?_⟩
    · rintro line' stored' h
      injection h with h
      rw [← h, hline]
    · rw [Expanded.Fits]
      constructor
      · rintro hfits ⟨ps, hps, -, -, hlong⟩
        rw [hline, hps, textOf, List.flatMap_append, List.length_append] at hfits
        have hone : ([Piece.number].flatMap (Piece.text e)).length = e.number.length := by
          rw [List.flatMap_singleton]
          rfl
        rw [textOf] at hlong
        omega
      · intro hno
        by_contra hlong
        obtain ⟨ps, hps, hfailure, hroom⟩ := fillLine_long e hfill (by decide) (not_lt.1 hlong)
        refine hno ⟨ps, hps, hfailure, by simpa using hroom, ?_⟩
        rw [hline, hps, textOf, List.flatMap_append, List.length_append, List.flatMap_singleton] at hlong
        rw [textOf]
        exact not_lt.1 hlong

/-- An environment with one variable of 253 characters, `X`. -/
def longVariable : Substs :=
  ⟨none, fun name => if name = [88] then some (List.replicate 253 120) else none, none, 100⟩

/-- `%ERRORLEVEL%` with no batch and no variables. -/
theorem expandEnvVars_fits_iff_number : ∃ r,
    expandEnvVars 13 ⟨none, fun _ => none, none, 7⟩ (word "%ERRORLEVEL%") = some r ∧ r ≠ .fault ∧
      r.stored ≤ parsedSize ∧
      (∀ line stored, r = .one line stored → line = textOf ⟨none, fun _ => none, none, 7⟩
        (pieces ⟨none, fun _ => none, none, 7⟩ (word "%ERRORLEVEL%"))) ∧
      (r.Fits ↔ ¬ NumberAtEnd ⟨none, fun _ => none, none, 7⟩ (word "%ERRORLEVEL%")) :=
  expandEnvVars_fits_iff _ (by decide) (by decide)

/-- The number 100 behind 253 characters gives a line of 256. -/
theorem number_too_long : ∃ line stored,
    expandEnvVars 20 longVariable (word "%X%%ERRORLEVEL%") = some (.one line stored) ∧
      line.length = maxInternalCommandSize := by
  refine ⟨List.replicate 253 120 ++ word "100", 257, ?_, ?_⟩
  · decide +kernel
  · decide +kernel

end Shell
end BurdahDos
