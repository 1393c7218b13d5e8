import BurdahDos.Shell.Redirect
import BurdahDos.Lib.CString
import Mathlib

/-!
# Splitting a command line in its array

`get_redirection` of `portal/shell/redir.c`, on the array that holds the line: it is read at `sp`
and compacted at `dp`, quoted text is moved as a block, and a name is cut out by a NUL that is
planted behind it and taken away again.  `getRedirection` is what becomes of the line then
(`inPlace_eq`).

A line is read as a list of items (`Reads`), in one way only.  `getRedirection_splits_iff`: the
commands and the names are those of the items, and no byte behind the line's NUL is accessed; but
whether the output is appended is not what the last redirection says, if that is a single one
behind a double one.
-/

set_option autoImplicit false

namespace BurdahDos
namespace Shell

open CString

/-! ## The loop in the array -/

/-- The variables of `get_redirection`. -/
structure Compacting where
  buf : Bytes
  /-- Where the next character goes to. -/
  dp : ℕ
  /-- Where the next character is. -/
  sp : ℕ
  num : ℕ
  ifn : Option Str
  ofn : Option Str
  /-- Whether `O_APPEND` is on. -/
  append : Bool
  strdups : List Bool
deriving DecidableEq

/-- What a turn of the loop ends with. -/
inductive Round where
  /-- `return num` -/
  | done (x : Compacting)
  /-- `return -1` -/
  | noMemory
  | next (x : Compacting)
deriving DecidableEq

/-- `case '^'` -/
def caret (x : Compacting) : Option Round :=
  match x.buf[x.sp]? with
  | none => none
  | some c =>
    if isRedir c then
      (store x.buf (x.dp - 1) c).map fun b => .next { x with buf := b, sp := x.sp + 1 }
    else some (.next x)

/-- `case '"'` -/
def quote (x : Compacting) : Option Round :=
  match str x.buf x.sp with
  | none => none
  | some s =>
    -- without a closing quote, to the end of the line
    let len := ((s.findIdx? (·.toNat == 34)).map (· + 1)).getD s.length
    (CString.memmove x.buf x.dp x.sp len).map fun b =>
      .next { x with buf := b, dp := x.dp + len, sp := x.sp + len }

/-- The characters of a name. -/
def isNameChar (c : UInt8) : Bool := !isRedir c && !isargdelim c

/-- `*op`, where `op` points to the name for the operator `ch`. -/
def Compacting.setName (ch : UInt8) (name : Str) (x : Compacting) : Compacting :=
  if ch.toNat = 60 then { x with ifn := some name } else { x with ofn := some name }

/-- The name of a redirection: it is cut out with a NUL in place of what is behind it. -/
def cutName (ch : UInt8) (x : Compacting) : Option Round :=
  match str x.buf x.sp with
  | none => none
  | some s =>
    let p := x.sp + (s.takeWhile isargdelim).length
    let sp := p + ((ltrimcl s).takeWhile isNameChar).length
    match x.buf[sp]? with
    | none => none
    | some c =>
      match store x.buf sp 0 with
      | none => none
      | some b =>
        match str b p, store b sp c with
        | some name, some b =>
          let (ok, strdups) := ask true x.strdups
          if ok then
            some (.next ({ x with buf := b, dp := x.dp - 1, sp := sp, strdups := strdups }.setName ch
              name))
          else some .noMemory
        | _, _ => none

/-- `case '<'` and `case '>'` -/
def redirect (ch : UInt8) (x : Compacting) : Option Round :=
  match x.buf[x.sp]? with
  | none => none
  | some c =>
    cutName ch (if ch.toNat = 62 ∧ c.toNat = 62 then { x with append := true, sp := x.sp + 1 } else x)

/-- `case '|'` -/
def pipeChar (x : Compacting) : Option Round :=
  (store x.buf (x.dp - 1) 0).map fun b => .next { x with buf := b, num := x.num + 1 }

/-- A turn of the loop. -/
def redirTurn (x : Compacting) : Option Round :=
  match x.buf[x.sp]? with
  | none => none
  | some ch =>
    match store x.buf x.dp ch with
    | none => none
    | some b =>
      let x := { x with buf := b, dp := x.dp + 1, sp := x.sp + 1 }
      if ch = 0 then some (.done x)
      else if ch.toNat = 94 then caret x
      else if ch.toNat = 34 then quote x
      else if ch.toNat = 60 ∨ ch.toNat = 62 then redirect ch x
      else if ch.toNat = 124 then pipeChar x
      else some (.next x)

/-- The loop, of `fuel` turns at most. -/
def redirLoop : ℕ → Compacting → Option Round
  | 0, _ => none
  | fuel + 1, x =>
    match redirTurn x with
    | some (.next x) => redirLoop fuel x
    | r => r

/-- `get_redirection`, on an array that holds the line and its NUL. -/
def getRedirectionInPlace (line : Str) (strdups : List Bool) : Option Round :=
  redirLoop (line.length + 1) ⟨line ++ [0], 0, 0, 1, none, none, false, strdups⟩

/-! ## A turn reads what `redirections` reads -/

/-- One character, with what is taken together with it: the rest of the line, and the commands and
names found so far. -/
def redirStep (ch : UInt8) (sp : Str) (r : Redirection) (strdups : List Bool) :
    Option (Str × Redirection × List Bool) :=
  if ch.toNat = 94 then
    match sp with
    | c :: rest => if isRedir c then some (rest, r.put [c], strdups) else some (sp, r.put [ch], strdups)
    | [] => some (sp, r.put [ch], strdups)
  else if ch.toNat = 34 then some ((quoted sp).2, r.put (ch :: (quoted sp).1), strdups)
  else if ch.toNat = 60 then
    if (ask true strdups).1 then
      some ((redirName sp).2, { r with ifn := some (redirName sp).1 }, (ask true strdups).2)
    else none
  else if ch.toNat = 62 then
    let double : Bool := sp.head?.any (·.toNat == 62)
    let sp := if double then sp.tail else sp
    if (ask true strdups).1 then
      some ((redirName sp).2,
        { r with ofn := some (redirName sp).1, append := r.append || double }, (ask true strdups).2)
    else none
  else if ch.toNat = 124 then some (sp, { r with pipes := r.pipes ++ [r.cmd], cmd := [] }, strdups)
  else some (sp, r.put [ch], strdups)

theorem redirections_succ (fuel : ℕ) (ch : UInt8) (sp : Str) (r : Redirection) (strdups : List Bool) :
    redirections (fuel + 1) (ch :: sp) r strdups =
      (redirStep ch sp r strdups).bind fun p => redirections fuel p.1 p.2.1 p.2.2 := by
  rw [redirections.eq_def, redirStep.eq_def]
  dsimp only
  by_cases h94 : ch.toNat = 94
  · rw [if_pos h94, if_pos h94]
    cases sp with
    | nil => rfl
    | cons c rest => cases hc : isRedir c <;> simp [hc]
  · rw [if_neg h94, if_neg h94]
    by_cases h34 : ch.toNat = 34
    · rw [if_pos h34, if_pos h34]
      rfl
    · rw [if_neg h34, if_neg h34]
      by_cases h60 : ch.toNat = 60
      · rw [if_pos h60, if_pos h60]
        cases (ask true strdups).1 <;> simp
      · rw [if_neg h60, if_neg h60]
        by_cases h62 : ch.toNat = 62
        · rw [if_pos h62, if_pos h62]
          cases sp with
          | nil => cases (ask true strdups).1 <;> simp
          | cons c rest =>
            have hbeq : (c.toNat == 62) = decide (c.toNat = 62) := rfl
            cases (ask true strdups).1 <;> by_cases hc : c.toNat = 62 <;> simp [hbeq, hc]
        · rw [if_neg h62, if_neg h62]
          by_cases h124 : ch.toNat = 124
          · rw [if_pos h124, if_pos h124]
            rfl
          · rw [if_neg h124, if_neg h124]
            rfl

/-- What has been found is in the array in front of `dp`, and the rest of the line at `sp`. -/
structure At (x : Compacting) (r : Redirection) (rest : Str) : Prop where
  out : x.buf.take x.dp = r.pipes.flatMap (· ++ [0]) ++ r.cmd
  rest : Holds x.buf x.sp rest
  le : x.dp ≤ x.sp
  num : x.num = r.pipes.length + 1
  ifn : x.ifn = r.ifn
  ofn : x.ofn = r.ofn
  append : x.append = r.append

variable {x : Compacting} {r : Redirection} {ch : UInt8} {sp : Str}

theorem At.dp_eq (h : At x r sp) : x.dp = (r.pipes.flatMap (· ++ [0]) ++ r.cmd).length := by
  have hlt := h.rest.length_lt
  rw [← h.out, List.length_take]
  have hle := h.le
  omega

/-- The character is copied. -/
theorem At.copy (h : At x r (ch :: sp)) : ∃ b, store x.buf x.dp ch = some b ∧
    At { x with buf := b, dp := x.dp + 1, sp := x.sp + 1 } (r.put [ch]) sp := by
  have hlt := h.rest.length_lt
  have hle := h.le
  obtain ⟨b, hb⟩ := Option.isSome_iff_exists.mp
    (write_isSome.mpr (show x.dp + [ch].length ≤ x.buf.length by
      rw [List.length_singleton]; rw [List.length_cons] at hlt; omega))
  refine ⟨b, hb, ?_, ?_, Nat.succ_le_succ hle, h.num, h.ifn, h.ofn, h.append⟩
  · have htake := take_end_write hb
    rw [List.length_singleton, h.out] at htake
    dsimp only
    rw [htake, List.append_assoc]
    rfl
  · exact (Holds.tail (s := [ch]) h.rest).above hb (Nat.succ_le_succ hle)

/-- The character that has been copied last does not count. -/
theorem At.uncopy {d : UInt8} (h : At x (r.put [d]) sp) :
    0 < x.dp ∧ x.buf.take (x.dp - 1) = r.pipes.flatMap (· ++ [0]) ++ r.cmd := by
  have hfound : x.buf.take x.dp = (r.pipes.flatMap (· ++ [0]) ++ r.cmd) ++ [d] :=
    h.out.trans (List.append_assoc _ _ _).symm
  have hdp : x.dp = (r.pipes.flatMap (· ++ [0]) ++ r.cmd).length + 1 := by
    rw [h.dp_eq, Redirection.put, ← List.append_assoc, List.length_append]
    rfl
  have hout := congrArg (List.take (x.dp - 1)) hfound
  rw [List.take_take, Nat.min_eq_left (Nat.sub_le _ _), List.take_left' (by omega)] at hout
  exact ⟨by omega, hout⟩

/-- It is replaced. -/
theorem At.replace {d : UInt8} (h : At x (r.put [d]) sp) (c : UInt8) :
    ∃ b, store x.buf (x.dp - 1) c = some b ∧
      b.take x.dp = r.pipes.flatMap (· ++ [0]) ++ (r.cmd ++ [c]) ∧ Holds b x.sp sp := by
  obtain ⟨hpos, hout⟩ := h.uncopy
  have hlt := h.rest.length_lt
  have hle := h.le
  have hend : x.dp - 1 + [c].length = x.dp := by
    rw [List.length_singleton]
    omega
  obtain ⟨b, hb⟩ := Option.isSome_iff_exists.mp
    (write_isSome.mpr (show x.dp - 1 + [c].length ≤ x.buf.length by omega))
  have htake := take_end_write hb
  rw [hend, hout, List.append_assoc] at htake
  exact ⟨b, hb, htake, h.rest.above hb (by omega)⟩

theorem At.caret (h : At x (r.put [ch]) sp) :
    ∃ x', Shell.caret x = some (.next x') ∧ x'.strdups = x.strdups ∧
      match sp with
      | c :: rest => if isRedir c then At x' (r.put [c]) rest else At x' (r.put [ch]) sp
      | [] => At x' (r.put [ch]) sp := by
  have hget := h.rest.get (Nat.zero_le _)
  rw [Nat.add_zero] at hget
  rw [Shell.caret, hget]
  cases sp with
  | nil => exact ⟨x, rfl, rfl, h⟩
  | cons c rest =>
    rw [List.cons_append, List.getElem?_cons_zero]
    dsimp only
    cases hc : isRedir c with
    | false => exact ⟨x, rfl, rfl, h⟩
    | true =>
      obtain ⟨b, hb, hout, hrest⟩ := h.replace c
      rw [if_pos rfl, hb]
      refine ⟨_, rfl, rfl, ?_⟩
      rw [if_pos rfl]
      exact ⟨hout, Holds.tail (s := [c]) hrest, Nat.le_succ_of_le h.le, h.num, h.ifn, h.ofn, h.append⟩

theorem quoted_append (s : Str) : (quoted s).1 ++ (quoted s).2 = s := by
  have hsplit := List.takeWhile_append_dropWhile (p := fun c : UInt8 => c.toNat != 34) (l := s)
  rw [quoted]
  split
  · rename_i hnil
    rw [hnil] at hsplit
    exact hsplit
  · rename_i q rest hcons
    rw [hcons] at hsplit
    rw [List.append_assoc]
    exact hsplit

theorem quoted_length (s : Str) :
    ((s.findIdx? (·.toNat == 34)).map (· + 1)).getD s.length = (quoted s).1.length := by
  induction s with
  | nil => rfl
  | cons c s ih =>
    by_cases hc : c.toNat = 34
    · rw [List.findIdx?_cons, if_pos (by simpa using hc), quoted,
        List.dropWhile_cons_of_neg (by simpa using hc), List.takeWhile_cons_of_neg (by simpa using hc)]
      rfl
    · have hquoted : (quoted (c :: s)).1 = c :: (quoted s).1 := by
        rw [quoted, quoted, List.dropWhile_cons_of_pos (by simpa using hc),
          List.takeWhile_cons_of_pos (by simpa using hc)]
        split <;> rfl
      rw [List.findIdx?_cons, if_neg (by simpa using hc), hquoted, List.length_cons,
        List.length_cons, ← ih]
      cases s.findIdx? (·.toNat == 34) <;> rfl

theorem At.quote (h : At x (r.put [ch]) sp) :
    ∃ x', Shell.quote x = some (.next x') ∧ x'.strdups = x.strdups ∧
      At x' (r.put (ch :: (quoted sp).1)) (quoted sp).2 := by
  have hrest := h.rest
  rw [← quoted_append sp] at hrest
  have hle := h.le
  have hlt := hrest.length_lt
  rw [List.length_append] at hlt
  obtain ⟨b, hb⟩ := Option.isSome_iff_exists.mp
    (write_isSome.mpr (show x.dp + (quoted sp).1.length ≤ x.buf.length by omega))
  rw [Shell.quote, h.rest.str]
  dsimp only
  rw [quoted_length, hrest.memmove_eq, hb]
  refine ⟨_, rfl, rfl, ?_, hrest.tail.above hb (by omega), Nat.add_le_add_right hle _, h.num, h.ifn,
    h.ofn, h.append⟩
  have htake := take_end_write hb
  rw [h.out] at htake
  dsimp only
  rw [htake, List.append_assoc, Redirection.put, List.append_assoc]
  rfl

/-- `*op = name` -/
def Redirection.setName (ch : UInt8) (name : Str) (r : Redirection) : Redirection :=
  if ch.toNat = 60 then { r with ifn := some name } else { r with ofn := some name }

theorem redirName_append (s : Str) :
    s.takeWhile isargdelim ++ ((redirName s).1 ++ (redirName s).2) = s := by
  rw [redirName, List.takeWhile_append_dropWhile, ltrimcl, List.takeWhile_append_dropWhile]

theorem At.cutName (h : At x (r.put [ch]) sp) :
    if (ask true x.strdups).1 then
      ∃ x', Shell.cutName ch x = some (.next x') ∧ x'.strdups = (ask true x.strdups).2 ∧
        At x' (r.setName ch (redirName sp).1) (redirName sp).2
    else Shell.cutName ch x = some .noMemory := by
  have hrest := h.rest
  rw [← redirName_append sp] at hrest
  have hname := hrest.tail
  have hafter := hname.tail
  obtain ⟨c, hc⟩ : ∃ c, ((redirName sp).2 ++ [0])[0]? = some c := by
    cases (redirName sp).2 with
    | nil => exact ⟨0, rfl⟩
    | cons c _ => exact ⟨c, rfl⟩
  have hget := hafter.get (Nat.zero_le _)
  rw [Nat.add_zero, hc] at hget
  obtain ⟨b, hb, hback⟩ := store_restore hget 0
  have hcut := hname.cut hb
  rw [Shell.cutName, h.rest.str]
  dsimp only
  rw [show (ltrimcl sp).takeWhile isNameChar = (redirName sp).1 from rfl, hget]
  dsimp only
  rw [hb]
  dsimp only
  rw [hcut.str, hback]
  dsimp only
  cases (ask true x.strdups).1 with
  | false => rfl
  | true =>
    have hle := h.le
    rw [if_pos rfl, if_pos rfl]
    refine ⟨_, rfl, ?_, ?_⟩
    · rw [Compacting.setName]
      split <;> rfl
    · rw [Compacting.setName, Redirection.setName]
      split
      · exact ⟨h.uncopy.2, hafter, by dsimp only; omega, h.num, rfl, h.ofn, h.append⟩
      · exact ⟨h.uncopy.2, hafter, by dsimp only; omega, h.num, h.ifn, rfl, h.append⟩

theorem At.redirect (h : At x (r.put [ch]) sp) (double : Bool)
    (hdouble : double = (ch.toNat == 62 && sp.head?.any (·.toNat == 62))) :
    if (ask true x.strdups).1 then
      ∃ x', Shell.redirect ch x = some (.next x') ∧ x'.strdups = (ask true x.strdups).2 ∧
        At x' ({ r with append := r.append || double }.setName ch
          (redirName (if double then sp.tail else sp)).1) (redirName (if double then sp.tail else sp)).2
    else Shell.redirect ch x = some .noMemory := by
  have hget := h.rest.get (Nat.zero_le _)
  rw [Nat.add_zero] at hget
  rw [Shell.redirect, hget]
  cases double with
  | false =>
    have hsingle : ∀ c, (sp ++ [0])[0]? = some c → ¬ (ch.toNat = 62 ∧ c.toNat = 62) := by
      intro c hc hboth
      cases sp with
      | nil => rw [← Option.some.inj hc] at hboth; exact absurd hboth.2 (by decide)
      | cons d rest =>
        rw [List.cons_append, List.getElem?_cons_zero, Option.some.injEq] at hc
        simp [hc, hboth] at hdouble
    rw [Bool.or_false, if_neg Bool.false_ne_true]
    cases hc : (sp ++ [0])[0]? with
    | none => cases sp <;> cases hc
    | some c =>
      dsimp only
      rw [if_neg (hsingle c hc)]
      exact h.cutName
  | true =>
    rw [eq_comm, Bool.and_eq_true] at hdouble
    cases sp with
    | nil => cases hdouble.2
    | cons c rest =>
      have hc : c.toNat = 62 := by simpa using hdouble.2
      have hch : ch.toNat = 62 := by simpa using hdouble.1
      rw [Bool.or_true, List.cons_append, List.getElem?_cons_zero]
      dsimp only
      rw [if_pos (show ch.toNat = 62 ∧ c.toNat = 62 from ⟨hch, hc⟩), if_pos rfl]
      have h' : At { x with append := true, sp := x.sp + 1 } ({ r with append := true }.put [ch]) rest :=
        ⟨h.out, Holds.tail (s := [c]) h.rest, Nat.le_succ_of_le h.le, h.num, h.ifn, h.ofn, rfl⟩
      exact h'.cutName

theorem At.pipeChar (h : At x (r.put [ch]) sp) :
    ∃ x', Shell.pipeChar x = some (.next x') ∧ x'.strdups = x.strdups ∧
      At x' { r with pipes := r.pipes ++ [r.cmd], cmd := [] } sp := by
  obtain ⟨b, hb, hout, hrest⟩ := h.replace 0
  rw [Shell.pipeChar, hb]
  refine ⟨_, rfl, rfl, ?_, hrest, h.le, ?_, h.ifn, h.ofn, h.append⟩
  · dsimp only
    rw [hout, List.flatMap_append, List.append_nil]
    simp
  · dsimp only
    rw [h.num, List.length_append]
    rfl

/-- A turn of the loop does in the array what `redirStep` does. -/
theorem At.turn (h : At x r (ch :: sp)) (hch : ch ≠ 0) :
    match redirStep ch sp r x.strdups with
    | none => redirTurn x = some .noMemory
    | some (rest, r', strdups) =>
      ∃ x', redirTurn x = some (.next x') ∧ x'.strdups = strdups ∧ At x' r' rest := by
  have hget := h.rest.get (Nat.zero_le _)
  rw [Nat.add_zero, List.cons_append, List.getElem?_cons_zero] at hget
  obtain ⟨b, hb, h'⟩ := h.copy
  rw [redirTurn, hget]
  dsimp only
  rw [hb]
  dsimp only
  rw [if_neg hch, redirStep.eq_def]
  by_cases h94 : ch.toNat = 94
  · obtain ⟨x', hx', hstrdups, hat⟩ := h'.caret
    rw [if_pos h94, if_pos h94]
    cases sp with
    | nil => exact ⟨x', hx', hstrdups, hat⟩
    | cons c rest =>
      dsimp only at hat ⊢
      cases hc : isRedir c with
      | false =>
        rw [hc, if_neg Bool.false_ne_true] at hat
        exact ⟨x', hx', hstrdups, hat⟩
      | true =>
        rw [hc, if_pos rfl] at hat
        exact ⟨x', hx', hstrdups, hat⟩
  · rw [if_neg h94, if_neg h94]
    by_cases h34 : ch.toNat = 34
    · rw [if_pos h34, if_pos h34]
      exact h'.quote
    · rw [if_neg h34, if_neg h34]
      by_cases h60 : ch.toNat = 60
      · have hred := h'.redirect false (by simp [h60])
        rw [if_pos (Or.inl h60), if_pos h60]
        dsimp only at hred
        cases hok : (ask true x.strdups).1 with
        | false =>
          rw [hok, if_neg Bool.false_ne_true] at hred
          exact hred
        | true =>
          rw [hok, if_pos rfl, Bool.or_false, if_neg Bool.false_ne_true, Redirection.setName,
            if_pos h60] at hred
          exact hred
      · rw [if_neg h60]
        by_cases h62 : ch.toNat = 62
        · have hred := h'.redirect (sp.head?.any (·.toNat == 62)) (by simp [h62])
          rw [if_pos (Or.inr h62), if_pos h62]
          dsimp only at hred ⊢
          cases hok : (ask true x.strdups).1 with
          | false =>
            rw [hok, if_neg Bool.false_ne_true] at hred
            exact hred
          | true =>
            rw [hok, if_pos rfl, Redirection.setName, if_neg h60] at hred
            exact hred
        · rw [if_neg (not_or.mpr ⟨h60, h62⟩), if_neg h62]
          by_cases h124 : ch.toNat = 124
          · rw [if_pos h124, if_pos h124]
            exact h'.pipeChar
          · rw [if_neg h124, if_neg h124]
            exact ⟨_, rfl, rfl, h'⟩

/-! ## The whole line -/

theorem redirName_suffix (s : Str) : (redirName s).2 <:+ s :=
  (List.dropWhile_suffix _).trans (List.dropWhile_suffix _)

theorem redirStep_suffix {strdups strdups' : List Bool} {r' : Redirection} {rest : Str}
    (h : redirStep ch sp r strdups = some (rest, r', strdups')) : rest <:+ sp := by
  rw [redirStep.eq_def] at h
  dsimp only at h
  split at h
  · split at h
    · split at h
      · cases h
        exact List.suffix_cons _ _
      · cases h
        exact List.suffix_refl _
    · cases h
      exact List.suffix_refl _
  · split at h
    · cases h
      exact ⟨_, quoted_append sp⟩
    · split at h
      · split at h
        · cases h
          exact redirName_suffix sp
        · cases h
      · split at h
        · split at h
          · cases h
            refine (redirName_suffix _).trans ?_
            split
            · exact List.tail_suffix sp
            · exact List.suffix_refl sp
          · cases h
        · split at h
          · cases h
            exact List.suffix_refl _
          · cases h
            exact List.suffix_refl _

/-- What is in the array at the end: each command with a NUL behind it. -/
structure Settled (x : Compacting) (r : Redirection) : Prop where
  commands : (r.pipes ++ [r.cmd]).flatMap (· ++ [0]) <+: x.buf
  num : x.num = r.pipes.length + 1
  ifn : x.ifn = r.ifn
  ofn : x.ofn = r.ofn
  append : x.append = r.append

theorem At.finish (h : At x r []) : ∃ x', redirTurn x = some (.done x') ∧ Settled x' r := by
  have hget := h.rest.get_nul
  rw [List.length_nil, Nat.add_zero] at hget
  have hlt := h.rest.length_lt
  have hle := h.le
  obtain ⟨b, hb⟩ := Option.isSome_iff_exists.mp
    (write_isSome.mpr (show x.dp + [(0 : UInt8)].length ≤ x.buf.length by
      rw [List.length_nil] at hlt; rw [List.length_singleton]; omega))
  rw [redirTurn, hget]
  dsimp only
  rw [show store x.buf x.dp 0 = some b from hb]
  refine ⟨_, rfl, ?_, h.num, h.ifn, h.ofn, h.append⟩
  have htake := take_end_write hb
  rw [h.out] at htake
  dsimp only
  rw [List.flatMap_append, List.flatMap_singleton, ← List.append_assoc, ← htake]
  exact List.take_prefix _ _

theorem redirLoop_spec : ∀ (fuel : ℕ) {x : Compacting} {r : Redirection} {rest : Str},
    At x r rest → 0 ∉ rest → rest.length ≤ fuel →
    match redirections fuel rest r x.strdups with
    | none => redirLoop (fuel + 1) x = some .noMemory
    | some r' => ∃ x', redirLoop (fuel + 1) x = some (.done x') ∧ Settled x' r'
  | fuel, x, r, [], h, _, _ => by
    obtain ⟨x', hx', hfin⟩ := h.finish
    rw [show redirections fuel [] r x.strdups = some r by cases fuel <;> rfl, redirLoop, hx']
    exact ⟨x', rfl, hfin⟩
  | fuel + 1, x, r, ch :: sp, h, hnul, hlen => by
    have hturn := h.turn fun heq => hnul (heq ▸ List.mem_cons_self)
    rw [redirections_succ, redirLoop]
    cases hstep : redirStep ch sp r x.strdups with
    | none =>
      rw [hstep] at hturn
      rw [show redirTurn x = some .noMemory from hturn]
      rfl
    | some p =>
      obtain ⟨rest, r', strdups⟩ := p
      rw [hstep] at hturn
      obtain ⟨x', hx', rfl, hat⟩ := hturn
      have hsuffix := redirStep_suffix hstep
      have hle := hsuffix.length_le
      rw [List.length_cons] at hlen
      have hih := redirLoop_spec fuel hat
        (fun hmem => hnul (List.mem_cons_of_mem ch (hsuffix.subset hmem))) (by omega)
      rw [hx']
      exact hih

/-- In the array, `get_redirection` does what it does to the line as a text. -/
theorem inPlace_eq {line : Str} (hnul : 0 ∉ line) (strdups : List Bool) :
    match getRedirection line strdups with
    | none => getRedirectionInPlace line strdups = some .noMemory
    | some r => ∃ x, getRedirectionInPlace line strdups = some (.done x) ∧ Settled x r := by
  have hat : At ⟨line ++ [0], 0, 0, 1, none, none, false, strdups⟩ ⟨[], [], none, none, false⟩ line :=
    ⟨rfl, ⟨List.prefix_refl _, hnul⟩, Nat.le_refl _, rfl, rfl, rfl, rfl⟩
  exact redirLoop_spec line.length hat hnul (Nat.le_refl _)

/-! ## Items -/

/-- The items of a command line. -/
inductive Item where
  | char (c : UInt8)
  /-- An operator behind a caret. -/
  | escaped (c : UInt8)
  /-- A quoted text, with or without a closing quote. -/
  | quoted (text : Str) (closed : Bool)
  /-- A redirection of output or input, double or single, with its name. -/
  | redirect (out double : Bool) (name : Str)
  | pipe

/-- A line is read as these items.  A caret escapes an operator, a quote extends to the next one or
to the end of the line, and the name of a redirection to the next operator or delimiter. -/
inductive Reads : Str → List Item → Prop
  | nil : Reads [] []
  | escaped {c : UInt8} {s : Str} {items : List Item} (hc : isRedir c = true) (h : Reads s items) :
      Reads (94 :: c :: s) (.escaped c :: items)
  | quoted {text s : Str} {items : List Item} (htext : 34 ∉ text) (h : Reads s items) :
      Reads (34 :: (text ++ 34 :: s)) (.quoted text true :: items)
  | unclosed {text : Str} (htext : 34 ∉ text) : Reads (34 :: text) [.quoted text false]
  | input {s : Str} {items : List Item} (h : Reads (redirName s).2 items) :
      Reads (60 :: s) (.redirect false false (redirName s).1 :: items)
  | single {s : Str} {items : List Item} (hs : s.head? ≠ some 62) (h : Reads (redirName s).2 items) :
      Reads (62 :: s) (.redirect true false (redirName s).1 :: items)
  | double {s : Str} {items : List Item} (h : Reads (redirName s).2 items) :
      Reads (62 :: 62 :: s) (.redirect true true (redirName s).1 :: items)
  | pipe {s : Str} {items : List Item} (h : Reads s items) : Reads (124 :: s) (.pipe :: items)
  | char {c : UInt8} {s : Str} {items : List Item} (hc : isRedir c = false) (hquote : c ≠ 34)
      (hcaret : c = 94 → ∀ d ∈ s.head?, isRedir d = false) (h : Reads s items) :
      Reads (c :: s) (.char c :: items)

namespace Item

/-- What an item leaves of itself in the command. -/
def text : Item → Str
  | char c => [c]
  | escaped c => [c]
  | quoted text closed => 34 :: (text ++ if closed then [34] else [])
  | redirect _ _ _ => []
  | pipe => []

def isPipe : Item → Bool
  | pipe => true
  | _ => false

/-- The name of a redirection of input. -/
def input? : Item → Option Str
  | redirect false _ name => some name
  | _ => none

/-- Whether a redirection of output is a double one, and its name. -/
def output? : Item → Option (Bool × Str)
  | redirect true double name => some (double, name)
  | _ => none

/-- What becomes of the commands and names with one more item. -/
def apply (r : Redirection) : Item → Redirection
  | redirect false _ name => { r with ifn := some name }
  | redirect true double name => { r with ofn := some name, append := r.append || double }
  | pipe => { r with pipes := r.pipes ++ [r.cmd], cmd := [] }
  | i => r.put i.text

end Item

/-- The pieces between the pipes. -/
def texts (items : List Item) : List Str := (items.splitOnP Item.isPipe).map (·.flatMap Item.text)

/-- The names of the redirections of input. -/
def inputs (items : List Item) : List Str := items.filterMap Item.input?

/-- The redirections of output. -/
def outputs (items : List Item) : List (Bool × Str) := items.filterMap Item.output?

theorem texts_pipe (items : List Item) : texts (.pipe :: items) = [] :: texts items := by
  rw [texts, List.splitOnP_cons_eq_if_modifyHead, if_pos (show Item.pipe.isPipe = true from rfl)]
  rfl

theorem texts_cons {i : Item} (h : i.isPipe = false) (items : List Item) :
    texts (i :: items) = (texts items).modifyHead (i.text ++ ·) := by
  rw [texts, List.splitOnP_cons_eq_if_modifyHead, if_neg (by rw [h]; exact Bool.false_ne_true), texts]
  cases items.splitOnP Item.isPipe <;> rfl

theorem inputs_none {i : Item} (h : i.input? = none) (items : List Item) :
    inputs (i :: items) = inputs items := List.filterMap_cons_none h

theorem inputs_some {i : Item} {name : Str} (h : i.input? = some name) (items : List Item) :
    inputs (i :: items) = name :: inputs items := List.filterMap_cons_some h

theorem outputs_none {i : Item} (h : i.output? = none) (items : List Item) :
    outputs (i :: items) = outputs items := List.filterMap_cons_none h

theorem outputs_some {i : Item} {o : Bool × Str} (h : i.output? = some o) (items : List Item) :
    outputs (i :: items) = o :: outputs items := List.filterMap_cons_some h

/-- **The commands and the names of the items**, behind those that were there. -/
structure Taken (r : Redirection) (items : List Item) (r' : Redirection) : Prop where
  commands : r'.pipes ++ [r'.cmd] = r.pipes ++ (texts items).modifyHead (r.cmd ++ ·)
  input : r'.ifn = (inputs items).getLast?.or r.ifn
  output : r'.ofn = ((outputs items).getLast?.map Prod.snd).or r.ofn
  append : r'.append = (r.append || (outputs items).any Prod.fst)

theorem getLast?_cons_or {α : Type} (a : α) (l : List α) (o : Option α) :
    (a :: l).getLast?.or o = l.getLast?.or (some a) := by
  rw [List.getLast?_cons]
  cases l.getLast? <;> rfl

theorem modifyHead_append (s s' : Str) (l : List Str) :
    (l.modifyHead (s' ++ ·)).modifyHead (s ++ ·) = l.modifyHead (s ++ s' ++ ·) := by
  cases l with
  | nil => rfl
  | cons a l => rw [List.modifyHead_cons, List.modifyHead_cons, List.modifyHead_cons, List.append_assoc]

theorem Taken.put {i : Item} {items : List Item} {r' : Redirection} (hpipe : i.isPipe = false)
    (hin : i.input? = none) (hout : i.output? = none) (h : Taken (r.put i.text) items r') :
    Taken r (i :: items) r' where
  commands := by
    rw [h.commands, texts_cons hpipe, modifyHead_append]
    rfl
  input := by rw [h.input, inputs_none hin]; rfl
  output := by rw [h.output, outputs_none hout]; rfl
  append := by rw [h.append, outputs_none hout]; rfl

theorem taken_foldl (items : List Item) (r : Redirection) : Taken r items (items.foldl Item.apply r) := by
  induction items generalizing r with
  | nil => exact ⟨by simp [texts], rfl, rfl, (Bool.or_false _).symm⟩
  | cons i items ih =>
    have h := ih (i.apply r)
    rw [List.foldl_cons]
    cases i with
    | char => exact h.put rfl rfl rfl
    | escaped => exact h.put rfl rfl rfl
    | quoted => exact h.put rfl rfl rfl
    | pipe =>
      refine ⟨?_, h.input, h.output, h.append⟩
      rw [h.commands, texts_pipe, List.modifyHead_cons, List.append_nil]
      cases texts items <;> simp [Item.apply]
    | redirect out double name =>
      have hcommands : (texts (.redirect out double name :: items)).modifyHead (r.cmd ++ ·) =
          (texts items).modifyHead (r.cmd ++ ·) := by
        rw [texts_cons rfl, modifyHead_append, Item.text, List.append_nil]
      cases out with
      | false =>
        refine ⟨by rw [hcommands]; exact h.commands, ?_, h.output, h.append⟩
        rw [h.input, inputs_some rfl, getLast?_cons_or]
        rfl
      | true =>
        refine ⟨by rw [hcommands]; exact h.commands, h.input, ?_, ?_⟩
        · rw [h.output, outputs_some rfl, List.getLast?_cons]
          cases (outputs items).getLast? <;> rfl
        · rw [h.append, outputs_some rfl, List.any_cons, ← Bool.or_assoc]
          rfl

/-! ## Every line is read in one way -/

/-- A turn takes an item: `i`, with `rest` left of the line. -/
structure Takes (ch : UInt8) (sp : Str) (i : Item) (rest : Str) : Prop where
  suffix : rest <:+ sp
  reads : ∀ items, Reads rest items → Reads (ch :: sp) (i :: items)
  step : ∀ r strdups, match redirStep ch sp r strdups with
    | none => false ∈ strdups
    | some (rest', r', strdups') => rest' = rest ∧ r' = i.apply r ∧ strdups' <:+ strdups

theorem ask_cases (strdups : List Bool) :
    (ask true strdups).1 = false ∧ false ∈ strdups ∨
      (ask true strdups).1 = true ∧ (ask true strdups).2 <:+ strdups :=
  match strdups with
  | [] => Or.inr ⟨rfl, List.suffix_refl []⟩
  | false :: _ => Or.inl ⟨rfl, List.mem_cons_self⟩
  | true :: rest => Or.inr ⟨rfl, List.suffix_cons true rest⟩

theorem not_mem_quoted {s : Str} (h : s.dropWhile (·.toNat != 34) = []) : 34 ∉ s := by
  intro hmem
  have hall := List.dropWhile_eq_nil_iff.mp h 34 hmem
  exact absurd hall (by decide)

theorem quoted_cases (s : Str) :
    (∃ text rest, s = text ++ 34 :: rest ∧ 34 ∉ text ∧ quoted s = (text ++ [34], rest)) ∨
      34 ∉ s ∧ quoted s = (s, []) := by
  have htext : 34 ∉ s.takeWhile (·.toNat != 34) := by
    intro hmem
    exact absurd (List.mem_takeWhile_imp hmem) (by decide)
  cases hrest : s.dropWhile (·.toNat != 34) with
  | nil =>
    refine Or.inr ⟨not_mem_quoted hrest, ?_⟩
    have hsplit := List.takeWhile_append_dropWhile (p := fun c : UInt8 => c.toNat != 34) (l := s)
    rw [hrest, List.append_nil] at hsplit
    rw [quoted, hrest, hsplit]
  | cons q rest =>
    have hq : q = 34 := by
      have hhead := List.head_dropWhile_not (fun c : UInt8 => c.toNat != 34) (l := s)
        (by rw [hrest]; exact List.cons_ne_nil _ _)
      rw [← UInt8.toNat_inj]
      simpa [hrest] using hhead
    refine Or.inl ⟨s.takeWhile (·.toNat != 34), rest, ?_, htext, by rw [quoted, hrest, hq]⟩
    rw [← hq, ← hrest, List.takeWhile_append_dropWhile]

theorem takes_exists (ch : UInt8) (sp : Str) : ∃ i rest, Takes ch sp i rest := by
  by_cases h94 : ch = 94
  · subst h94
    have hplain : (∀ d ∈ sp.head?, isRedir d = false) → Takes 94 sp (.char 94) sp := fun hd =>
      { suffix := List.suffix_refl sp
        reads := fun _ h => .char rfl (by decide) (fun _ => hd) h
        step := fun r strdups => by
          rw [redirStep.eq_def, if_pos (show UInt8.toNat 94 = 94 from rfl)]
          cases sp with
          | nil => exact ⟨rfl, rfl, List.suffix_refl _⟩
          | cons c rest =>
            dsimp only
            rw [if_neg (by rw [hd c rfl]; exact Bool.false_ne_true)]
            exact ⟨rfl, rfl, List.suffix_refl _⟩ }
    cases sp with
    | nil => exact ⟨_, _, hplain fun d hd => nomatch hd⟩
    | cons c rest =>
      cases hc : isRedir c with
      | false => exact ⟨_, _, hplain fun d hd => by rw [← Option.some.inj hd]; exact hc⟩
      | true =>
        refine ⟨.escaped c, rest, List.suffix_cons c rest, fun _ h => .escaped hc h, fun r strdups => ?_⟩
        rw [redirStep.eq_def, if_pos (show UInt8.toNat 94 = 94 from rfl)]
        dsimp only
        rw [if_pos hc]
        exact ⟨rfl, rfl, List.suffix_refl _⟩
  · by_cases h34 : ch = 34
    · subst h34
      rcases quoted_cases sp with ⟨text, rest, rfl, htext, hquoted⟩ | ⟨htext, hquoted⟩
      · refine ⟨.quoted text true, rest, ?_, fun _ h => .quoted htext h, fun r strdups => ?_⟩
        · exact (List.suffix_cons 34 rest).trans (List.suffix_append _ _)
        · rw [redirStep.eq_def, if_neg (by decide), if_pos (show UInt8.toNat 34 = 34 from rfl), hquoted]
          exact ⟨rfl, rfl, List.suffix_refl _⟩
      · refine ⟨.quoted sp false, [], List.nil_suffix, fun items h => ?_, fun r strdups => ?_⟩
        · cases h
          exact .unclosed htext
        · rw [redirStep.eq_def, if_neg (by decide), if_pos (show UInt8.toNat 34 = 34 from rfl), hquoted]
          exact ⟨rfl, congrArg (fun s => r.put (34 :: s)) (List.append_nil sp).symm, List.suffix_refl _⟩
    · by_cases h60 : ch = 60
      · subst h60
        refine ⟨.redirect false false (redirName sp).1, (redirName sp).2, redirName_suffix sp,
          fun _ h => .input h, fun r strdups => ?_⟩
        rw [redirStep.eq_def, if_neg (by decide), if_neg (by decide),
          if_pos (show UInt8.toNat 60 = 60 from rfl)]
        rcases ask_cases strdups with ⟨hask, hmem⟩ | ⟨hask, hsuffix⟩
        · rw [hask, if_neg Bool.false_ne_true]
          exact hmem
        · rw [hask, if_pos rfl]
          exact ⟨rfl, rfl, hsuffix⟩
      · by_cases h62 : ch = 62
        · subst h62
          have hstep : ∀ double : Bool, sp.head?.any (·.toNat == 62) = double → ∀ r strdups,
              match redirStep 62 sp r strdups with
              | none => false ∈ strdups
              | some (rest', r', strdups') =>
                rest' = (redirName (if double then sp.tail else sp)).2 ∧
                r' = Item.apply r (.redirect true double
                  (redirName (if double then sp.tail else sp)).1) ∧ strdups' <:+ strdups := by
            rintro double rfl r strdups
            rw [redirStep.eq_def, if_neg (by decide), if_neg (by decide), if_neg (by decide),
              if_pos (show UInt8.toNat 62 = 62 from rfl)]
            dsimp only
            rcases ask_cases strdups with ⟨hask, hmem⟩ | ⟨hask, hsuffix⟩
            · rw [hask, if_neg Bool.false_ne_true]
              exact hmem
            · rw [hask, if_pos rfl]
              exact ⟨rfl, rfl, hsuffix⟩
          cases hdouble : sp.head?.any (·.toNat == 62) with
          | false =>
            refine ⟨.redirect true false (redirName sp).1, (redirName sp).2, redirName_suffix sp,
              fun _ h => .single (fun heq => ?_) h, hstep false hdouble⟩
            rw [heq] at hdouble
            cases hdouble
          | true =>
            cases sp with
            | nil => cases hdouble
            | cons c rest =>
              have hc : c = 62 := by
                rw [← UInt8.toNat_inj]
                simpa using hdouble
              subst hc
              exact ⟨.redirect true true (redirName rest).1, (redirName rest).2,
                (redirName_suffix rest).trans (List.suffix_cons _ _), fun _ h => .double h,
                hstep true hdouble⟩
        · have hne : ∀ {n : ℕ} (_ : n < 256), ch ≠ UInt8.ofNat n → ¬ ch.toNat = n := by
            rintro n - hch rfl
            exact hch (UInt8.ofNat_toNat).symm
          have h94' := hne (by decide) h94
          have h34' := hne (by decide) h34
          have h60' := hne (by decide) h60
          have h62' := hne (by decide) h62
          by_cases h124 : ch = 124
          · subst h124
            refine ⟨.pipe, sp, List.suffix_refl sp, fun _ h => .pipe h, fun r strdups => ?_⟩
            rw [redirStep.eq_def, if_neg h94', if_neg h34', if_neg h60', if_neg h62',
              if_pos (show UInt8.toNat 124 = 124 from rfl)]
            exact ⟨rfl, rfl, List.suffix_refl _⟩
          · have h124' := hne (by decide) h124
            refine ⟨.char ch, sp, List.suffix_refl sp, fun _ h => .char ?_ h34 (fun h => absurd h h94) h,
              fun r strdups => ?_⟩
            · simp [isRedir, h60', h62', h124']
            · rw [redirStep.eq_def, if_neg h94', if_neg h34', if_neg h60', if_neg h62', if_neg h124']
              exact ⟨rfl, rfl, List.suffix_refl _⟩

theorem redirections_reads : ∀ (fuel : ℕ) (s : Str), s.length ≤ fuel → ∃ items, Reads s items ∧
    ∀ r strdups, match redirections fuel s r strdups with
      | none => false ∈ strdups
      | some r' => r' = items.foldl Item.apply r
  | fuel, [], _ => ⟨[], .nil, fun r strdups => by
      rw [show redirections fuel [] r strdups = some r by cases fuel <;> rfl]
      rfl⟩
  | fuel + 1, ch :: sp, hlen => by
    obtain ⟨i, rest, htakes⟩ := takes_exists ch sp
    have hle := htakes.suffix.length_le
    rw [List.length_cons] at hlen
    obtain ⟨items, hreads, hrest⟩ := redirections_reads fuel rest (by omega)
    refine ⟨i :: items, htakes.reads items hreads, fun r strdups => ?_⟩
    have hstep := htakes.step r strdups
    rw [redirections_succ]
    cases hred : redirStep ch sp r strdups with
    | none =>
      rw [hred] at hstep
      exact hstep
    | some p =>
      obtain ⟨rest', r', strdups'⟩ := p
      rw [hred] at hstep
      obtain ⟨rfl, rfl, hsuffix⟩ := hstep
      have hrest := hrest (i.apply r) strdups'
      dsimp only [Option.bind_some]
      cases hall : redirections fuel rest' (i.apply r) strdups' with
      | none =>
        rw [hall] at hrest
        exact hsuffix.subset hrest
      | some r'' =>
        rw [hall] at hrest
        exact hrest

theorem first_quote : ∀ {t t' s s' : Str}, 34 ∉ t → 34 ∉ t' → t ++ 34 :: s = t' ++ 34 :: s' →
    t = t' ∧ s = s'
  | [], [], _, _, _, _, h => ⟨rfl, (List.cons.inj h).2⟩
  | [], c :: t', _, _, _, ht', h => absurd ((List.cons.inj h).1 ▸ List.mem_cons_self) ht'
  | c :: t, [], _, _, ht, _, h => absurd ((List.cons.inj h).1 ▸ List.mem_cons_self) ht
  | c :: t, c' :: t', s, s', ht, ht', h => by
    obtain ⟨rfl, htail⟩ := List.cons.inj h
    obtain ⟨rfl, rfl⟩ := first_quote (fun hmem => ht (List.mem_cons_of_mem c hmem))
      (fun hmem => ht' (List.mem_cons_of_mem c hmem)) htail
    exact ⟨rfl, rfl⟩

theorem reads_unique {s : Str} {items items' : List Item} (h : Reads s items) (h' : Reads s items') :
    items = items' := by
  induction h generalizing items' with
  | nil => cases h'; rfl
  | @escaped c s items hc _ ih =>
    cases h' with
    | escaped _ h' => rw [ih h']
    | char _ _ hcaret _ => exact absurd (hcaret rfl c rfl) (by rw [hc]; exact Bool.noConfusion)
  | @quoted text s items htext _ ih =>
    generalize hline : 34 :: (text ++ 34 :: s) = line at h'
    cases h' with
    | quoted htext' h' =>
      obtain ⟨rfl, rfl⟩ := first_quote htext htext' (List.cons.inj hline).2
      rw [ih h']
    | unclosed htext' =>
      rw [← (List.cons.inj hline).2] at htext'
      exact absurd (List.mem_append_right text List.mem_cons_self) htext'
    | char _ hquote _ _ => exact absurd (List.cons.inj hline).1.symm hquote
    | _ => cases hline
  | @unclosed text htext =>
    generalize hline : 34 :: text = line at h'
    cases h' with
    | quoted htext' h' =>
      rw [(List.cons.inj hline).2] at htext
      exact absurd (List.mem_append_right _ List.mem_cons_self) htext
    | unclosed htext' => rw [(List.cons.inj hline).2]
    | char _ hquote _ _ => exact absurd (List.cons.inj hline).1.symm hquote
    | _ => cases hline
  | input _ ih =>
    cases h' with
    | input h' => rw [ih h']
    | char hc _ _ _ => cases hc
  | single hs _ ih =>
    cases h' with
    | single _ h' => rw [ih h']
    | double _ => exact absurd rfl hs
    | char hc _ _ _ => cases hc
  | double _ ih =>
    cases h' with
    | single hs' _ => exact absurd rfl hs'
    | double h' => rw [ih h']
    | char hc _ _ _ => cases hc
  | pipe _ ih =>
    cases h' with
    | pipe h' => rw [ih h']
    | char hc _ _ _ => cases hc
  | @char c s items hc hquote hcaret _ ih =>
    generalize hline : c :: s = line at h'
    cases h' with
    | nil => cases hline
    | char _ _ _ h' =>
      obtain ⟨rfl, rfl⟩ := List.cons.inj hline
      rw [ih h']
    | @escaped d s' _ hd _ =>
      obtain ⟨rfl, rfl⟩ := List.cons.inj hline
      rw [hcaret rfl d rfl] at hd
      cases hd
    | quoted => exact absurd (List.cons.inj hline).1 hquote
    | unclosed => exact absurd (List.cons.inj hline).1 hquote
    | _ =>
      rw [(List.cons.inj hline).1] at hc
      cases hc

/-! ## What is found in the line -/

/-- **The line is split as its items say.** -/
structure Splits (items : List Item) (x : Compacting) : Prop where
  /-- One more than the pipes. -/
  num : x.num = items.countP Item.isPipe + 1
  count : (texts items).length = x.num
  /-- The pieces between the pipes stand one behind the other, each with its NUL. -/
  commands : (texts items).flatMap (· ++ [0]) <+: x.buf
  input : x.ifn = (inputs items).getLast?
  output : x.ofn = (outputs items).getLast?.map Prod.snd
  append : x.append = true ↔ (outputs items).getLast?.map Prod.fst = some true

/-- The last redirection of output is a single one, and there is a double one in front of it. -/
def Persists (items : List Item) : Prop :=
  (outputs items).getLast?.map Prod.fst = some false ∧ (outputs items).any Prod.fst = true

theorem append_iff (l : List (Bool × Str)) :
    (l.any Prod.fst = true ↔ l.getLast?.map Prod.fst = some true) ↔
      ¬ (l.getLast?.map Prod.fst = some false ∧ l.any Prod.fst = true) := by
  cases hlast : l.getLast? with
  | none =>
    rw [List.getLast?_eq_none_iff.mp hlast]
    simp
  | some o =>
    have hmem := List.mem_of_getLast? hlast
    cases hfst : o.1 with
    | true =>
      have hany : l.any Prod.fst = true := List.any_eq_true.mpr ⟨o, hmem, hfst⟩
      simp [hfst, hany]
    | false => cases l.any Prod.fst <;> simp [hfst]

theorem length_texts (items : List Item) : (texts items).length = items.countP Item.isPipe + 1 := by
  induction items with
  | nil => rfl
  | cons i items ih =>
    cases hi : i.isPipe with
    | true =>
      have hpipe : i = .pipe := by cases i <;> first | rfl | cases hi
      rw [hpipe, texts_pipe, List.length_cons, ih, List.countP_cons_of_pos rfl]
    | false =>
      rw [texts_cons hi, List.length_modifyHead, ih, List.countP_cons_of_neg (by rw [hi]; exact Bool.false_ne_true)]

theorem modifyHead_nil_append (l : List Str) : l.modifyHead ([] ++ ·) = l := by
  cases l <;> rfl

/-- **`get_redirection` splits a line as its items say exactly if no double redirection of output
is overridden by a single one.**  It accesses nothing behind the line's NUL; if it ends with an
error, there was no memory for a name. -/
theorem getRedirection_splits_iff {line : Str} (hnul : 0 ∉ line) (strdups : List Bool) :
    ∃ items, Reads line items ∧ (∀ items', Reads line items' → items' = items) ∧
      ∃ r, getRedirectionInPlace line strdups = some r ∧
        match r with
        | .done x => (Splits items x ↔ ¬ Persists items)
        | .noMemory => false ∈ strdups
        | .next _ => False := by
  obtain ⟨items, hreads, hall⟩ := redirections_reads line.length line (Nat.le_refl _)
  refine ⟨items, hreads, fun _ h => reads_unique h hreads, ?_⟩
  have hplace := inPlace_eq hnul strdups
  have hfold := hall ⟨[], [], none, none, false⟩ strdups
  rw [getRedirection] at hplace
  cases hred : redirections line.length line ⟨[], [], none, none, false⟩ strdups with
  | none =>
    rw [hred] at hplace hfold
    exact ⟨_, hplace, hfold⟩
  | some r =>
    rw [hred] at hplace hfold
    obtain ⟨x, hx, hfin⟩ := hplace
    have htaken := taken_foldl items ⟨[], [], none, none, false⟩
    rw [← show r = items.foldl Item.apply ⟨[], [], none, none, false⟩ from hfold] at htaken
    have hcommands : r.pipes ++ [r.cmd] = texts items :=
      htaken.commands.trans (modifyHead_nil_append _)
    have hnum : x.num = (texts items).length := by
      rw [hfin.num, ← hcommands, List.length_append]
      rfl
    refine ⟨_, hx, ?_⟩
    rw [Persists, ← append_iff]
    have happend : x.append = (outputs items).any Prod.fst :=
      hfin.append.trans (htaken.append.trans (Bool.false_or _))
    refine ⟨fun h => happend ▸ h.append, fun h => ⟨hnum.trans (length_texts items), hnum.symm, ?_, ?_, ?_,
      happend ▸ h⟩⟩
    · rw [← hcommands]
      exact hfin.commands
    · rw [hfin.ifn, htaken.input, Option.or_none]
    · rw [hfin.ofn, htaken.output, Option.or_none]

/-- In `a>b` the output is redirected to `b`. -/
theorem getRedirection_splits_iff_b : 0 ∉ ([97, 62, 98] : Str) ∧ ∃ x,
    getRedirectionInPlace [97, 62, 98] [] = some (.done x) ∧
      Splits [.char 97, .redirect true false [98]] x := by
  have hreads : Reads [97, 62, 98] [.char 97, .redirect true false [98]] :=
    .char (by decide) (by decide) (fun h => absurd h (by decide)) (.single (by decide) .nil)
  obtain ⟨items, -, hunique, r, hr, hsplits⟩ := @getRedirection_splits_iff [97, 62, 98]
    (by decide) []
  rw [← hunique _ hreads] at hsplits
  refine ⟨by decide, ?_⟩
  match r, hsplits with
  | .done x, hsplits => exact ⟨x, hr, hsplits.mpr fun h => absurd h.2 (by decide)⟩
  | .noMemory, hmem => exact absurd hmem List.not_mem_nil
  | .next _, hfalse => exact hfalse.elim

/-- In `>>a >b` the output is redirected to `b`, which is appended to. -/
theorem append_persists : ∃ items x, Reads [62, 62, 97, 32, 62, 98] items ∧
    getRedirectionInPlace [62, 62, 97, 32, 62, 98] [] = some (.done x) ∧
      (outputs items).getLast? = some (false, [98]) ∧ x.append = true ∧ ¬ Splits items x :=
  ⟨[.redirect true true [97], .char 32, .redirect true false [98]],
    ⟨[32, 0, 97, 32, 62, 98, 0], 2, 7, 1, none, some [98], true, []⟩,
    .double (.char (by decide) (by decide) (fun h => absurd h (by decide)) (.single (by decide) .nil)),
    by decide +kernel, by decide, rfl, fun h => absurd (h.append.mp rfl) (by decide)⟩

end Shell
end BurdahDos
