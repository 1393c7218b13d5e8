import BurdahDos.Listing.Descript
import Mathlib

/-!
# The descriptions that DIR displays

A line of DESCRIPT.ION is what is between two of CR and LF; `description` is what it says about the
file that its first token names.

* `chunkLoop_spec`: a text is broken at white space only, and no NUL is stored outside of it.
* `findLoop_spec`: the line that is found is the first one with the name, unless a line with nothing
  behind its first token is in front of it.
* `showDescription_spec`: the description is displayed then; in any case the loops end, and all
  stores are inside of the buffers.
-/

set_option autoImplicit false

namespace BurdahDos
namespace Listing

/-! ## Lines -/

/-- The lines of a file; there are empty ones between a CR and a LF. -/
def linesOf (file : Str) : List Str := file.splitOnP isEol

/-- The first token of a line. -/
def firstToken (l : Str) : Str :=
  match l.dropWhile isspace with
  | [] => []
  | c :: s => c :: s.takeWhile fun c => !(isspace c || isCtrl c)

/-- What is behind the first token. -/
def behindToken (l : Str) : Str :=
  match l.dropWhile isspace with
  | [] => []
  | _ :: s => s.dropWhile fun c => !(isspace c || isCtrl c)

/-- The text behind the first token and the character at its end, without the blanks in front. -/
def textOfLine (l : Str) : Str := ((behindToken l).drop 1).dropWhile (· == 32)

/-- The description in a line: it is ended by Ctrl-D or Ctrl-Z, also right behind the token, and cut
to what there is room for. -/
def description (l : Str) : Str :=
  if ((behindToken l).head?.map isCtrl).getD false then []
  else cstr (((textOfLine l).takeWhile fun c => !isCtrl c).take 127)

/-- The first token of a line is the name. -/
def named (name l : Str) : Bool := !l.all isspace && strcmpiEq name (cstr (firstToken l))

/-- What is to be displayed for a name. -/
def describe (name file : Str) : Option Str := ((linesOf file).find? (named name)).map description

/-- A text, displayed in lines: the white space at which it is broken is left out. -/
inductive Broken : Str → List Str → Prop
  | last (p : Str) : Broken p [p]
  | break (p white q : Str) (ps : List Str) : (∀ c ∈ white, isspace c = true) → Broken q ps →
      Broken (p ++ (white ++ q)) (p :: ps)

/-! ## Breaking a text -/

theorem breakAt_bounds (p : Str) : 0 < breakAt p ∧ breakAt p ≤ 35 := by
  have hback : ∀ i, backLoop p i ≤ i := by
    intro i
    induction i with
    | zero => exact le_rfl
    | succ i ih =>
      rw [backLoop]
      split
      · exact ih.trans (Nat.le_succ i)
      · exact le_rfl
  have h := hback 35
  simp only [breakAt]
  split
  · omega
  · split <;> omega

theorem chunkLoop_spec {fuel : ℕ} {p : Str} (h : p.length < fuel) :
    ∃ ps, chunkLoop fuel p = some ps ∧ Broken p ps := by
  induction fuel generalizing p with
  | zero => omega
  | succ fuel ih =>
    obtain ⟨hpos, hle⟩ := breakAt_bounds p
    rw [chunkLoop]
    split
    next hlong =>
      have hsuffix := (@List.dropWhile_suffix _ (p.drop (breakAt p)) isspace).length_le
      rw [List.length_drop] at hsuffix
      obtain ⟨ps, hps, hbroken⟩ := @ih ((p.drop (breakAt p)).dropWhile isspace) (by omega)
      rw [if_neg (by omega), hps]
      refine ⟨_, rfl, ?_⟩
      have hsplit : p = p.take (breakAt p) ++ ((p.drop (breakAt p)).takeWhile isspace ++
          (p.drop (breakAt p)).dropWhile isspace) := by
        rw [List.takeWhile_append_dropWhile, List.take_append_drop]
      conv_lhs => rw [hsplit]
      exact .break _ _ _ _ (fun c hc => List.mem_takeWhile_imp hc) hbroken
    next => exact ⟨[p], rfl, .last p⟩

/-! ## Tokens -/

theorem readLoop_eq (fn : Bool) {size : ℕ} (maxlen : ℕ) (text : Str) (cur : UInt8) (file : Str)
    (hpos : 0 < maxlen) (h : text.length + maxlen = size) :
    readLoop fn size maxlen text cur file =
      some ((text ++ cur :: file.takeWhile fun c => !endsToken fn c).take (size - 1),
        (file.dropWhile fun c => !endsToken fn c).head?,
        (file.dropWhile fun c => !endsToken fn c).tail) := by
  induction file generalizing maxlen text cur with
  | nil =>
    by_cases hroom : 1 < maxlen
    · have htext : (text ++ [cur]).length ≤ size - 1 := by simp; omega
      rw [readLoop]
      simp only [if_pos hroom, List.takeWhile_nil, List.take_of_length_le htext]
      rw [if_neg (by omega)]
      rfl
    · rw [readLoop]
      simp only [if_neg hroom, List.takeWhile_nil]
      rw [if_neg (by omega), List.take_left' (by omega)]
      rfl
  | cons c file ih =>
    by_cases hroom : 1 < maxlen
    · have htext : (text ++ [cur]).length ≤ size - 1 := by simp; omega
      rw [readLoop]
      simp only [if_pos hroom]
      rw [if_neg (by omega)]
      cases hc : endsToken fn c with
      | true =>
        simp only [if_true, List.takeWhile_cons, List.dropWhile_cons, hc, Bool.not_true,
          Bool.false_eq_true, if_false, List.take_of_length_le htext]
        rfl
      | false =>
        rw [if_neg (by simp), ih (maxlen - 1) (text ++ [cur]) c (by omega) (by simp; omega)]
        simp [hc]
    · have hfull : text.length = size - 1 := by omega
      rw [readLoop]
      simp only [if_neg hroom]
      rw [if_neg (by omega)]
      cases hc : endsToken fn c with
      | true =>
        simp only [if_true, List.takeWhile_cons, List.dropWhile_cons, hc, Bool.not_true,
          Bool.false_eq_true, if_false, List.take_left' hfull]
        rfl
      | false =>
        rw [if_neg (by simp), ih maxlen text c hpos h, List.take_left' hfull, List.take_left' hfull]
        simp [hc]

theorem isspace_eol {c : UInt8} (h : isEol c = true) : isspace c = true := by
  rw [isEol, Bool.or_eq_true, beq_iff_eq, beq_iff_eq] at h
  rcases h with rfl | rfl <;> decide

theorem endsToken_true (c : UInt8) : endsToken true c = (isspace c || isCtrl c) := by
  rw [endsToken, Bool.true_and]
  cases heol : isEol c with
  | true => simp [isspace_eol heol]
  | false => cases isspace c <;> simp

theorem endsToken_false (c : UInt8) : endsToken false c = (isEol c || isCtrl c) := by
  rw [endsToken, Bool.false_and, Bool.or_false]

/-- A name: it is ended by white space, too. -/
theorem descGetNextToken_name {size : ℕ} (hsize : 0 < size) {file s : Str} {c : UInt8}
    (h : file.dropWhile isspace = c :: s) :
    descGetNextToken true size file =
      some (true, (c :: s.takeWhile fun c => !(isspace c || isCtrl c)).take (size - 1),
        (s.dropWhile fun c => !(isspace c || isCtrl c)).tail) := by
  have hskip : (fun c => c == 32 || (true && isspace c)) = isspace := by
    funext c
    rw [Bool.true_and, Bool.or_eq_right_iff_imp, beq_iff_eq]
    rintro rfl
    decide
  rw [descGetNextToken, hskip, h]
  simp only [readLoop_eq true size [] c s hsize (Nat.zero_add _), List.nil_append, endsToken_true,
    Option.map_some, Bool.true_or, if_true]

/-- What is behind the line that a position is in. -/
def skipLine (s : Str) : Str := (s.dropWhile fun c => !isEol c).drop 1

/-- The rest of the line is read, wherever the token ends. -/
theorem skipLine_token (s : Str) :
    (if ((s.dropWhile fun c => !(isEol c || isCtrl c)).head?.map isEol).getD true then
      (s.dropWhile fun c => !(isEol c || isCtrl c)).tail
    else skipLine (s.dropWhile fun c => !(isEol c || isCtrl c)).tail) = skipLine s := by
  induction s with
  | nil => rfl
  | cons c s ih =>
    cases heol : isEol c with
    | true => simp [skipLine, heol]
    | false =>
      have hskip : skipLine (c :: s) = skipLine s := by simp [skipLine, heol]
      cases hctrl : isCtrl c with
      | true => simp [heol, hctrl, hskip]
      | false =>
        rw [hskip, ← ih]
        simp [heol, hctrl]

/-- A description: the rest of the line is read with it. -/
theorem descGetNextToken_text {size : ℕ} (hsize : 0 < size) {file s : Str} {c : UInt8}
    (h : file.dropWhile (· == 32) = c :: s) :
    descGetNextToken false size file =
      some (true, (c :: s.takeWhile fun c => !(isEol c || isCtrl c)).take (size - 1),
        skipLine s) := by
  have hskip : (fun c => c == 32 || (false && isspace c)) = (· == (32 : UInt8)) := by
    funext c
    rw [Bool.false_and, Bool.or_false]
  rw [descGetNextToken, hskip, h]
  simp only [readLoop_eq false size [] c s hsize (Nat.zero_add _), List.nil_append, endsToken_false,
    Option.map_some, Bool.false_or]
  rw [← skipLine_token s]
  rfl

theorem descGetNextToken_end {fn : Bool} {size : ℕ} {file : Str}
    (h : (file.dropWhile fun c => c == 32 || (fn && isspace c)) = []) :
    descGetNextToken fn size file = some (false, [], []) := by
  rw [descGetNextToken, h]

/-! ## The line that is found -/

/-- A rest of a file that begins with the end of a line, or is empty. -/
def AtEol (s : Str) : Prop := ∀ c ∈ s.head?, isEol c = true

/-- The line with the name can be displayed: it has a text, or nothing but blanks follows it. -/
def Shown (l : Str) (ls : List Str) : Prop :=
  (∃ x r c s, behindToken l = x :: r ∧ isCtrl x = false ∧ textOfLine l = c :: s ∧
      isCtrl c = false) ∨
    (ls = [] ∧ textOfLine l = []) ∨
    (behindToken l = [] ∧ ∃ u, ls = [u] ∧ ∀ c ∈ u, c = 32)

/-- In front of the first line with the name, no line has only a name. -/
def Clear (name : Str) : List Str → Prop
  | [] => True
  | l :: ls =>
    if named name l then Shown l ls
    else (l.all isspace ∨ textOfLine l ≠ [] ∨ ∀ k ∈ ls, named name k = false) ∧ Clear name ls

theorem takeWhile_line {p : UInt8 → Bool} {l s : Str} (hs : ∀ c ∈ s.head?, p c = false) :
    (l ++ s).takeWhile p = l.takeWhile p := by
  cases s with
  | nil => rw [List.append_nil]
  | cons c s =>
    have hc : p c = false := hs c rfl
    rw [List.takeWhile_append]
    split
    next h =>
      rw [List.takeWhile_cons_of_neg (by simp [hc]), List.append_nil,
        ((List.takeWhile_prefix p).eq_of_length h)]
    next => rfl

theorem dropWhile_line {p : UInt8 → Bool} {l s : Str} (hs : ∀ c ∈ s.head?, p c = false) :
    (l ++ s).dropWhile p = l.dropWhile p ++ s := by
  induction l with
  | nil =>
    cases s with
    | nil => rfl
    | cons c s => exact List.dropWhile_cons_of_neg (by simp [hs c rfl])
  | cons c l ih =>
    cases hc : p c with
    | true =>
      rw [List.cons_append, List.dropWhile_cons_of_pos hc, ih, List.dropWhile_cons_of_pos hc]
    | false =>
      rw [List.cons_append, List.dropWhile_cons_of_neg (by simp [hc]),
        List.dropWhile_cons_of_neg (by simp [hc]), List.cons_append]

theorem linesOf_cons {l : Str} (hl : ∀ c ∈ l, isEol c = false) {e : UInt8} (he : isEol e = true)
    (s : Str) : linesOf (l ++ e :: s) = l :: linesOf s :=
  List.splitOnP_append_cons_of_forall_mem hl e he s

theorem linesOf_last {l : Str} (hl : ∀ c ∈ l, isEol c = false) : linesOf l = [l] :=
  List.splitOnP_eq_singleton hl

/-- A file is a line and what is behind it. -/
theorem exists_line (file : Str) : ∃ l s, file = l ++ s ∧ (∀ c ∈ l, isEol c = false) ∧ AtEol s := by
  refine ⟨file.takeWhile fun c => !isEol c, file.dropWhile fun c => !isEol c,
    (List.takeWhile_append_dropWhile).symm, fun c hc => ?_, fun c hc => ?_⟩
  · simpa using List.mem_takeWhile_imp hc
  · have hstop := List.head?_dropWhile_not (fun c => !isEol c) file
    rw [Option.mem_def.1 hc] at hstop
    simpa using hstop

/-- The lines behind a position are lines of the file. -/
theorem linesOf_skipLine {file v : Str} (hv : v <:+ file) {l : Str}
    (hl : l ∈ linesOf (skipLine v)) : l = [] ∨ l ∈ linesOf file := by
  obtain ⟨a, s, rfl, ha, hs⟩ := exists_line v
  have hskip : skipLine (a ++ s) = s.drop 1 := by
    rw [skipLine, dropWhile_line (fun c hc => by simp [hs c hc]), List.dropWhile_eq_nil_iff.2
      (fun c hc => by simp [ha c hc]), List.nil_append]
  rw [hskip] at hl
  cases s with
  | nil => exact .inl (by simpa [linesOf] using hl)
  | cons e w =>
    obtain ⟨pre, rfl⟩ := hv
    refine .inr ?_
    rw [← List.append_assoc, linesOf, List.splitOnP_append_cons _ _ (hs e rfl)]
    exact List.mem_append_right _ hl

theorem skipLine_line {u s : Str} (hu : ∀ c ∈ u, isEol c = false) (hs : AtEol s) :
    skipLine (u ++ s) = s.tail := by
  rw [skipLine, dropWhile_line (fun c hc => by simp [hs c hc]), List.dropWhile_eq_nil_iff.2
    (fun c hc => by simp [hu c hc]), List.nil_append, List.drop_one]

variable {name l s : Str}

/-- The token at the beginning of a line. -/
theorem token_line (hs : AtEol s) (hl : l.all isspace = false) :
    descGetNextToken true 128 (l ++ s) =
      some (true, (firstToken l).take 127, (behindToken l ++ s).tail) := by
  have hstop : ∀ c ∈ s.head?, (!(isspace c || isCtrl c)) = false := fun c hc => by
    simp [isspace_eol (hs c hc)]
  cases hdrop : l.dropWhile isspace with
  | nil =>
    rw [List.dropWhile_eq_nil_iff] at hdrop
    rw [List.all_eq_true.2 hdrop] at hl
    cases hl
  | cons c t =>
    have hfile : (l ++ s).dropWhile isspace = c :: (t ++ s) := by
      rw [List.dropWhile_append, hdrop]
      rfl
    rw [descGetNextToken_name (by decide) hfile, takeWhile_line hstop, dropWhile_line hstop]
    simp only [firstToken, behindToken, hdrop]

/-- What `findLoop` goes on with behind a token. -/
def afterToken (rest : Str) : Str :=
  match rest.dropWhile (· == 32) with
  | [] => []
  | _ :: v => skipLine v

theorem descGetNextToken_false {size : ℕ} (hsize : 0 < size) (rest : Str) :
    ∃ b text, descGetNextToken false size rest = some (b, text, afterToken rest) := by
  cases hdrop : rest.dropWhile (· == 32) with
  | nil =>
    refine ⟨false, [], ?_⟩
    rw [afterToken, hdrop, descGetNextToken_end]
    simpa using hdrop
  | cons c v =>
    refine ⟨true, (c :: v.takeWhile fun c => !(isEol c || isCtrl c)).take (size - 1), ?_⟩
    rw [afterToken, hdrop]
    exact descGetNextToken_text hsize hdrop

theorem afterToken_length (rest : Str) : (afterToken rest).length ≤ rest.length := by
  rw [afterToken]
  split
  · exact Nat.zero_le _
  next c v hdrop =>
    have hle := (@List.dropWhile_suffix _ rest (· == 32)).length_le
    have hskip := (@List.dropWhile_suffix _ v fun c => !isEol c).length_le
    rw [hdrop, List.length_cons] at hle
    rw [skipLine, List.length_drop]
    omega

theorem behindToken_subset (l : Str) : ∀ c ∈ behindToken l, c ∈ l := by
  intro c hc
  rw [behindToken] at hc
  split at hc
  · cases hc
  next d t hdrop =>
    have hmem : c ∈ l.dropWhile isspace := by
      rw [hdrop]
      exact List.mem_cons_of_mem _ (List.dropWhile_subset _ hc)
    exact List.dropWhile_subset _ hmem

/-- The text behind the token and a character. -/
theorem text_split {c : UInt8} {u : Str} (hnoeol : ∀ c ∈ l, isEol c = false)
    (htext : textOfLine l = c :: u) (s : Str) :
    (behindToken l ++ s).tail.dropWhile (· == 32) = c :: (u ++ s) ∧
      ∀ d ∈ u, isEol d = false := by
  rw [textOfLine] at htext
  cases hbehind : behindToken l with
  | nil =>
    rw [hbehind] at htext
    cases htext
  | cons x r =>
    rw [hbehind, List.drop_one, List.tail_cons] at htext
    refine ⟨?_, fun d hd => hnoeol d (behindToken_subset l d ?_)⟩
    · rw [List.cons_append, List.tail_cons, List.dropWhile_append, htext]
      rfl
    · have hmem : d ∈ r.dropWhile (· == 32) := by
        rw [htext]
        exact List.mem_cons_of_mem _ hd
      rw [hbehind]
      exact List.mem_cons_of_mem _ (List.dropWhile_subset _ hmem)

/-- A text behind the token: the next line follows it. -/
theorem afterToken_text (hnoeol : ∀ c ∈ l, isEol c = false) (hs : AtEol s)
    (htext : textOfLine l ≠ []) : afterToken (behindToken l ++ s).tail = s.tail := by
  obtain ⟨c, u, hcons⟩ := List.exists_cons_of_ne_nil htext
  obtain ⟨hdrop, hu⟩ := text_split hnoeol hcons s
  rw [afterToken, hdrop]
  exact skipLine_line hu hs

theorem cstr_take_comm (n : ℕ) (s : Str) : cstr (s.take n) = (cstr s).take n := by
  induction s generalizing n with
  | nil => simp [cstr]
  | cons c s ih =>
    cases n with
    | zero => rfl
    | succ n =>
      simp only [cstr] at ih
      cases hc : (c != 0) <;> simp [cstr, hc, ih]

/-- A buffer has room for the names that there are. -/
theorem strcmpiEq_take (hname : name.length < 127) (token : Str) :
    strcmpiEq name (cstr (token.take 127)) = strcmpiEq name (cstr token) := by
  rw [cstr_take_comm]
  rcases Nat.lt_or_ge (cstr token).length 127 with hlt | hge
  · rw [List.take_of_length_le hlt.le]
  · have hne : ∀ t : Str, t.length ≠ name.length → strcmpiEq name t = false := by
      intro t ht
      rw [strcmpiEq, beq_eq_false_iff_ne]
      intro heq
      exact ht (by simpa using (congrArg List.length heq).symm)
    rw [hne _ (by rw [List.length_take]; omega), hne _ (by omega)]

theorem named_iff (hl : l.all isspace = false) (hname : name.length < 127) :
    strcmpiEq name (cstr ((firstToken l).take 127)) = named name l := by
  rw [strcmpiEq_take hname, named, hl, Bool.not_false, Bool.true_and]

/-- The lines behind the end of a line. -/
def linesBehind (s : Str) : List Str := if s = [] then [] else linesOf s.tail

theorem linesOf_line (hnoeol : ∀ c ∈ l, isEol c = false) (hs : AtEol s) :
    linesOf (l ++ s) = l :: linesBehind s := by
  cases s with
  | nil => rw [List.append_nil, linesOf_last hnoeol]; rfl
  | cons e s =>
    rw [linesOf_cons hnoeol (hs e rfl), linesBehind, if_neg (List.cons_ne_nil _ _), List.tail_cons]

theorem linesBehind_eq_nil (h : linesBehind s = []) : s = [] := by
  rw [linesBehind] at h
  split at h
  next hs => exact hs
  next => exact absurd h (List.splitOnP_ne_nil _ _)

theorem linesBehind_singleton {u : Str} (h : linesBehind s = [u]) :
    s.tail = u := by
  rw [linesBehind] at h
  split at h
  · cases h
  · obtain ⟨a, b, hab, ha, hb⟩ := exists_line s.tail
    rw [hab, linesOf_line ha hb] at h
    obtain ⟨rfl, hnone⟩ := List.cons.inj h
    rw [hab, linesBehind_eq_nil hnone, List.append_nil]

/-- Only blanks follow the token. -/
theorem description_bare (hbare : (behindToken l ++ s).tail.dropWhile (· == 32) = [])
    (htext : textOfLine l = []) :
    (descGetNextToken false 128 (behindToken l ++ s).tail).map (fun r => cstr r.2.1) =
      some (description l) := by
  rw [descGetNextToken_end (by simpa using hbare), description, htext]
  split <;> rfl

/-- Without the end of a line, a description ends at a control character. -/
theorem takeWhile_noeol {u : Str} (hu : ∀ c ∈ u, isEol c = false) :
    (u.takeWhile fun c => !(isEol c || isCtrl c)) = u.takeWhile fun c => !isCtrl c := by
  induction u with
  | nil => rfl
  | cons c u ih =>
    rw [List.forall_mem_cons] at hu
    simp only [List.takeWhile_cons, hu.1, Bool.false_or, ih hu.2]

/-- A line that is shown has its description behind the token. -/
theorem description_shown (hnoeol : ∀ c ∈ l, isEol c = false) (hs : AtEol s)
    (hshown : Shown l (linesBehind s)) :
    (descGetNextToken false 128 (behindToken l ++ s).tail).map (fun r => cstr r.2.1) =
      some (description l) := by
  rcases hshown with ⟨x, r, c, u, hbehind, hx, htext, hc⟩ | ⟨hlast, htext⟩ |
    ⟨hbehind, v, hlines, hblank⟩
  · obtain ⟨hdrop, hu⟩ := text_split hnoeol htext s
    have hstop : ∀ c ∈ s.head?, (!(isEol c || isCtrl c)) = false := fun c hc => by simp [hs c hc]
    have hdesc : description l = cstr ((c :: u.takeWhile fun c => !isCtrl c).take 127) := by
      rw [description, hbehind, htext, List.takeWhile_cons_of_pos (by simp [hc])]
      simp [hx]
    rw [descGetNextToken_text (by decide) hdrop, takeWhile_line hstop, takeWhile_noeol hu, hdesc]
    rfl
  · obtain rfl := linesBehind_eq_nil hlast
    refine description_bare ?_ htext
    rw [List.append_nil, ← List.drop_one]
    exact htext
  · refine description_bare ?_ (by rw [textOfLine, hbehind]; rfl)
    rw [hbehind, List.nil_append, linesBehind_singleton hlines, List.dropWhile_eq_nil_iff]
    intro c hc
    rw [hblank c hc]
    rfl

/-! ## The search -/

/-- A line of white space is skipped with the one behind it. -/
theorem findLoop_blank {fuel : ℕ} (hl : l.all isspace = true) {e : UInt8} (he : isEol e = true)
    (s : Str) : findLoop name (fuel + 1) (l ++ e :: s) = findLoop name (fuel + 1) s := by
  have hall : ∀ c ∈ l ++ [e], (c == 32 || (true && isspace c)) = true := by
    intro c hc
    rw [Bool.true_and, Bool.or_eq_true]
    rcases List.mem_append.1 hc with hc | hc
    · exact .inr (List.all_eq_true.1 hl c hc)
    · rw [List.mem_singleton.1 hc]
      exact .inr (isspace_eol he)
  have hskip : descGetNextToken true 128 (l ++ e :: s) = descGetNextToken true 128 s := by
    have hassoc : l ++ e :: s = (l ++ [e]) ++ s := by simp
    rw [descGetNextToken, descGetNextToken, hassoc, List.dropWhile_append_of_pos hall]
  rw [findLoop, findLoop, hskip]

/-- A line with a token. -/
theorem findLoop_token (hname : name.length < 127) (hne : name ≠ []) {fuel : ℕ} (hs : AtEol s)
    (hl : l.all isspace = false) :
    findLoop name (fuel + 1) (l ++ s) =
      if named name l then
        (descGetNextToken false 128 (behindToken l ++ s).tail).map fun r => some (cstr r.2.1)
      else findLoop name fuel (afterToken (behindToken l ++ s).tail) := by
  obtain ⟨b, text, hdummy⟩ := descGetNextToken_false (Nat.succ_pos 0) (behindToken l ++ s).tail
  rw [findLoop, token_line hs hl]
  simp only [named_iff hl hname, hdummy]
  split
  next hnamed =>
    have htoken : cstr ((firstToken l).take 127) ≠ [] := by
      intro hnil
      rw [← named_iff hl hname, hnil, strcmpiEq, beq_iff_eq, List.map_nil,
        List.map_eq_nil_iff] at hnamed
      exact hne hnamed
    rw [if_neg htoken]
  next => rfl

theorem Clear.cons_of_not {ls : List Str} (h : Clear name (l :: ls)) (hl : named name l = false) :
    (l.all isspace ∨ textOfLine l ≠ [] ∨ ∀ k ∈ ls, named name k = false) ∧ Clear name ls := by
  rw [Clear, if_neg (by simp [hl])] at h
  exact h

theorem named_nil : named name [] = false := rfl

theorem behindToken_suffix (l : Str) : behindToken l <:+ l := by
  rw [behindToken]
  split
  · exact List.nil_suffix
  next c t hdrop =>
    have ht : c :: t <:+ l := hdrop ▸ List.dropWhile_suffix _
    exact (List.dropWhile_suffix _).trans ((List.suffix_cons c t).trans ht)

theorem behindToken_length (hl : l.all isspace = false) : (behindToken l).length < l.length := by
  rw [behindToken]
  split
  next hdrop =>
    cases l with
    | nil => cases hl
    | cons c l => exact Nat.succ_pos _
  next c t hdrop =>
    have hle := (@List.dropWhile_suffix _ l isspace).length_le
    have hrest := (@List.dropWhile_suffix _ t fun c => !(isspace c || isCtrl c)).length_le
    rw [hdrop, List.length_cons] at hle
    omega

/-- The search goes on at the beginning of a line. -/
theorem linesOf_afterToken {file rest : Str} (h : rest <:+ file) {k : Str}
    (hk : k ∈ linesOf (afterToken rest)) : k = [] ∨ k ∈ linesOf file := by
  rw [afterToken] at hk
  split at hk
  · exact .inl (by simpa [linesOf] using hk)
  next c v hdrop =>
    have hv : c :: v <:+ rest := hdrop ▸ List.dropWhile_suffix _
    exact linesOf_skipLine ((List.suffix_cons c v).trans (hv.trans h)) hk

theorem describe_line (hnoeol : ∀ c ∈ l, isEol c = false) (hs : AtEol s) :
    describe name (l ++ s) =
      if named name l then some (description l)
      else ((linesBehind s).find? (named name)).map description := by
  rw [describe, linesOf_line hnoeol hs, List.find?_cons]
  split <;> simp [*]

/-- The search comes to an end, and finds nothing if no line has the name, and the first one that
has it if nothing is in the way. -/
theorem findLoop_spec (hname : name.length < 127) (hne : name ≠ []) (file : Str) :
    ∀ fuel, file.length < fuel →
      (∃ found, findLoop name fuel file = some found) ∧
      ((∀ l ∈ linesOf file, named name l = false) → findLoop name fuel file = some none) ∧
      (Clear name (linesOf file) → findLoop name fuel file = some (describe name file)) := by
  induction hlen : file.length using Nat.strong_induction_on generalizing file with
  | _ n ih =>
    subst hlen
    intro fuel hfuel
    obtain ⟨fuel, rfl⟩ : ∃ k, fuel = k + 1 := ⟨fuel - 1, by omega⟩
    obtain ⟨l, s, rfl, hnoeol, hs⟩ := exists_line file
    rw [linesOf_line hnoeol hs, describe_line hnoeol hs]
    cases hl : l.all isspace with
    | true =>
      have hunnamed : named name l = false := by rw [named, hl]; rfl
      rw [if_neg (by simp [hunnamed])]
      cases s with
      | nil =>
        have hnone : findLoop name (fuel + 1) (l ++ []) = some none := by
          have hend : descGetNextToken true 128 (l ++ []) = some (false, [], []) :=
            descGetNextToken_end (by
              simp only [List.append_nil, List.dropWhile_eq_nil_iff, Bool.true_and]
              exact fun c hc => by simp [List.all_eq_true.1 hl c hc])
          rw [findLoop, hend]
        rw [hnone]
        exact ⟨⟨none, rfl⟩, fun _ => rfl, fun _ => rfl⟩
      | cons e s =>
        have hnext := ih s.length (by simp; omega) s rfl (fuel + 1) (by simp at hfuel; omega)
        have hbehind : linesBehind (e :: s) = linesOf s := by
          rw [linesBehind, if_neg (List.cons_ne_nil _ _), List.tail_cons]
        rw [findLoop_blank hl (hs e rfl), hbehind]
        refine ⟨hnext.1, fun h => hnext.2.1 fun k hk => h k (List.mem_cons_of_mem _ hk), ?_⟩
        exact fun h => hnext.2.2 (h.cons_of_not hunnamed).2
    | false =>
      rw [findLoop_token hname hne hs hl]
      cases hnamed : named name l with
      | true =>
        rw [if_pos rfl, if_pos rfl]
        obtain ⟨b, text, hread⟩ := descGetNextToken_false (Nat.succ_pos 127)
          (behindToken l ++ s).tail
        refine ⟨⟨_, by rw [hread]; rfl⟩, fun h => ?_, fun h => ?_⟩
        · have := h l List.mem_cons_self
          rw [hnamed] at this
          cases this
        · rw [Clear, if_pos hnamed] at h
          have hshown := description_shown hnoeol hs h
          rw [hread, Option.map_some, Option.some.injEq] at hshown
          rw [hread, Option.map_some, hshown]
      | false =>
        rw [if_neg (by simp), if_neg (by simp)]
        have hsuffix : (behindToken l ++ s).tail <:+ l ++ s := by
          obtain ⟨pre, hpre⟩ := behindToken_suffix l
          exact (List.tail_suffix _).trans ⟨pre, by rw [← List.append_assoc, hpre]⟩
        have hshort := behindToken_length hl
        have hrest := afterToken_length (behindToken l ++ s).tail
        rw [List.length_tail, List.length_append] at hrest
        have hnext := ih (afterToken (behindToken l ++ s).tail).length
          (by rw [List.length_append]; omega) _ rfl fuel
          (by rw [List.length_append] at hfuel; omega)
        have hnone : (∀ k ∈ linesBehind s, named name k = false) →
            findLoop name fuel (afterToken (behindToken l ++ s).tail) = some none := by
          intro hall
          refine hnext.2.1 fun k hk => ?_
          rcases linesOf_afterToken hsuffix hk with rfl | hmem
          · exact named_nil
          · rw [linesOf_line hnoeol hs, List.mem_cons] at hmem
            rcases hmem with rfl | hmem
            · exact hnamed
            · exact hall k hmem
        have hfind : (∀ k ∈ linesBehind s, named name k = false) →
            ((linesBehind s).find? (named name)).map description = none := by
          intro hall
          rw [Option.map_eq_none_iff, List.find?_eq_none]
          exact fun k hk => by simp [hall k hk]
        refine ⟨hnext.1, fun h => hnone fun k hk => h k (List.mem_cons_of_mem _ hk), fun h => ?_⟩
        obtain ⟨hblank | htext | hall, hclear⟩ := h.cons_of_not hnamed
        · rw [hl] at hblank
          cases hblank
        · have hnextLine := afterToken_text hnoeol hs htext
          cases s with
          | nil => rw [hnone (by simp [linesBehind]), hfind (by simp [linesBehind])]
          | cons e s =>
            have hbehind : linesBehind (e :: s) = linesOf s := by
              rw [linesBehind, if_neg (List.cons_ne_nil _ _), List.tail_cons]
            rw [List.tail_cons] at hnextLine
            rw [hbehind] at hclear ⊢
            rw [hnextLine] at hnext ⊢
            exact hnext.2.2 hclear
        · rw [hnone hall, hfind hall]

/-! ## What is displayed -/

/-- The name of a file, with its extension. -/
def nameOf (shortName ext : Str) : Str := shortName ++ if ext = [] then [] else 46 :: ext

theorem cstr_append_nul {s : Str} (hs : 0 ∉ s) (t : Str) : cstr (s ++ 0 :: t) = s := by
  rw [cstr, List.takeWhile_append_of_pos]
  · simp
  · intro c hc
    rw [bne_iff_ne]
    rintro rfl
    exact hs hc

theorem cstr_eq_self {s : Str} (hs : 0 ∉ s) : cstr s = s := by
  rw [cstr, List.takeWhile_eq_self_iff]
  intro c hc
  rw [bne_iff_ne]
  rintro rfl
  exact hs hc

theorem fileName_eq {shortName ext : Str} (hshort : shortName.length ≤ 8) (hext : ext.length ≤ 3)
    (hnul : 0 ∉ shortName) (hnul' : 0 ∉ ext) :
    fileName shortName ext = some (nameOf shortName ext) := by
  rw [fileName, if_neg (by omega), nameOf]
  by_cases hnone : ext = []
  · rw [if_pos hnone, if_pos hnone, cstr_append_nul hnul, List.append_nil]
  · rw [if_neg hnone, if_neg hnone, cstr_eq_self]
    simp [hnul, hnul']

/-- The description is displayed, and nothing if there is none. -/
def Displayed : Option Str → List Str → Prop
  | none, ps => ps = []
  | some text, ps => Broken text ps

/-- **The description of the first line with the name is displayed if no line with only a name is in
front of it, and there is a text in it or nothing follows it.**  In any case the loops come to an
end, and no store is outside of a buffer. -/
theorem showDescription_spec (shortName ext file : Str) (hshort : shortName.length ≤ 8)
    (hext : ext.length ≤ 3) (hne : shortName ≠ []) (hdot : shortName.head? ≠ some 46)
    (hnul : 0 ∉ shortName) (hnul' : 0 ∉ ext) :
    ∃ ps, showDescription shortName ext file = some ps ∧
      (Clear (nameOf shortName ext) (linesOf file) →
        Displayed (describe (nameOf shortName ext) file) ps) := by
  have hname : (nameOf shortName ext).length < 127 := by
    rw [nameOf]
    split <;> simp <;> omega
  have hnonempty : nameOf shortName ext ≠ [] := fun h => hne (List.append_eq_nil_iff.1 h).1
  obtain ⟨⟨found, hfound⟩, -, hclear⟩ :=
    findLoop_spec hname hnonempty file (file.length + 1) (Nat.lt_succ_self _)
  rw [showDescription, if_neg hdot, fileName_eq hshort hext hnul hnul', Option.bind_some, hfound,
    Option.bind_some]
  rw [hfound, Option.some.injEq] at hclear
  cases found with
  | none =>
    refine ⟨[], rfl, fun h => ?_⟩
    rw [← hclear h]
    rfl
  | some text =>
    obtain ⟨ps, hps, hbroken⟩ := chunkLoop_spec (Nat.lt_succ_self text.length)
    refine ⟨ps, hps, fun h => ?_⟩
    rw [← hclear h]
    exact hbroken

/-- The lines `A y`, an empty one, `BB z`, `B x`, and `C`. -/
def descriptions : Str :=
  [65, 32, 121, 13, 10, 13, 10, 66, 66, 32, 122, 13, 10, 66, 32, 120, 13, 10, 67]

theorem showDescription_single :
    ∃ ps, showDescription [66] [] descriptions = some ps ∧
      Displayed (describe (nameOf [66] []) descriptions) ps ∧ ps = [[120]] := by
  obtain ⟨ps, hps, h⟩ := showDescription_spec [66] [] descriptions (by decide) (by decide)
    (by simp) (by decide) (by simp) (by simp)
  have hlines : linesOf descriptions =
      [[65, 32, 121], [], [], [], [66, 66, 32, 122], [], [66, 32, 120], [], [67]] := by
    decide
  have hclear : Clear (nameOf [66] []) (linesOf descriptions) := by
    rw [hlines]
    exact ⟨.inr (.inl (by decide)), .inl rfl, .inl rfl, .inl rfl, .inr (.inl (by decide)), .inl rfl,
      .inl ⟨32, [120], 120, [], rfl, rfl, rfl, rfl⟩⟩
  have hx : showDescription [66] [] descriptions = some [[120]] := by decide
  exact ⟨ps, hps, h hclear, Option.some.inj (hps.symm.trans hx)⟩

/-- `A`, CR, LF, `B x`: the line of `B` is skipped with the one of `A`. -/
theorem showDescription_skips :
    describe [66] [65, 13, 10, 66, 32, 120] = some [120] ∧
      showDescription [66] [] [65, 13, 10, 66, 32, 120] = some [] := by
  decide

end Listing
end BurdahDos
