import BurdahDos.Shell.If
import Mathlib

/-!
# The form of IF with `==`

A `Condition` is what the parameters of IF say: options, two operands and a command.

* `cmdIf_outside`: no byte behind the NUL is read, unless nothing is behind the file of an `EXIST`
  that is to execute its command.
* `cmdIf_expected_iff`: a condition whose first operand has no `==` inside of quotes is carried out
  as it says if and only if at most one blank is in front of the `==`, and the command begins with
  no delimiter or is not executed.
* `cmdIf_iff`: when that is so whatever the options, the second operand and the other blanks are.
-/

set_option autoImplicit false

namespace BurdahDos
namespace Shell
namespace If

open Args

/-! ## What the parameters say -/

/-- A blank. -/
def isblank (c : UInt8) : Bool := c == 32 || c == 9

/-- An operand that is not quoted consists of characters other than delimiters and quotes. -/
inductive Operand where
  | bare (text : Str) (ne : text ≠ []) (plain : ∀ c ∈ text, isargdelim c = false ∧ c ≠ quoteChar)
  | quoted (text : Str) (nul : 0 ∉ text) (noquote : quoteChar ∉ text)

/-- The text of an operand, with its quotes. -/
def Operand.text : Operand → Str
  | bare text _ _ => text
  | quoted text _ _ => quoteChar :: text ++ [quoteChar]

/-- `==` is inside of quotes. -/
def Operand.hides : Operand → Prop
  | bare _ _ _ => False
  | quoted text _ _ => [61, 61] <:+: text

/-- The words that may not be the first operand. -/
def keywords : List Str := [wordNot, wordI, wordExist, wordErrorlevel]

/-- The operand is no keyword. -/
def Operand.Free (o : Operand) : Prop := ∀ w ∈ keywords, o.text.map tolower ≠ w.map tolower

/-- A keyword with blanks behind it. -/
structure Spelled (word : Str) where
  spelling : Str
  same : spelling.map tolower = word.map tolower
  blanks : Str
  ne : blanks ≠ []
  all : ∀ c ∈ blanks, isblank c = true

def Spelled.text {word : Str} (s : Spelled word) : Str := s.spelling ++ s.blanks

/-- `NOT` and `/I`, in either order. -/
inductive Options where
  | none
  | not (n : Spelled wordNot)
  | ignore (i : Spelled wordI)
  | notIgnore (n : Spelled wordNot) (i : Spelled wordI)
  | ignoreNot (i : Spelled wordI) (n : Spelled wordNot)

def Options.text : Options → Str
  | none => []
  | not n => n.text
  | ignore i => i.text
  | notIgnore n i => n.text ++ i.text
  | ignoreNot i n => i.text ++ n.text

def Options.negate : Options → Bool
  | none => false
  | not _ => true
  | ignore _ => false
  | notIgnore _ _ => true
  | ignoreNot _ _ => true

def Options.ignoreCase : Options → Bool
  | none => false
  | not _ => false
  | ignore _ => true
  | notIgnore _ _ => true
  | ignoreNot _ _ => true

/-- The parameters of an IF with `==`. -/
structure Condition where
  options : Options
  left : Operand
  free : left.Free
  before : Str
  after : Str
  right : Operand
  /-- The blanks in front of the command. -/
  sep : Str
  command : Str
  before_blank : ∀ c ∈ before, isblank c = true
  after_blank : ∀ c ∈ after, isblank c = true
  sep_blank : ∀ c ∈ sep, isblank c = true
  sep_ne : sep ≠ []
  command_ne : command ≠ []
  command_nul : 0 ∉ command

def Condition.text (c : Condition) : Str :=
  c.options.text ++ (c.left.text ++ (c.before ++ 61 :: 61 :: (c.after ++ (c.right.text ++
    (c.sep ++ c.command)))))

/-- The operands are equal. -/
def Condition.equal (c : Condition) : Bool :=
  if c.options.ignoreCase then c.left.text.map tolower == c.right.text.map tolower
  else c.left.text == c.right.text

/-- What is to be done. -/
def Condition.expected (c : Condition) : Outcome :=
  if c.equal != c.options.negate then .exec c.command else .nothing

/-! ## Delimiters -/

theorem isargdelim_tolower (c : UInt8) : isargdelim (tolower c) = isargdelim c := by
  rw [tolower]
  split
  next h =>
    have hnat : (c + 32).toNat = c.toNat + 32 := by
      rw [UInt8.toNat_add, Nat.mod_eq_of_lt]
      · rfl
      · simp only [UInt8.reduceToNat]
        omega
    rw [Bool.eq_iff_iff]
    simp only [isargdelim, hnat, Bool.or_eq_true, decide_eq_true_eq, beq_iff_eq]
    omega
  next => rfl

theorem isargdelim_blank {c : UInt8} (h : isblank c = true) : isargdelim c = true := by
  rw [isblank, Bool.or_eq_true, beq_iff_eq, beq_iff_eq] at h
  rcases h with rfl | rfl <;> decide

/-- A text that begins with no delimiter. -/
def Begins (s : Str) : Prop := ∃ c t, s = c :: t ∧ isargdelim c = false

theorem Begins.append {s : Str} (h : Begins s) (t : Str) : Begins (s ++ t) := by
  obtain ⟨c, u, rfl, hc⟩ := h
  exact ⟨c, u ++ t, rfl, hc⟩

theorem Begins.ltrimcl_eq {s : Str} (h : Begins s) : ltrimcl s = s := by
  obtain ⟨c, u, rfl, hc⟩ := h
  rw [ltrimcl, List.dropWhile_cons_of_neg (by simp [hc])]

theorem ltrimcl_append {d : Str} (hd : ∀ c ∈ d, isargdelim c = true) (s : Str) :
    ltrimcl (d ++ s) = ltrimcl s := List.dropWhile_append_of_pos hd

theorem Operand.begins (o : Operand) : Begins o.text := by
  cases o with
  | bare text ne plain =>
    cases text with
    | nil => exact absurd rfl ne
    | cons c s => exact ⟨c, s, rfl, (plain c List.mem_cons_self).1⟩
  | quoted text nul noquote => exact ⟨quoteChar, text ++ [quoteChar], rfl, by decide⟩

theorem rtrimcl_concat {s : Str} {c : UInt8} (hc : isargdelim c = false) :
    rtrimcl (s ++ [c]) = s ++ [c] := by
  rw [rtrimcl, List.reverse_concat, List.dropWhile_cons_of_neg (by simp [hc]), List.reverse_cons,
    List.reverse_reverse]

theorem Operand.rtrimcl_text (o : Operand) : rtrimcl o.text = o.text := by
  cases o with
  | bare text ne plain =>
    have hlast := (plain _ (List.getLast_mem ne)).1
    rw [Operand.text, ← List.dropLast_append_getLast ne]
    exact rtrimcl_concat hlast
  | quoted text nul noquote => exact rtrimcl_concat (by decide)

/-! ## Keywords -/

theorem matchtok_spelled {word : Str} (s : Spelled word) {t : Str} (ht : Begins t) :
    matchtok word (s.text ++ t) = some t := by
  have hlen : word.length = s.spelling.length := by
    simpa using (congrArg List.length s.same).symm
  have hdelim : ∀ c ∈ s.blanks, isargdelim c = true := fun c hc => isargdelim_blank (s.all c hc)
  have htrim : ltrimcl (s.blanks ++ t) = t := by rw [ltrimcl_append hdelim, ht.ltrimcl_eq]
  have hne : s.blanks ++ t ≠ [] := fun h => s.ne (List.append_eq_nil_iff.1 h).1
  have hmore : t ≠ s.blanks ++ t := fun h => s.ne (by simpa using h)
  rw [matchtok, Spelled.text, List.append_assoc, hlen, List.take_left, List.drop_left,
    if_pos s.same]
  simp only [if_neg hne, htrim, if_neg hmore]

/-- The first character is another one. -/
theorem matchtok_head {word p : Str} {c d : UInt8} {t u : Str} (hp : p = c :: t)
    (hword : word.map tolower = d :: u) (hne : tolower c ≠ d) : matchtok word p = none := by
  obtain ⟨n, hn⟩ : ∃ n, word.length = n + 1 := ⟨u.length, by
    simpa using congrArg List.length hword⟩
  rw [matchtok, if_neg]
  rw [hp, hn, hword, List.take_succ_cons, List.map_cons]
  exact fun h => hne (List.cons.inj h).1

/-- A keyword does not match a word that is longer or shorter, or another one. -/
theorem matchtok_bare {word s rest : Str} {d : UInt8} (hword : ∀ c ∈ word.map tolower,
    isargdelim c = false) (hs : ∀ c ∈ s, isargdelim c = false) (hd : isargdelim d = true)
    (hne : s.map tolower ≠ word.map tolower) : matchtok word (s ++ d :: rest) = none := by
  rw [matchtok]
  split
  next hmatch =>
    rcases Nat.lt_trichotomy word.length s.length with hlt | heq | hgt
    · have hbegins : Begins ((s ++ d :: rest).drop word.length) := by
        rw [List.drop_append_of_le_length hlt.le, List.drop_eq_getElem_cons hlt]
        exact ⟨_, _, rfl, hs _ (List.getElem_mem hlt)⟩
      have hnil : (s ++ d :: rest).drop word.length ≠ [] := by
        obtain ⟨c, u, h, -⟩ := hbegins
        rw [h]
        exact List.cons_ne_nil _ _
      simp only [if_neg hnil, hbegins.ltrimcl_eq, if_true]
    · rw [heq, List.take_left] at hmatch
      exact absurd hmatch hne
    · -- the delimiter would be a character of the keyword
      have hmem : tolower d ∈ word.map tolower := by
        rw [← hmatch]
        refine List.mem_map_of_mem (List.mem_take_iff_getElem.2 ⟨s.length, ?_, ?_⟩)
        · simp only [List.length_append, List.length_cons]
          omega
        · simp
      have hdelim := hword _ hmem
      rw [isargdelim_tolower, hd] at hdelim
      cases hdelim
  next => rfl

theorem matchtok_operand {o : Operand} (hfree : o.Free) {word : Str} (hword : word ∈ keywords)
    {d : UInt8} (hd : isargdelim d = true) (rest : Str) :
    matchtok word (o.text ++ d :: rest) = none := by
  have hchars : ∀ w ∈ keywords, ((w.map tolower).all fun c => !isargdelim c) = true ∧
      ∃ c u, w.map tolower = c :: u ∧ c ≠ quoteChar := by
    intro w hw
    simp only [keywords, List.mem_cons, List.not_mem_nil, or_false] at hw
    rcases hw with rfl | rfl | rfl | rfl
    all_goals exact ⟨by decide, _, _, rfl, by decide⟩
  obtain ⟨hall, c, u, hcons, hquote⟩ := hchars word hword
  have hplain : ∀ c ∈ word.map tolower, isargdelim c = false := fun c hc => by
    simpa using List.all_eq_true.1 hall c hc
  cases o with
  | bare s ne plain => exact matchtok_bare hplain (fun c hc => (plain c hc).1) hd (hfree word hword)
  | quoted s nul noquote => exact matchtok_head rfl hcons fun h => hquote h.symm

/-- No keyword begins with the first character of another one. -/
theorem matchtok_other {word other : Str} (s : Spelled word) {c d : UInt8} {u v : Str}
    (hword : word.map tolower = c :: u) (hother : other.map tolower = d :: v) (hne : c ≠ d)
    (t : Str) : matchtok other (s.text ++ t) = none := by
  have hsame := s.same
  rw [hword] at hsame
  cases hs : s.spelling with
  | nil =>
    rw [hs] at hsame
    cases hsame
  | cons e r =>
    rw [hs, List.map_cons] at hsame
    refine matchtok_head (c := e) (t := r ++ s.blanks ++ t) ?_ hother ?_
    · rw [Spelled.text, hs]
      rfl
    · rw [(List.cons.inj hsame).1]
      exact hne

theorem Spelled.begins {word : Str} (s : Spelled word) {c : UInt8} {u : Str}
    (hword : word.map tolower = c :: u) (hc : isargdelim c = false) (t : Str) :
    Begins (s.text ++ t) := by
  have hsame := s.same
  rw [hword] at hsame
  cases hs : s.spelling with
  | nil =>
    rw [hs] at hsame
    cases hsame
  | cons e r =>
    rw [hs, List.map_cons] at hsame
    refine ⟨e, r ++ s.blanks ++ t, by rw [Spelled.text, hs]; rfl, ?_⟩
    rw [← isargdelim_tolower, (List.cons.inj hsame).1, hc]

/-- The options are those in front of the condition. -/
theorem options_text {p : Str} (hp : Begins p) (hnot : matchtok wordNot p = none)
    (hi : matchtok wordI p = none) (o : Options) :
    options (o.text ++ p) = (o.negate, o.ignoreCase, p) := by
  have hn : wordNot.map tolower = 110 :: [111, 116] := rfl
  have hw : wordI.map tolower = 47 :: [105] := rfl
  cases o with
  | none => simp only [Options.text, List.nil_append, options, hnot, hi]; rfl
  | not n =>
    simp only [Options.text, options, matchtok_spelled n hp, hnot, hi]
    rfl
  | ignore i =>
    simp only [Options.text, options, matchtok_other i hw hn (by decide), matchtok_spelled i hp,
      hnot]
    rfl
  | notIgnore n i =>
    have hbegins := i.begins hw (by decide) p
    simp only [Options.text, List.append_assoc, options, matchtok_spelled n hbegins,
      matchtok_spelled i hp, hnot]
    rfl
  | ignoreNot i n =>
    have hbegins := n.begins hn (by decide) p
    simp only [Options.text, List.append_assoc, options, matchtok_other i hw hn (by decide),
      matchtok_spelled i hbegins, matchtok_spelled n hp]
    rfl

/-! ## The scanner -/

/-- The stop strings: none, and `==`. -/
def IsStop (stop : Str) : Prop := stop = [] ∨ stop = [61, 61]

/-- The scanner goes over an operand that is not quoted. -/
theorem skipLoop_bare {stop : Str} (hstop : IsStop stop) {s : Str}
    (hs : ∀ c ∈ s, isargdelim c = false ∧ c ≠ quoteChar) (i : ℕ) (t : Str) :
    skipLoop stop 0 none i (s ++ t) = skipLoop stop 0 none (i + s.length) t := by
  induction s generalizing i with
  | nil => rfl
  | cons c s ih =>
    obtain ⟨hdelim, hquote⟩ := hs c List.mem_cons_self
    have hgo : ¬ (stop ≠ [] ∧ stop <+: c :: (s ++ t)) := by
      rcases hstop with rfl | rfl
      · simp
      · rintro ⟨-, h⟩
        rw [List.cons_prefix_cons] at h
        rw [← h.1] at hdelim
        cases hdelim
    rw [List.cons_append, skipLoop, if_neg (by simp), if_neg hquote, if_neg hgo,
      if_neg (by simp [hdelim]), ih (fun c hc => hs c (List.mem_cons_of_mem _ hc))]
    congr 1
    rw [List.length_cons]
    omega

theorem stop_in_quotes {stop s t : Str} (hstop : IsStop stop)
    (h : stop ≠ [] ∧ stop <+: s ++ quoteChar :: t) : [61, 61] <+: s := by
  obtain ⟨hne, hpre⟩ := h
  obtain rfl := hstop.resolve_left hne
  match s, hpre with
  | [], h => exact absurd (List.cons_prefix_cons.1 h).1 (by decide)
  | [c], h =>
    have h := (List.cons_prefix_cons.1 h).2
    exact absurd (List.cons_prefix_cons.1 h).1 (by decide)
  | c :: d :: s, h =>
    obtain ⟨hc, h⟩ := List.cons_prefix_cons.1 h
    obtain ⟨hd, -⟩ := List.cons_prefix_cons.1 h
    exact ⟨s, by rw [← hc, ← hd]; rfl⟩

/-- The scanner goes over the rest of a quoted operand, unless `==` is in it. -/
theorem skipLoop_quoted {stop : Str} (hstop : IsStop stop) {s : Str} (hquote : quoteChar ∉ s)
    (hfree : stop = [] ∨ ¬ [61, 61] <:+: s) (trunc : Option ℕ) (i : ℕ) (t : Str) :
    skipLoop stop quoteChar trunc i (s ++ quoteChar :: t) =
      skipLoop stop 0 none (i + s.length + 1) t := by
  induction s generalizing i trunc with
  | nil => rw [List.nil_append, skipLoop, if_pos (by decide), if_pos rfl]; rfl
  | cons c s ih =>
    have hgo : ¬ (stop ≠ [] ∧ stop <+: c :: (s ++ quoteChar :: t)) := fun h =>
      hfree.elim h.1 fun hno => hno (stop_in_quotes hstop h).isInfix
    have hc : quoteChar ≠ c := fun h => hquote (h ▸ List.mem_cons_self)
    rw [List.cons_append, skipLoop, if_pos (by decide), if_neg hc, if_neg hgo,
      ih (fun h => hquote (List.mem_cons_of_mem _ h))
        (hfree.imp_right fun hno h => hno (h.trans (List.suffix_cons c s).isInfix))]
    congr 1
    rw [List.length_cons]
    omega

theorem skipLoop_operand {stop : Str} (hstop : IsStop stop) {o : Operand}
    (hfree : stop = [] ∨ ¬ o.hides) (i : ℕ) (t : Str) :
    skipLoop stop 0 none i (o.text ++ t) = skipLoop stop 0 none (i + o.text.length) t := by
  cases o with
  | bare s ne plain => exact skipLoop_bare hstop plain i t
  | quoted s nul noquote =>
    have hfirst : ¬ (stop ≠ [] ∧ stop <+: quoteChar :: (s ++ quoteChar :: t)) := by
      rcases hstop with rfl | rfl
      · simp
      · rintro ⟨-, h⟩
        rw [List.cons_prefix_cons] at h
        exact absurd h.1 (by decide)
    have hassoc : (Operand.quoted s nul noquote).text ++ t =
        quoteChar :: (s ++ quoteChar :: t) := by
      simp [Operand.text]
    rw [hassoc, skipLoop, if_neg (by simp), if_pos rfl, skipLoop_quoted hstop noquote hfree]
    congr 1
    simp only [Operand.text, List.length_append, List.length_cons, List.length_nil]
    omega

/-- A delimiter behind an operand is where it is cut. -/
theorem skipqword_delim {stop : Str} (hstop : IsStop stop) {o : Operand}
    (hfree : stop = [] ∨ ¬ o.hides) {d : UInt8} (hd : isargdelim d = true) {t : Str}
    (hgo : ¬ (stop ≠ [] ∧ stop <+: d :: t)) :
    skipqword stop (o.text ++ d :: t) = (some o.text.length, t) := by
  have hquote : d ≠ quoteChar := by
    rintro rfl
    cases hd
  have hloop : skipLoop stop 0 none 0 (o.text ++ d :: t) =
      (some o.text.length, o.text.length) := by
    rw [skipLoop_operand hstop hfree, Nat.zero_add, skipLoop, if_neg (by simp), if_neg hquote,
      if_neg hgo, if_pos (by simp [hd])]
  rw [skipqword, hloop]
  simp only
  rw [← List.drop_drop, List.drop_left]
  rfl

/-- `==` right behind an operand. -/
theorem skipqword_stop {o : Operand} (hfree : ¬ o.hides) (t : Str) :
    skipqword [61, 61] (o.text ++ 61 :: 61 :: t) = (none, 61 :: 61 :: t) := by
  have hloop : skipLoop [61, 61] 0 none 0 (o.text ++ 61 :: 61 :: t) =
      (none, o.text.length) := by
    rw [skipLoop_operand (.inr rfl) (.inr hfree), Nat.zero_add, skipLoop, if_neg (by simp),
      if_neg (by decide), if_pos ⟨by simp, ⟨t, rfl⟩⟩]
  rw [skipqword, hloop]
  simp only [List.drop_left]

/-! ## A condition -/

variable {c : Condition}

/-- What is behind the first operand. -/
def Condition.tail (c : Condition) : Str :=
  c.after ++ (c.right.text ++ (c.sep ++ c.command))

/-- The second operand and the command. -/
theorem Condition.tail_eq (c : Condition) : ∃ s, ltrimcl c.tail = c.right.text ++ s ∧
    skipqword [] (ltrimcl c.tail) = (some c.right.text.length, s.tail) ∧
      ltrimcl s.tail = ltrimcl c.command := by
  have hafter : ∀ d ∈ c.after, isargdelim d = true := fun d hd =>
    isargdelim_blank (c.after_blank d hd)
  have htrim : ltrimcl c.tail = c.right.text ++ (c.sep ++ c.command) := by
    rw [tail, ltrimcl_append hafter, (c.right.begins.append _).ltrimcl_eq]
  refine ⟨c.sep ++ c.command, htrim, ?_⟩
  rw [htrim]
  cases hsep : c.sep with
  | nil => exact absurd hsep c.sep_ne
  | cons d s =>
    have hblank := c.sep_blank
    rw [hsep, List.forall_mem_cons] at hblank
    rw [List.cons_append, List.tail_cons]
    refine ⟨skipqword_delim (.inl rfl) (.inl rfl) (isargdelim_blank hblank.1) (by simp), ?_⟩
    exact ltrimcl_append (fun e he => isargdelim_blank (hblank.2 e he)) _

theorem Condition.sameText_eq (c : Condition) :
    sameText c.options.ignoreCase c.left.text c.right.text = c.equal := by
  rw [sameText, equal, Bool.eq_iff_iff]
  split
  next h =>
    simp only [h, Bool.true_and, Bool.and_eq_true, Bool.or_eq_true, beq_iff_eq]
    constructor
    · rintro ⟨-, heq | heq⟩
      · exact heq
      · rw [heq]
    · exact fun heq => ⟨by simpa using congrArg List.length heq, .inl heq⟩
  next h =>
    simp only [h, Bool.false_and, Bool.and_eq_true, Bool.or_eq_true, beq_iff_eq, Bool.false_eq_true,
      false_or]
    exact ⟨fun heq => heq.2, fun heq => ⟨by rw [heq], heq⟩⟩

theorem equalForm_eq {ignoreCase : Bool} {p pp rest : Str} {trunc : Option ℕ}
    (hskip : skipqword [61, 61] p = (trunc, pp))
    (hdrop : pp.dropWhile (fun c => !isargdelim c) = 61 :: 61 :: rest) :
    equalForm ignoreCase p = some (sameText ignoreCase
      (rtrimcl (cutAt trunc (p.take (p.length - (61 :: 61 :: rest).length))))
      (cutAt (skipqword [] (ltrimcl rest)).1 (ltrimcl rest)), (skipqword [] (ltrimcl rest)).2) := by
  rw [equalForm, hskip]
  simp only [hdrop]

/-- At most one blank is in front of the `==`. -/
theorem Condition.equalForm_few (c : Condition) (hhides : ¬ c.left.hides)
    (hfew : c.before.length ≤ 1) :
    ∃ pp, equalForm c.options.ignoreCase (c.left.text ++ (c.before ++ 61 :: 61 :: c.tail)) =
      some (c.equal, pp) ∧ ltrimcl pp = ltrimcl c.command := by
  obtain ⟨s, htrim, hskip, hcommand⟩ := c.tail_eq
  refine ⟨s.tail, ?_, hcommand⟩
  have hdrop : (61 :: 61 :: c.tail).dropWhile (fun c => !isargdelim c) = 61 :: 61 :: c.tail :=
    List.dropWhile_cons_of_neg (by decide)
  have htake : (c.left.text ++ (c.before ++ 61 :: 61 :: c.tail)).take
      ((c.left.text ++ (c.before ++ 61 :: 61 :: c.tail)).length - (61 :: 61 :: c.tail).length) =
        c.left.text ++ c.before := by
    rw [← List.append_assoc]
    exact List.take_left' (by simp only [List.length_append]; omega)
  have hright : cutAt (some c.right.text.length) (c.right.text ++ s) = c.right.text :=
    List.take_left
  obtain ⟨trunc, hleft, hcut⟩ : ∃ trunc,
      skipqword [61, 61] (c.left.text ++ (c.before ++ 61 :: 61 :: c.tail)) =
        (trunc, 61 :: 61 :: c.tail) ∧ cutAt trunc (c.left.text ++ c.before) = c.left.text := by
    match hbefore : c.before, hfew with
    | [], _ => exact ⟨none, skipqword_stop hhides c.tail, List.append_nil _⟩
    | [d], _ =>
      have hd : isblank d = true := c.before_blank d (by simp [hbefore])
      have hgo : ¬ (([61, 61] : Str) ≠ [] ∧ [61, 61] <+: d :: 61 :: 61 :: c.tail) := by
        rintro ⟨-, h⟩
        rw [← (List.cons_prefix_cons.1 h).1] at hd
        cases hd
      exact ⟨some c.left.text.length,
        skipqword_delim (.inr rfl) (.inr hhides) (isargdelim_blank hd) hgo, List.take_left⟩
  rw [equalForm_eq hleft hdrop, htake, hcut, c.left.rtrimcl_text, hskip, htrim, hright,
    c.sameText_eq]

/-- A second blank in front of the `==`. -/
theorem Condition.equalForm_many (c : Condition) (hhides : ¬ c.left.hides)
    (hmany : 2 ≤ c.before.length) :
    equalForm c.options.ignoreCase (c.left.text ++ (c.before ++ 61 :: 61 :: c.tail)) = none := by
  match hbefore : c.before, hmany with
  | d :: e :: r, _ =>
    have hd : isblank d = true := c.before_blank d (by simp [hbefore])
    have he : isblank e = true := c.before_blank e (by simp [hbefore])
    have hgo : ¬ (([61, 61] : Str) ≠ [] ∧
        [61, 61] <+: d :: (e :: r ++ 61 :: 61 :: c.tail)) := by
      rintro ⟨-, h⟩
      rw [← (List.cons_prefix_cons.1 h).1] at hd
      cases hd
    have hskip := skipqword_delim (.inr rfl) (.inr hhides) (isargdelim_blank hd) hgo
    have hdrop : (e :: r ++ 61 :: 61 :: c.tail).dropWhile (fun c => !isargdelim c) =
        e :: r ++ 61 :: 61 :: c.tail :=
      List.dropWhile_cons_of_neg (by simp [isargdelim_blank he])
    have hne : e ≠ 61 := by
      rintro rfl
      cases he
    rw [List.cons_append, equalForm, hskip]
    simp only [hdrop]
    split
    next h => exact absurd (List.cons.inj h).1 hne
    next => rfl

/-- The operands, and what is between them. -/
def Condition.body (c : Condition) : Str := c.left.text ++ (c.before ++ 61 :: 61 :: c.tail)

theorem Condition.matchtok_body (c : Condition) {word : Str} (hword : word ∈ keywords) :
    matchtok word c.body = none := by
  obtain ⟨d, rest, hsplit, hd⟩ : ∃ d rest, c.before ++ 61 :: 61 :: c.tail = d :: rest ∧
      isargdelim d = true := by
    cases hbefore : c.before with
    | nil => exact ⟨61, 61 :: c.tail, rfl, by decide⟩
    | cons d r => exact ⟨d, _, rfl, isargdelim_blank (c.before_blank d (by simp [hbefore]))⟩
  rw [body, hsplit]
  exact matchtok_operand c.free hword hd rest

theorem Condition.cmdIf_eq (env : Env) (c : Condition) :
    cmdIf env c.text = (equalForm c.options.ignoreCase c.body).elim .errorSyntax fun r =>
      perform (r.1 != c.options.negate) (some r.2) := by
  have hbegins : Begins c.body := c.left.begins.append _
  have hoptions : If.options (c.options.text ++ c.body) =
      (c.options.negate, c.options.ignoreCase, c.body) :=
    options_text hbegins (c.matchtok_body (by simp [keywords]))
      (c.matchtok_body (by simp [keywords])) c.options
  have htext : c.text = c.options.text ++ c.body := rfl
  rw [cmdIf, htext, hoptions]
  simp only [c.matchtok_body (show wordExist ∈ keywords by simp [keywords]),
    c.matchtok_body (show wordErrorlevel ∈ keywords by simp [keywords])]
  cases equalForm c.options.ignoreCase c.body <;> rfl

theorem ltrimcl_eq_iff {s : Str} (hne : s ≠ []) : ltrimcl s = s ↔ Begins s := by
  refine ⟨fun heq => ?_, Begins.ltrimcl_eq⟩
  cases s with
  | nil => exact absurd rfl hne
  | cons d s =>
    cases hd : isargdelim d with
    | false => exact ⟨d, s, rfl, hd⟩
    | true =>
      have hlen := congrArg List.length heq
      have hle := (@List.dropWhile_suffix _ s isargdelim).length_le
      rw [ltrimcl, List.dropWhile_cons_of_pos hd, List.length_cons] at hlen
      omega

/-- **A condition whose first operand has no `==` in it is carried out as it says** exactly if at most
one blank is in front of the `==`, and the command begins with no delimiter or is not executed. -/
theorem cmdIf_expected_iff (env : Env) (c : Condition) (hhides : ¬ c.left.hides) :
    cmdIf env c.text = c.expected ↔
      c.before.length ≤ 1 ∧ ((c.equal != c.options.negate) = true → Begins c.command) := by
  rw [c.cmdIf_eq, Condition.body, Condition.expected]
  by_cases hfew : c.before.length ≤ 1
  · obtain ⟨pp, hform, hpp⟩ := c.equalForm_few hhides hfew
    rw [hform, Option.elim_some, ← ltrimcl_eq_iff c.command_ne]
    simp only [perform, hpp, hfew, true_and]
    by_cases hexec : (c.equal != c.options.negate) = true
    · simp only [hexec, if_true, forall_const]
      split
      next hnil => exact iff_of_false Outcome.noConfusion fun h => c.command_ne (h ▸ hnil)
      next => rw [Outcome.exec.injEq]
    · simp only [if_neg hexec, true_iff]
      exact fun h => absurd h hexec
  · rw [c.equalForm_many hhides (by omega), Option.elim_none]
    refine iff_of_false ?_ fun h => hfew h.1
    split <;> exact Outcome.noConfusion

/-! ## Where it is not -/

/-- The condition that an operand is equal to itself. -/
def selfCondition (left : Operand) (free : left.Free) (before command : Str)
    (hbefore : ∀ c ∈ before, isblank c = true) (hne : command ≠ []) (hnul : 0 ∉ command) :
    Condition :=
  ⟨.none, left, free, before, [], left, [32], command, hbefore, by simp, by simp [isblank],
    by simp, hne, hnul⟩

section Self

variable {left : Operand} {free : left.Free} {before command : Str}
  {hbefore : ∀ c ∈ before, isblank c = true} {hne : command ≠ []} {hnul : 0 ∉ command}

theorem selfCondition_expected :
    (selfCondition left free before command hbefore hne hnul).expected = .exec command := by
  simp [Condition.expected, Condition.equal, selfCondition, Options.ignoreCase, Options.negate]

/-- A loop over delimiters, or over other characters, ends at the first of the other kind. -/
theorem dropWhile_stop {p : UInt8 → Bool} {x : UInt8} (hx : p x = false) (u v : Str) :
    ∃ w, w.length ≤ u.length ∧ (u ++ x :: v).dropWhile p = w ++ x :: v := by
  induction u with
  | nil => exact ⟨[], le_rfl, List.dropWhile_cons_of_neg (by simp [hx])⟩
  | cons c u ih =>
    cases hc : p c with
    | true =>
      obtain ⟨w, hw, heq⟩ := ih
      refine ⟨w, hw.trans (Nat.le_succ _), ?_⟩
      rw [List.cons_append, List.dropWhile_cons_of_pos hc, heq]
    | false => exact ⟨c :: u, le_rfl, List.dropWhile_cons_of_neg (by simp [hc])⟩

/-- Inside of quotes, the scanner does not come behind `==`. -/
theorem skipLoop_hidden {a : Str} (ha : quoteChar ∉ a) (trunc : Option ℕ) (i : ℕ) (u : Str)
    (htrunc : ∀ j, trunc = some j → j < i) :
    (skipLoop [61, 61] quoteChar trunc i (a ++ 61 :: 61 :: u)).2 ≤ i + a.length ∧
      ∀ j, (skipLoop [61, 61] quoteChar trunc i (a ++ 61 :: 61 :: u)).1 = some j →
        j < i + a.length := by
  induction a generalizing trunc i with
  | nil =>
    rw [List.nil_append, skipLoop, if_pos (by decide), if_neg (by decide),
      if_pos ⟨by simp, ⟨u, rfl⟩⟩]
    exact ⟨le_rfl, htrunc⟩
  | cons c a ih =>
    have hc : quoteChar ≠ c := fun h => ha (h ▸ List.mem_cons_self)
    rw [List.cons_append, skipLoop, if_pos (by decide), if_neg hc, List.length_cons]
    split
    · exact ⟨by simp, fun j hj => by have := htrunc j hj; omega⟩
    · have hnext := ih (fun h => ha (List.mem_cons_of_mem _ h))
        (if trunc.isNone ∧ isargdelim c then some i else trunc) (i + 1) fun j hj => by
          split at hj
          · obtain rfl := Option.some.inj hj
            omega
          · have := htrunc j hj
            omega
      exact ⟨by omega, fun j hj => by have := hnext.2 j hj; omega⟩

/-- A quoted operand is cut at the `==` in it, or in front of it. -/
theorem skipqword_hidden {a : Str} (ha : quoteChar ∉ a) (u : Str) :
    ∃ k ≤ a.length + 1, (skipqword [61, 61] (quoteChar :: (a ++ 61 :: 61 :: u))).2 =
      (quoteChar :: a).drop k ++ 61 :: 61 :: u := by
  have hfirst : skipLoop [61, 61] 0 none 0 (quoteChar :: (a ++ 61 :: 61 :: u)) =
      skipLoop [61, 61] quoteChar none 1 (a ++ 61 :: 61 :: u) := by
    rw [skipLoop, if_neg (by simp), if_pos rfl]
  obtain ⟨hle, hlt⟩ := skipLoop_hidden ha none 1 u (by simp)
  have hdrop : ∀ k ≤ a.length + 1, (quoteChar :: (a ++ 61 :: 61 :: u)).drop k =
      (quoteChar :: a).drop k ++ 61 :: 61 :: u := fun k hk => by
    rw [← List.cons_append, List.drop_append_of_le_length (by simpa using hk)]
  rw [skipqword, hfirst]
  rcases hloop : skipLoop [61, 61] quoteChar none 1 (a ++ 61 :: 61 :: u) with ⟨trunc, i⟩
  rw [hloop] at hle hlt
  cases trunc with
  | none => exact ⟨i, by simp only at hle; omega, hdrop i (by simp only at hle; omega)⟩
  | some j =>
    have := hlt j rfl
    exact ⟨j + 1, by omega, hdrop (j + 1) (by omega)⟩

theorem skipqword_some {stop s : Str} {k : ℕ} (h : (skipqword stop s).1 = some k) :
    (skipqword stop s).2 = s.drop (k + 1) := by
  rw [skipqword] at h ⊢
  split at h
  · obtain rfl := Option.some.inj h
    rfl
  · cases h

theorem cutAt_length (trunc : Option ℕ) (s : Str) : (cutAt trunc s).length ≤ s.length := by
  cases trunc with
  | none => exact le_rfl
  | some i => exact (List.take_prefix i s).length_le

theorem rtrimcl_length (s : Str) : (rtrimcl s).length ≤ s.length := by
  rw [rtrimcl, List.length_reverse, ← @List.length_reverse _ s]
  exact (List.dropWhile_suffix _).length_le

theorem sameText_length {ignoreCase : Bool} {a b : Str} (h : sameText ignoreCase a b = true) :
    a.length = b.length := by
  rw [sameText, Bool.and_eq_true, beq_iff_eq] at h
  exact h.1

/-- What the form with `==` is made of. -/
theorem equalForm_inv {ignoreCase equal : Bool} {p pp : Str}
    (h : equalForm ignoreCase p = some (equal, pp)) :
    ∃ rest left, (skipqword [61, 61] p).2.dropWhile (fun c => !isargdelim c) = 61 :: 61 :: rest ∧
      left.length ≤ p.length - (rest.length + 2) ∧
      equal = sameText ignoreCase left (cutAt (skipqword [] (ltrimcl rest)).1 (ltrimcl rest)) ∧
      pp = (skipqword [] (ltrimcl rest)).2 := by
  rcases hskip : skipqword [61, 61] p with ⟨trunc, pp₀⟩
  simp only [equalForm, hskip] at h
  split at h
  next rest heq =>
    obtain ⟨hequal, hpp⟩ := Prod.mk.inj (Option.some.inj h)
    refine ⟨rest, _, heq, ?_, hequal.symm, hpp.symm⟩
    refine (rtrimcl_length _).trans ((cutAt_length _ _).trans ?_)
    rw [heq, List.length_take]
    exact Nat.min_le_left _ _
  next => cases h

/-- If the operands are found equal, then what is executed begins in front of the last quote. -/
theorem equalForm_hidden {ignoreCase : Bool} {a b v z pp : Str} (ha : quoteChar ∉ a)
    (hv : a.length + 1 ≤ v.length)
    (h : equalForm ignoreCase (quoteChar :: (a ++ 61 :: 61 :: (b ++ quoteChar ::
      (v ++ quoteChar :: z)))) = some (true, pp)) :
    ∃ w, ltrimcl pp = w ++ quoteChar :: z := by
  obtain ⟨rest, left, hform, hleft, hequal, rfl⟩ := equalForm_inv h
  obtain ⟨k, hk, hskip⟩ := skipqword_hidden ha (b ++ quoteChar :: (v ++ quoteChar :: z))
  obtain ⟨w, hw, hdrop⟩ := @dropWhile_stop (fun c => !isargdelim c) 61 (by decide)
    ((quoteChar :: a).drop k) (61 :: (b ++ quoteChar :: (v ++ quoteChar :: z)))
  rw [hskip, hdrop] at hform
  -- the first operand is no longer than what is in front of the first `==`
  have hlen := congrArg List.length hform
  simp only [List.length_append, List.length_cons] at hlen hleft
  -- the second one begins at the closing quote of the first at the latest
  have hrest : rest = (w ++ 61 :: 61 :: b).drop 2 ++ quoteChar :: (v ++ quoteChar :: z) := by
    have hassoc : w ++ 61 :: 61 :: (b ++ quoteChar :: (v ++ quoteChar :: z)) =
        (w ++ 61 :: 61 :: b) ++ quoteChar :: (v ++ quoteChar :: z) := by simp
    have htwo : 2 ≤ (w ++ 61 :: 61 :: b).length := by
      simp only [List.length_append, List.length_cons]
      omega
    have hdrop2 := congrArg (List.drop 2) hform
    rw [hassoc, List.drop_append_of_le_length htwo] at hdrop2
    exact hdrop2.symm
  obtain ⟨w₂, -, hr⟩ := @dropWhile_stop isargdelim quoteChar (by decide)
    ((w ++ 61 :: 61 :: b).drop 2) (v ++ quoteChar :: z)
  rw [← hrest, ← ltrimcl] at hr
  have hsame := sameText_length hequal.symm
  have hrlen := congrArg List.length hr
  simp only [List.length_append, List.length_cons] at hrlen
  cases htrunc : (skipqword [] (ltrimcl rest)).1 with
  | none =>
    rw [htrunc, cutAt] at hsame
    omega
  | some j =>
    rw [htrunc, cutAt, List.length_take] at hsame
    have hj : j + 1 ≤ (w₂ ++ quoteChar :: v).length := by
      simp only [List.length_append, List.length_cons]
      omega
    have hassoc : w₂ ++ quoteChar :: (v ++ quoteChar :: z) =
        (w₂ ++ quoteChar :: v) ++ quoteChar :: z := by simp
    obtain ⟨w₃, -, hw₃⟩ := @dropWhile_stop isargdelim quoteChar (by decide)
      ((w₂ ++ quoteChar :: v).drop (j + 1)) z
    refine ⟨w₃, ?_⟩
    rw [skipqword_some htrunc, hr, hassoc, List.drop_append_of_le_length hj, ltrimcl, hw₃]

/-- The first operand ends at the `==` in it, and the second one cannot be as short. -/
theorem self_hides (env : Env) (hhides : left.hides) :
    cmdIf env (selfCondition left free before command hbefore hne hnul).text ≠ .exec command := by
  cases left with
  | bare s ne plain => exact hhides.elim
  | quoted s nul noquote =>
    obtain ⟨a, b, hs⟩ := hhides
    have ha : quoteChar ∉ a := fun h => noquote (hs ▸ by simp [h])
    have hbody : (selfCondition (.quoted s nul noquote) free before command hbefore hne hnul).body =
        quoteChar :: (a ++ 61 :: 61 :: (b ++ quoteChar ::
          ((before ++ 61 :: 61 :: quoteChar :: s) ++ quoteChar :: 32 :: command))) := by
      simp [Condition.body, Condition.tail, selfCondition, Operand.text, ← hs]
    have hlen : a.length + 1 ≤ (before ++ 61 :: 61 :: quoteChar :: s).length := by
      rw [← hs]
      simp only [List.length_append, List.length_cons]
      omega
    rw [Condition.cmdIf_eq, hbody]
    intro h
    rcases hform : equalForm (selfCondition (.quoted s nul noquote) free before command hbefore hne
      hnul).options.ignoreCase (quoteChar :: (a ++ 61 :: 61 :: (b ++ quoteChar ::
        ((before ++ 61 :: 61 :: quoteChar :: s) ++ quoteChar :: 32 :: command)))) with - | ⟨equal, pp⟩
    · rw [hform] at h
      cases h
    · rw [hform, Option.elim_some] at h
      cases equal with
      | false => cases h
      | true =>
        obtain ⟨w, hw⟩ := equalForm_hidden ha hlen hform
        have hexec : perform true (some pp) = .exec command := h
        rw [perform, if_pos rfl, hw] at hexec
        simp only [List.append_eq_nil_iff, List.cons_ne_nil, and_false, if_false,
          Outcome.exec.injEq] at hexec
        have hle := congrArg List.length hexec
        simp only [List.length_append, List.length_cons] at hle
        omega

end Self

/-! ## Reads -/

theorem perform_outside {execute : Bool} {pp : Option Str} :
    perform execute pp = .outside ↔ execute = true ∧ pp = none := by
  cases execute with
  | false => simp [perform]
  | true =>
    cases pp with
    | none => simp [perform]
    | some pp =>
      simp only [perform, if_true, reduceCtorEq, and_false, iff_false]
      split <;> simp

theorem existForm_none {env : Env} {file : Str} (h : skipWord env.sw file = []) :
    existForm env file = (file, none) := by
  rw [existForm, h]

theorem existForm_some {env : Env} {file : Str} (h : skipWord env.sw file ≠ []) :
    (existForm env file).2 ≠ none := by
  rw [existForm]
  split
  next hnil => exact absurd hnil h
  next => exact Option.some_ne_none _

/-- **The only read behind the NUL is that of the command of an EXIST** that has none, if it is to
be executed. -/
theorem cmdIf_outside (env : Env) (param : Str) :
    cmdIf env param = .outside ↔
      ∃ file, matchtok wordExist (If.options param).2.2 = some file ∧ file ≠ [] ∧
        skipWord env.sw file = [] ∧ env.found file ≠ (If.options param).1 := by
  rcases hoptions : If.options param with ⟨negate, ignoreCase, p⟩
  simp only [cmdIf, hoptions]
  cases hexist : matchtok wordExist p with
  | some file =>
    simp only [Option.some.injEq, exists_eq_left']
    by_cases hfile : file = []
    · simp [hfile]
    · by_cases hskip : skipWord env.sw file = []
      · simp [hfile, hskip, existForm_none hskip, perform_outside]
      · simp [hfile, hskip, existForm_some hskip, perform_outside]
  | none =>
    simp only [reduceCtorEq, false_and, exists_false, iff_false]
    split
    · split
      · simp
      · simp [perform_outside]
    · split
      · simp
      · simp [perform_outside]

/-- **A condition is carried out as it says, whatever the options, the second operand and the other
blanks are, if and only if** the first operand has no `==` inside of quotes, at most one blank is in
front of the `==`, and the command begins with no delimiter.  A single condition whose first operand
has no such `==` may also have another command, if that is not executed.  And a byte behind the NUL
is read if and only if an EXIST without a command is to execute it. -/
theorem cmdIf_iff (env : Env) (left : Operand) (free : left.Free) (before command param : Str)
    (hbefore : ∀ c ∈ before, isblank c = true) (hne : command ≠ []) (hnul : 0 ∉ command) :
    ((∀ c : Condition, c.left = left → c.before = before → c.command = command →
        cmdIf env c.text = c.expected) ↔
      ¬ left.hides ∧ before.length ≤ 1 ∧ Begins command) ∧
    (∀ c : Condition, ¬ c.left.hides → (cmdIf env c.text = c.expected ↔
      c.before.length ≤ 1 ∧ ((c.equal != c.options.negate) = true → Begins c.command))) ∧
    (cmdIf env param = .outside ↔
      ∃ file, matchtok wordExist (If.options param).2.2 = some file ∧ file ≠ [] ∧
        skipWord env.sw file = [] ∧ env.found file ≠ (If.options param).1) := by
  refine ⟨⟨fun h => ?_, ?_⟩, cmdIf_expected_iff env, cmdIf_outside env param⟩
  · have hself := h (selfCondition left free before command hbefore hne hnul) rfl rfl rfl
    have hhides : ¬ left.hides := fun hhides =>
      self_hides env hhides (hself.trans selfCondition_expected)
    obtain ⟨hfew, hbegins⟩ := (cmdIf_expected_iff env _ hhides).mp hself
    refine ⟨hhides, hfew, hbegins ?_⟩
    simp [Condition.equal, selfCondition, Options.ignoreCase, Options.negate]
  · rintro ⟨hhides, hfew, hbegins⟩ c rfl rfl rfl
    exact (cmdIf_expected_iff env c hhides).mpr ⟨hfew, fun _ => hbegins⟩

/-- Any condition that compares `a` with something, for `ECHO`, and `IF EXIST X`. -/
theorem cmdIf_iff_echo :
    let env : Env := ⟨47, fun _ => true, 0⟩
    let left : Operand := .bare [97] (by simp) (by simp [isargdelim, quoteChar])
    (∀ c : Condition, c.left = left → c.before = [32] → c.command = [69, 67, 72, 79] →
        cmdIf env c.text = c.expected) ∧
    cmdIf env [69, 88, 73, 83, 84, 32, 88] = .outside := by
  intro env left
  have h := cmdIf_iff env left (by simp [left, Operand.Free, keywords, Operand.text, wordNot, wordI,
    wordExist, wordErrorlevel]) [32] [69, 67, 72, 79] [69, 88, 73, 83, 84, 32, 88]
    (by simp [isblank]) (by simp) (by simp)
  refine ⟨h.1.mpr ⟨by simp [left, Operand.hides], by simp, ⟨69, _, rfl, by decide⟩⟩,
    h.2.2.mpr ⟨[88], by decide, by decide, by decide, by decide⟩⟩

/-- `IF a  ==a ECHO` is an error, `IF "=="==a ECHO` is carried out, and so is the rest of `IF a==a`
and `,A`; `IF EXIST X` reads behind the NUL. -/
theorem cmdIf_wrong :
    let env : Env := ⟨47, fun _ => true, 0⟩
    cmdIf env [97, 32, 32, 61, 61, 97, 32, 69] = .errorSyntax ∧
    cmdIf env [34, 61, 61, 34, 61, 61, 97, 32, 69] = .exec [97, 32, 69] ∧
    cmdIf env [97, 61, 61, 97, 32, 44, 65] = .exec [65] ∧
    cmdIf env [69, 88, 73, 83, 84, 32, 88] = .outside := by
  decide

end If
end Shell
end BurdahDos
