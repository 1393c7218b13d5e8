import BurdahDos.Print.Kinds
import BurdahDos.Strings.Defs
import Mathlib

/-!
# The validation of messages

`loadFile` compares what it has recorded of the conversions of a text, and the text that has been
loaded is what `printf` gets as its format.  `Definition` is a definition of a string as it stands
in a file, and `Definition.Recorded` says that its conversions are written such that two characters
tell what they are.

* `Plain.kinds`: what has been recorded of a line gives the types that `do_printf` takes for it.
* `Loader.loadFile_stored`: every item of a file that has been loaded holds some definition.
* `Loader.loadFile_kinds`: no file changes the types of a string that is marked for validation,
  where the definitions are `Recorded`.
* `exists_redefinition`: without that, there is no string for which the validation is enough.
-/

set_option autoImplicit false

namespace BurdahDos
namespace Strings

open Print (Kind convKinds convOk)

/-! ## Definitions -/

/-- A line as it is appended to the text. -/
def escaped (line : Str) : Str := unescape fromxdigit (line.length + 1) line

/-- A definition of a string. -/
structure Definition where
  /-- What a prompt has in front of its text. -/
  head : Str
  lines : List Str
  /-- A comma ends it. -/
  comma : Bool

namespace Definition

def text (d : Definition) : Str := cutNl d.comma (d.head ++ d.lines.flatMap escaped)

/-- The text as a format. -/
def format (d : Definition) : Str := cString (d.text.drop d.head.length)

/-- What is recorded for the validation. -/
def vstring (d : Definition) : Str := d.lines.flatMap percents

/-- The types of the arguments that are printed with the text. -/
def kinds (d : Definition) : List Kind := Print.kinds d.format

/-- The item holds the definition. -/
def Stored (d : Definition) (e : Entry) : Prop := e.text.getD [] = d.text ∧ e.vstring = d.vstring

end Definition

/-- The conversions of a line are written such that `do_printf` reads what is recorded of them. -/
inductive Plain : Str → Prop
  | nil : Plain []
  | char {c : UInt8} {p : Str} (hzero : c ≠ 0) (hpercent : c ≠ percent) (hslash : c ≠ backslash)
      (hp : Plain p) : Plain (c :: p)
  /-- A backslash joins the next line. -/
  | join : Plain [backslash]
  | escape {p : Str} (hne : p ≠ []) (hzero : (mapBSEscape fromxdigit p).1 ≠ 0)
      (hpercent : (mapBSEscape fromxdigit p).1 ≠ percent)
      (hp : Plain (mapBSEscape fromxdigit p).2) : Plain (backslash :: p)
  | quoted {p : Str} (hp : Plain (percent :: p)) : Plain (backslash :: percent :: p)
  | twice {c : UInt8} {p : Str} (hzero : c ≠ 0) (hp : Plain (c :: p)) :
      Plain (percent :: percent :: c :: p)
  | conv {c : UInt8} {p : Str} (hconv : convOk c) (hzero : c ≠ 0) (hpercent : c ≠ percent)
      (hslash : c ≠ backslash) (hfar : c ≠ 70) (hp : Plain p) : Plain (percent :: c :: p)
  /-- The character behind an `F` is skipped. -/
  | far {c : UInt8} {p : Str} (hne : p ≠ []) (hhead : (escaped p).head? = some c)
      (hpercent : c ≠ percent) (hp : Plain p) : Plain (percent :: 70 :: p)

/-- There is no percent sign on the line, and none is made by an escape; but a NUL may be. -/
def Bare (line : Str) : Prop := percent ∉ line ∧ percent ∉ escaped line

/-- All conversions are written such that two characters tell what they are, and none is behind a
NUL. -/
def Definition.Recorded (d : Definition) : Prop :=
  ∃ front rest, d.lines = front ++ rest ∧ (∀ line ∈ front, Plain line) ∧ ∀ line ∈ rest, Bare line

/-! ## Lines -/

theorem hexEscape_length (digit : UInt8 → UInt8) (p : Str) :
    (hexEscape digit p).2.length ≤ p.length := by
  match p with
  | [] => exact Nat.le_refl _
  | [a] => rw [hexEscape]; split <;> simp
  | a :: b :: q =>
    rw [hexEscape]
    split
    · split
      · simp only [List.length_cons]; omega
      · simp
    · exact Nat.le_refl _

theorem mapBSEscape_length (digit : UInt8 → UInt8) (p : Str) :
    (mapBSEscape digit p).2.length ≤ p.length := by
  cases p with
  | nil => exact Nat.le_refl _
  | cons c p =>
    rw [mapBSEscape]
    split
    · exact (hexEscape_length digit p).trans (Nat.le_succ _)
    · cases besFromChar.idxOf? c <;> exact Nat.le_succ _

theorem unescape_fuel {fuel : ℕ} {p : Str} (h : p.length < fuel) :
    unescape fromxdigit fuel p = escaped p := by
  have hall : ∀ (n m : ℕ) (p : Str), p.length < n → p.length < m →
      unescape fromxdigit n p = unescape fromxdigit m p := by
    intro n
    induction n with
    | zero => intro m p hn; omega
    | succ n ih =>
      intro m p hn hm
      obtain ⟨m, rfl⟩ : ∃ k, m = k + 1 := ⟨m - 1, by omega⟩
      cases p with
      | nil => rfl
      | cons c p =>
        rw [List.length_cons] at hn hm
        have hlen := mapBSEscape_length fromxdigit p
        rw [unescape, unescape, ih m p (by omega) (by omega), ih m _ (by omega) (by omega)]
  exact hall _ _ _ h (Nat.lt_succ_self _)

theorem escaped_cons {c : UInt8} (hc : c ≠ backslash) (p : Str) :
    escaped (c :: p) = c :: escaped p := by
  rw [escaped, unescape, if_pos (by simpa using hc), List.length_cons,
    unescape_fuel (Nat.lt_succ_self _)]

theorem escaped_backslash {p : Str} (hp : p ≠ []) :
    escaped (backslash :: p) =
      (mapBSEscape fromxdigit p).1 :: escaped (mapBSEscape fromxdigit p).2 := by
  have hlen := mapBSEscape_length fromxdigit p
  rw [escaped, unescape, if_neg (by simp), if_neg hp, List.length_cons, unescape_fuel (by omega)]

theorem escaped_quoted (p : Str) :
    escaped (backslash :: percent :: p) = percent :: escaped p := by
  rw [escaped_backslash (List.cons_ne_nil _ _)]
  rfl

theorem percents_cons {c : UInt8} (hc : c ≠ percent) (p : Str) :
    percents (c :: p) = percents p := by
  rw [percents, if_neg (by simpa using hc)]

theorem percents_percent (p : Str) :
    percents (percent :: p) = percent :: p.headD 0 :: percents p := by
  rw [percents, if_pos (by simp)]

/-- A hexadecimal digit is no percent sign. -/
theorem percents_hexEscape (digit : UInt8 → UInt8) (p : Str) :
    percents (hexEscape digit p).2 = percents p := by
  have hdigit : ∀ c, isxdigit c = true → c ≠ percent := by
    rintro c hc rfl
    exact absurd hc (by decide)
  match p with
  | [] => rfl
  | [a] =>
    rw [hexEscape]
    split
    next ha => rw [percents_cons (hdigit a ha)]
    next => rfl
  | a :: b :: q =>
    rw [hexEscape]
    split
    next ha =>
      rw [percents_cons (hdigit a ha)]
      split
      next hb => rw [percents_cons (hdigit b hb)]
      next => rfl
    next => rfl

/-- Nothing has been recorded of an escape that does not make a percent sign. -/
theorem percents_mapBSEscape {p : Str} (h : (mapBSEscape fromxdigit p).1 ≠ percent) :
    percents (mapBSEscape fromxdigit p).2 = percents p := by
  cases p with
  | nil => rfl
  | cons c p =>
    have hc : c ≠ percent := by
      rintro rfl
      exact h rfl
    rw [percents_cons hc, mapBSEscape]
    split
    · exact percents_hexEscape fromxdigit p
    · cases besFromChar.idxOf? c <;> rfl

/-! ## What a record says -/

/-- The types of the conversions that have been recorded. -/
def recorded : Str → List Kind
  | _ :: c :: rest =>
    if c = percent then recorded (rest.drop 2) else convKinds false c ++ recorded rest
  | _ => []
termination_by v => v.length
decreasing_by
  all_goals simp only [List.length_drop, List.length_cons]; omega

theorem recorded_twice (c : UInt8) (v : Str) :
    recorded (percent :: percent :: percent :: c :: v) = recorded v := by
  rw [recorded, if_pos rfl]
  rfl

theorem recorded_conv {c : UInt8} (hc : c ≠ percent) (v : Str) :
    recorded (percent :: c :: v) = convKinds false c ++ recorded v := by
  rw [recorded, if_neg hc]

/-- What has been recorded of a line gives the types that `do_printf` takes for it. -/
theorem Plain.kinds {line : Str} (h : Plain line) :
    ∃ ks, (∀ rest, Print.kinds (escaped line ++ rest) = ks ++ Print.kinds rest) ∧
      ∀ v, recorded (percents line ++ v) = ks ++ recorded v := by
  induction h with
  | nil => exact ⟨[], fun rest => Print.kinds_cons (by decide) rest, fun v => rfl⟩
  | char _ hpercent hslash _ ih =>
    obtain ⟨ks, hkinds, hrecorded⟩ := ih
    rw [escaped_cons hslash, percents_cons hpercent]
    exact ⟨ks, fun rest => (Print.kinds_cons hpercent _).trans (hkinds rest), hrecorded⟩
  | join => exact ⟨[], fun rest => rfl, fun v => rfl⟩
  | escape hne _ hpercent _ ih =>
    obtain ⟨ks, hkinds, hrecorded⟩ := ih
    rw [escaped_backslash hne, percents_cons (by decide), ← percents_mapBSEscape hpercent]
    exact ⟨ks, fun rest => (Print.kinds_cons hpercent _).trans (hkinds rest), hrecorded⟩
  | quoted _ ih =>
    obtain ⟨ks, hkinds, hrecorded⟩ := ih
    rw [escaped_cons (by decide)] at hkinds
    rw [escaped_quoted, percents_cons (by decide)]
    exact ⟨ks, hkinds, hrecorded⟩
  | @twice c p _ _ ih =>
    obtain ⟨ks, hkinds, hrecorded⟩ := ih
    rw [escaped_cons (by decide), escaped_cons (by decide), percents_percent, percents_percent]
    refine ⟨ks, fun rest => ?_, fun v => ?_⟩
    · have := Print.kinds_conv (c := 37) (by decide) (by decide) (escaped (c :: p) ++ rest)
      exact this.trans (hkinds rest)
    · exact (recorded_twice c _).trans (hrecorded v)
  | @conv c p hconv hzero hpercent hslash hfar _ ih =>
    obtain ⟨ks, hkinds, hrecorded⟩ := ih
    rw [escaped_cons (by decide), escaped_cons hslash, percents_percent, percents_cons hpercent]
    refine ⟨convKinds false c ++ ks, fun rest => ?_, fun v => ?_⟩
    · have := Print.kinds_conv hconv hzero (escaped p ++ rest)
      rw [if_neg hfar, hkinds, ← List.append_assoc] at this
      exact this
    · rw [List.append_assoc, ← hrecorded]
      exact recorded_conv hpercent _
  | @far c p _ hhead hpercent _ ih =>
    obtain ⟨ks, hkinds, hrecorded⟩ := ih
    rw [escaped_cons (by decide), escaped_cons (by decide), percents_percent,
      percents_cons (by decide)]
    refine ⟨convKinds false 70 ++ ks, fun rest => ?_, fun v => ?_⟩
    · have hskip : Print.kinds ((escaped p ++ rest).drop 1) = ks ++ Print.kinds rest := by
        rw [← hkinds]
        cases hesc : escaped p with
        | nil => rw [hesc] at hhead; cases hhead
        | cons d q =>
          rw [hesc] at hhead
          obtain rfl : d = c := Option.some.inj hhead
          exact (Print.kinds_cons hpercent _).symm
      have := Print.kinds_conv (c := 70) (by decide) (by decide) (escaped p ++ rest)
      rw [if_pos rfl, hskip, ← List.append_assoc] at this
      exact this
    · rw [List.append_assoc, ← hrecorded]
      exact recorded_conv (c := 70) (by decide) _

/-! ## A definition as a format -/

theorem cString_of_notMem {s : Str} (h : 0 ∉ s) : cString s = s :=
  List.takeWhile_eq_self_iff.2 fun c hc => by
    rw [bne_iff_ne]
    rintro rfl
    exact h hc

theorem Plain.zero_notMem {line : Str} (h : Plain line) :
    0 ∉ escaped line ∧ 0 ∉ percents line := by
  induction h with
  | nil => decide
  | char hzero hpercent hslash _ ih =>
    rw [escaped_cons hslash, percents_cons hpercent, List.mem_cons, not_or]
    exact ⟨⟨hzero.symm, ih.1⟩, ih.2⟩
  | join => decide
  | escape hne hzero hpercent _ ih =>
    rw [escaped_backslash hne, percents_cons (by decide), ← percents_mapBSEscape hpercent,
      List.mem_cons, not_or]
    exact ⟨⟨hzero.symm, ih.1⟩, ih.2⟩
  | quoted _ ih =>
    rw [escaped_cons (by decide)] at ih
    rw [escaped_quoted, percents_cons (by decide)]
    exact ih
  | twice hzero _ ih =>
    rw [escaped_cons (by decide), escaped_cons (by decide), percents_percent, percents_percent]
    simp only [List.mem_cons, not_or, List.headD_cons]
    exact ⟨⟨by decide, by decide, ih.1⟩, by decide, by decide, by decide, hzero.symm, ih.2⟩
  | conv _ hzero hpercent hslash _ _ ih =>
    rw [escaped_cons (by decide), escaped_cons hslash, percents_percent, percents_cons hpercent]
    simp only [List.mem_cons, not_or, List.headD_cons]
    exact ⟨⟨by decide, hzero.symm, ih.1⟩, by decide, hzero.symm, ih.2⟩
  | @far c p _ _ _ _ ih =>
    rw [escaped_cons (by decide), escaped_cons (by decide), percents_percent,
      percents_cons (c := 70) (by decide)]
    simp only [List.mem_cons, not_or, List.headD_cons]
    exact ⟨⟨by decide, by decide, ih.1⟩, by decide, by decide, ih.2⟩

/-- Behind the head, nothing is cut but a newline at the end. -/
theorem drop_cutNl (comma : Bool) (head body : Str) :
    (cutNl comma (head ++ body)).drop head.length = body ∨
      ∃ b, body = b ++ [nl] ∧ (cutNl comma (head ++ body)).drop head.length = b := by
  rw [cutNl]
  split
  next h =>
    rw [Bool.and_eq_true, beq_iff_eq] at h
    rcases List.eq_nil_or_concat body with rfl | ⟨b, c, rfl⟩
    · left
      rw [List.append_nil, List.drop_eq_nil_iff, List.length_dropLast]
      omega
    · right
      rw [List.concat_eq_append, ← List.append_assoc, List.getLast?_concat] at h
      rw [List.concat_eq_append, ← List.append_assoc, List.dropLast_concat,
        List.drop_left' rfl, Option.some.inj h.2]
      exact ⟨b, rfl, rfl⟩
  next => exact .inl (List.drop_left' rfl)

theorem Bare.percents {line : Str} (h : Bare line) : percents line = [] := by
  have hnone : ∀ s : Str, percent ∉ s → Strings.percents s = [] := by
    intro s hs
    induction s with
    | nil => rfl
    | cons c s ih =>
      rw [List.mem_cons, not_or] at hs
      rw [percents_cons (Ne.symm hs.1), ih hs.2]
  exact hnone line h.1

theorem kinds_of_notMem {s : Str} (h : percent ∉ s) : Print.kinds s = [] := by
  induction s with
  | nil => rfl
  | cons c s ih =>
    rw [List.mem_cons, not_or] at h
    exact (Print.kinds_cons (Ne.symm h.1) s).trans (ih h.2)

theorem kinds_cString_newline (b : Str) :
    Print.kinds (cString (b ++ [nl])) = Print.kinds (cString b) := by
  rw [cString, cString, List.takeWhile_append]
  split
  next h =>
    have hall := (List.takeWhile_prefix (p := (· != 0)) (l := b)).eq_of_length h
    rw [hall]
    exact Print.kinds_newline b
  next => rfl

namespace Definition

/-- The head and the newline that is cut make no difference to the types. -/
theorem kinds_eq (d : Definition) :
    d.kinds = Print.kinds (cString (d.lines.flatMap escaped)) := by
  rw [kinds, format, text]
  rcases drop_cutNl d.comma d.head (d.lines.flatMap escaped) with h | ⟨b, hb, h⟩
  · rw [h]
  · rw [h, hb, kinds_cString_newline]

/-- **What is recorded for the validation are the types that `do_printf` takes.** -/
theorem Recorded.kinds_eq {d : Definition} (h : d.Recorded) :
    d.kinds = recorded (cString d.vstring) := by
  have hlines : ∀ (lines : List Str) (t : Str), (∀ line ∈ lines, Plain line) → percent ∉ t →
      Print.kinds (lines.flatMap escaped ++ t) = recorded (lines.flatMap percents) := by
    intro lines t hlines ht
    induction lines with
    | nil => simp [recorded, kinds_of_notMem ht]
    | cons line lines ih =>
      obtain ⟨ks, hkinds, hrecorded⟩ := (hlines line List.mem_cons_self).kinds
      rw [List.flatMap_cons, List.flatMap_cons, List.append_assoc, hkinds, hrecorded,
        ih fun l hl => hlines l (List.mem_cons_of_mem line hl)]
  obtain ⟨front, rest, hsplit, hfront, hrest⟩ := h
  have htext : 0 ∉ front.flatMap escaped := by
    simp only [List.mem_flatMap, not_exists, not_and]
    exact fun line hline => (hfront line hline).zero_notMem.1
  have hvstring : d.vstring = front.flatMap percents := by
    have hnil : rest.flatMap percents = [] :=
      List.flatMap_eq_nil_iff.mpr fun line hline => (hrest line hline).percents
    rw [vstring, hsplit, List.flatMap_append, hnil, List.append_nil]
  have hzero : 0 ∉ d.vstring := by
    simp only [hvstring, List.mem_flatMap, not_exists, not_and]
    exact fun line hline => (hfront line hline).zero_notMem.2
  have hbare : percent ∉ cString (rest.flatMap escaped) := fun hmem => by
    obtain ⟨line, hline, hpercent⟩ := List.mem_flatMap.mp (List.takeWhile_subset _ hmem)
    exact (hrest line hline).2 hpercent
  have hcut : cString (front.flatMap escaped ++ rest.flatMap escaped) =
      front.flatMap escaped ++ cString (rest.flatMap escaped) := by
    have hall := cString_of_notMem htext
    rw [cString] at hall
    rw [cString, List.takeWhile_append, hall, if_pos rfl]
    rfl
  rw [Definition.kinds_eq, hsplit, List.flatMap_append, hcut, cString_of_notMem hzero, hvstring]
  exact hlines front _ hfront hbare

end Definition

/-! ## Loading -/

namespace Loader

/-- Where nothing has been loaded. -/
def empty : Loader := ⟨[], false, 0, .lookingForStart, none, [], 0⟩

/-- What a line can do. -/
theorem step_cases {l m : Loader} {line : Str} (h : l.step line = .ok m) :
    (l.state = .lookingForStart ∧ (m = l ∨ ∃ p, m = l.define p)) ∨
    (l.state = .gettingPromptLine1 ∧ ∃ keys, m = l.appKeys keys) ∨
    (l.state = .gettingPromptLine2 ∧
      ∃ metas, m = { l.appMem metas with state := .gettingString }) ∨
    (l.state = .gettingString ∧ ((∃ comma, m = l.apply comma) ∨
      m = { l.appMem (escaped line) with vstring := l.vstring ++ percents line })) := by
  cases hs : l.state with
  | lookingForStart =>
    simp only [step, hs] at h
    refine .inl ⟨rfl, ?_⟩
    cases line with
    | nil => exact .inl (Except.ok.inj h).symm
    | cons c p =>
      simp only at h
      split_ifs at h
      · exact .inr ⟨p, (Except.ok.inj h).symm⟩
      · exact .inl (Except.ok.inj h).symm
      · exact .inl (Except.ok.inj h).symm
  | gettingPromptLine1 =>
    simp only [step, hs] at h
    refine .inr (.inl ⟨rfl, ?_⟩)
    split at h
    next => cases h
    next =>
      split at h
      next => cases h
      next keys _ =>
        split_ifs at h
        exact ⟨keys, (Except.ok.inj h).symm⟩
  | gettingPromptLine2 =>
    simp only [step, hs] at h
    refine .inr (.inr (.inl ⟨rfl, ?_⟩))
    split at h
    next => cases h
    next =>
      split at h
      next => cases h
      next metas _ =>
        split_ifs at h
        exact ⟨metas, (Except.ok.inj h).symm⟩
  | gettingString =>
    simp only [step, hs] at h
    refine .inr (.inr (.inr ⟨rfl, ?_⟩))
    split at h
    next => exact .inl ⟨_, (Except.ok.inj h).symm⟩
    next => exact .inr (Except.ok.inj h).symm

/-- What every line preserves, the loading of a file does. -/
theorem run_induct {P : Loader → Prop} (hstep : ∀ l m line, P l → l.step line = .ok m → P m)
    {before : UInt8} {pieces : List Str} {l m : Loader} (hl : P l)
    (h : run before pieces l = .ok m) : P m := by
  induction pieces generalizing l with
  | nil => exact Except.ok.inj h ▸ hl
  | cons piece rest ih =>
    rw [run] at h
    split at h
    next => cases h
    next line _ =>
      split at h
      next => cases h
      next k hk => exact ih (hstep l k line hl hk) h

/-- What `loadFile` starts with. -/
def restart (l : Loader) : Loader :=
  { l with state := .lookingForStart, text := none, vstring := [], version := 0 }

theorem loadFile_run {before : UInt8} {data : Str} {l m : Loader}
    (h : l.loadFile before data = .ok m) :
    run before (pieces data.length data) l.restart = .ok m ∧ m.state = .lookingForStart := by
  rw [loadFile] at h
  split at h
  next => cases h
  next k hk =>
    split at h
    next hs => exact Except.ok.inj h ▸ ⟨hk, hs⟩
    next => cases h

/-- A label marks its string at most, or adds one that has not been read. -/
theorem define_strg (l : Loader) (p : Str) :
    (∃ b, (l.define p).strg =
      l.strg.modify (l.define p).cnt fun e => { e with perform := e.perform || b }) ∨
    ((l.define p).cnt = l.strg.length ∧
      ∃ e, e.known = false ∧ (l.define p).strg = l.strg ++ [e]) := by
  simp only [define]
  split_ifs with hcnt
  · refine .inr ⟨hcnt, _, ?_, by
      rw [hcnt, List.modify_eq_take_cons_drop (by simp)]
      simp only [List.take_left', List.drop_eq_nil_of_le, List.length_append, List.length_singleton,
        Nat.le_refl, List.getElem_concat_length]
      rfl⟩
    rfl
  · exact .inl ⟨_, rfl⟩

theorem define_state (l : Loader) (p : Str) :
    ((l.define p).state = .gettingPromptLine1 ∨ (l.define p).state = .gettingString) ∧
      (l.define p).text = l.text ∧ (l.define p).vstring = [] := by
  simp only [define]
  split <;> simp

/-- The string is marked and has been read, and this is recorded of it. -/
def Kept (l : Loader) (v : Str) (i : ℕ) : Prop :=
  ∃ e, l.strg[i]? = some e ∧ e.known = true ∧ e.perform = true ∧ cString e.vstring = v

/-- **What has been recorded of a marked string stays the same.** -/
theorem Kept.step {v : Str} {i : ℕ} {l m : Loader} {line : Str} (hl : l.Kept v i)
    (h : l.step line = .ok m) : m.Kept v i := by
  obtain ⟨e, he, hknown, hperform, hv⟩ := hl
  have hi : i < l.strg.length := (List.getElem?_eq_some_iff.1 he).1
  rcases step_cases h with ⟨-, rfl | ⟨p, rfl⟩⟩ | ⟨-, keys, rfl⟩ | ⟨-, metas, rfl⟩ |
    ⟨-, ⟨comma, rfl⟩ | rfl⟩
  · exact ⟨e, he, hknown, hperform, hv⟩
  · rcases l.define_strg p with ⟨b, hb⟩ | ⟨-, f, -, hf⟩
    · refine ⟨_, by rw [hb, List.getElem?_modify, he]; rfl, ?_⟩
      split <;> simp [hknown, hperform, hv]
    · exact ⟨e, by rw [hf, List.getElem?_append_left hi, he], hknown, hperform, hv⟩
  · exact ⟨e, he, hknown, hperform, hv⟩
  · exact ⟨e, he, hknown, hperform, hv⟩
  · refine ⟨_, by rw [apply, List.getElem?_modify, he]; rfl, ?_⟩
    split
    next =>
      simp only
      split
      next hsame =>
        simp only [hknown, hperform, Bool.not_true, Bool.false_or, Bool.and_eq_true,
          beq_iff_eq] at hsame
        exact ⟨rfl, hperform, hsame.2.symm.trans hv⟩
      next => exact ⟨rfl, hperform, hv⟩
    next => exact ⟨hknown, hperform, hv⟩
  · exact ⟨e, he, hknown, hperform, hv⟩

/-- What is in memory of the definition that is being read. -/
def Reading (l : Loader) : Prop :=
  match l.state with
  | .lookingForStart | .gettingPromptLine1 => l.text = none ∧ l.vstring = []
  | .gettingPromptLine2 => l.vstring = []
  | .gettingString => ∃ (head : Str) (lines : List Str),
    l.text.getD [] = head ++ lines.flatMap escaped ∧ l.vstring = lines.flatMap percents

/-- Each item that has been read holds a definition, and at most one has not been. -/
structure Inv (l : Loader) : Prop where
  reading : l.Reading
  known : ∀ i e, l.strg[i]? = some e →
    e.known = true ∨ l.state ≠ .lookingForStart ∧ i = l.cnt
  stored : ∀ e ∈ l.strg, e.known = true → ∃ d : Definition, d.Stored e

theorem Inv.define {l : Loader} (hl : l.Inv) (hstate : l.state = .lookingForStart) (p : Str) :
    (l.define p).Inv := by
  obtain ⟨hreading, hknown, hstored⟩ := hl
  rw [Reading, hstate] at hreading
  obtain ⟨hnext, htext, hvstring⟩ := l.define_state p
  have hall : ∀ (i : ℕ) (e : Entry), l.strg[i]? = some e → e.known = true := fun i e he =>
    (hknown i e he).resolve_right fun h => h.1 hstate
  refine ⟨?_, fun i e he => ?_, fun e he hk => ?_⟩
  · rw [Reading]
    rcases hnext with h | h
    · rw [h]
      exact ⟨htext.trans hreading.1, hvstring⟩
    · rw [h]
      exact ⟨[], [], by rw [htext, hreading.1]; rfl, hvstring⟩
  · rcases l.define_strg p with ⟨b, hb⟩ | ⟨hcnt, f, -, hf⟩
    · left
      rw [hb, List.getElem?_modify] at he
      obtain ⟨e₀, he₀, rfl⟩ := Option.map_eq_some_iff.1 he
      have := hall i e₀ he₀
      split <;> exact this
    · rw [hf, List.getElem?_append] at he
      split at he
      next => exact .inl (hall i e he)
      next hi =>
        right
        have hi' := (List.getElem?_eq_some_iff.1 he).1
        rw [List.length_singleton] at hi'
        refine ⟨?_, by omega⟩
        rcases hnext with h | h <;> rw [h] <;> exact ReadState.noConfusion
  · rcases l.define_strg p with ⟨b, hb⟩ | ⟨-, f, hunknown, hf⟩
    · obtain ⟨i, hi⟩ := List.mem_iff_getElem?.1 he
      rw [hb, List.getElem?_modify] at hi
      obtain ⟨e₀, he₀, rfl⟩ := Option.map_eq_some_iff.1 hi
      obtain ⟨d, hd⟩ := hstored e₀ (List.mem_of_getElem? he₀) (hall i e₀ he₀)
      refine ⟨d, ?_⟩
      split <;> exact hd
    · rw [hf, List.mem_append, List.mem_singleton] at he
      rcases he with he | rfl
      · exact hstored e he hk
      · rw [hunknown] at hk
        cases hk

theorem Inv.apply {l : Loader} (hl : l.Inv) (hstate : l.state = .gettingString) (comma : Bool) :
    (l.apply comma).Inv := by
  obtain ⟨hreading, hknown, hstored⟩ := hl
  rw [Reading, hstate] at hreading
  obtain ⟨head, lines, htext, hvstring⟩ := hreading
  have hcut : (l.text.map (cutNl comma)).getD [] = cutNl comma (l.text.getD []) := by
    cases l.text with
    | some s => rfl
    | none => simp [cutNl]
  refine ⟨⟨rfl, rfl⟩, fun i e he => ?_, fun e he _ => ?_⟩
  · left
    rw [Loader.apply, List.getElem?_modify] at he
    obtain ⟨e₀, he₀, rfl⟩ := Option.map_eq_some_iff.1 he
    split
    next => split <;> rfl
    next hcnt => exact (hknown i e₀ he₀).resolve_right fun h => hcnt h.2.symm
  · obtain ⟨i, hi⟩ := List.mem_iff_getElem?.1 he
    rw [Loader.apply, List.getElem?_modify] at hi
    obtain ⟨e₀, he₀, rfl⟩ := Option.map_eq_some_iff.1 hi
    have hmem := List.mem_of_getElem? he₀
    split
    next =>
      split
      next => exact ⟨⟨head, lines, comma⟩, by rw [hcut, htext]; rfl, hvstring⟩
      next hno =>
        have hk : e₀.known = true := by
          by_contra h
          simp [h] at hno
        exact hstored e₀ hmem hk
    next hcnt =>
      have hk := (hknown i e₀ he₀).resolve_right fun h => hcnt h.2.symm
      exact hstored e₀ hmem hk

theorem Inv.step {l m : Loader} {line : Str} (hl : l.Inv) (h : l.step line = .ok m) : m.Inv := by
  rcases step_cases h with ⟨hs, rfl | ⟨p, rfl⟩⟩ | ⟨hs, keys, rfl⟩ | ⟨hs, metas, rfl⟩ |
    ⟨hs, ⟨comma, rfl⟩ | rfl⟩
  · exact hl
  · exact hl.define hs p
  · obtain ⟨hreading, hknown, hstored⟩ := hl
    rw [Reading, hs] at hreading
    exact ⟨hreading.2,
      fun i e he => (hknown i e he).imp_right fun h => ⟨ReadState.noConfusion, h.2⟩, hstored⟩
  · obtain ⟨hreading, hknown, hstored⟩ := hl
    rw [Reading, hs] at hreading
    exact ⟨⟨l.text.getD [] ++ metas, [], by simp [appMem], hreading⟩,
      fun i e he => (hknown i e he).imp_right fun h => ⟨ReadState.noConfusion, h.2⟩, hstored⟩
  · exact hl.apply hs comma
  · obtain ⟨hreading, hknown, hstored⟩ := hl
    rw [Reading, hs] at hreading
    obtain ⟨head, lines, htext, hvstring⟩ := hreading
    refine ⟨?_, hknown, hstored⟩
    rw [Reading, show ({ l.appMem (escaped line) with
      vstring := l.vstring ++ percents line } : Loader).state = .gettingString from hs]
    exact ⟨head, lines ++ [line], by simp [appMem, htext], by simp [hvstring]⟩

/-- **Every item of a file that has been loaded holds some definition.** -/
theorem loadFile_stored {before : UInt8} {data : Str} {l m : Loader} (hl : l.Inv)
    (hstate : l.state = .lookingForStart) (h : l.loadFile before data = .ok m) :
    m.Inv ∧ m.state = .lookingForStart ∧
      ∀ e ∈ m.strg, e.known = true ∧ ∃ d : Definition, d.Stored e := by
  obtain ⟨hrun, hm⟩ := loadFile_run h
  have hstart : l.restart.Inv := by
    refine ⟨⟨rfl, rfl⟩, fun i e he => .inl ?_, hl.stored⟩
    exact (hl.known i e he).resolve_right fun h => h.1 hstate
  have hinv := run_induct (fun _ _ _ hl h => Inv.step hl h) hstart hrun
  have hall : ∀ e ∈ m.strg, e.known = true := by
    intro e he
    obtain ⟨i, hi⟩ := List.mem_iff_getElem?.1 he
    exact (hinv.known i e hi).resolve_right fun h => h.1 hm
  exact ⟨hinv, hm, fun e he => ⟨hall e he, hinv.stored e he (hall e he)⟩⟩

theorem empty_inv : empty.Inv where
  reading := ⟨rfl, rfl⟩
  known _ _ he := nomatch he
  stored _ he := nomatch he

/-- **No file changes the types that are printed with a marked string**, where its definitions
are such that two characters tell what a conversion is. -/
theorem loadFile_kinds {before : UInt8} {dflt lng : Str} {l m : Loader}
    (hdflt : empty.loadFile before dflt = .ok l) (hlng : l.loadFile before lng = .ok m) {i : ℕ}
    {e f : Entry} (he : l.strg[i]? = some e) (hmarked : e.perform = true)
    (hf : m.strg[i]? = some f) {d r : Definition} (hd : d.Stored e) (hr : r.Stored f)
    (hdr : d.Recorded) (hrr : r.Recorded) : r.kinds = d.kinds := by
  obtain ⟨-, -, hitems⟩ := loadFile_stored empty_inv rfl hdflt
  have hstart : l.restart.Kept (cString e.vstring) i :=
    ⟨e, he, (hitems e (List.mem_of_getElem? he)).1, hmarked, rfl⟩
  obtain ⟨g, hg, -, -, hv⟩ := run_induct (fun _ _ _ hl h => Kept.step hl h) hstart
    (loadFile_run hlng).1
  obtain rfl : g = f := Option.some.inj (hg.symm.trans hf)
  rw [hdr.kinds_eq, hrr.kinds_eq, ← hd.2, ← hr.2, hv]

/-- A text with `%d`, and a translation that puts a tab in front of it. -/
theorem tab_kinds :
    (⟨[], [bytes "\\t%d"], false⟩ : Definition).kinds =
      (⟨[], [bytes "%d"], false⟩ : Definition).kinds := by
  have hplain : Plain (bytes "%d") :=
    .conv (c := 100) (by decide) (by decide) (by decide) (by decide) (by decide) .nil
  have htab : Plain (bytes "\\t%d") := .escape (by decide) (by decide) (by decide) hplain
  exact loadFile_kinds (i := 0)
    (show empty.loadFile 0 (bytes ":A#1%\n%d\n.\n") =
      .ok ⟨[⟨bytes "A", true, true, 1, some (bytes "%d\n"), 4, bytes "%d"⟩], false, 0,
        .lookingForStart, none, [], 1⟩ from rfl)
    (show Loader.loadFile 0 (bytes ":A#1\n\\t%d\n.\n") _ =
      .ok ⟨[⟨bytes "A", true, true, 1, some (bytes "\t%d\n"), 5, bytes "%d"⟩], false, 0,
        .lookingForStart, none, [], 1⟩ from rfl)
    rfl rfl rfl ⟨rfl, rfl⟩ ⟨rfl, rfl⟩ ⟨[bytes "%d"], [], rfl, by simpa using hplain, by simp⟩
    ⟨[bytes "\\t%d"], [], rfl, by simpa using htab, by simp⟩

/-- With a width, only the percent sign and the width are recorded: an `int` becomes a string. -/
theorem width_kinds :
    ∃ l m : Loader, ∃ e f : Entry,
      empty.loadFile 0 (bytes ":A#1%\n%5d\n.\n") = .ok l ∧
      l.loadFile 0 (bytes ":A#1\n%5s\n.\n") = .ok m ∧
      l.strg = [e] ∧ e.perform = true ∧ m.strg = [f] ∧ f.version = e.version ∧
      e.text = some (bytes "%5d\n") ∧ f.text = some (bytes "%5s\n") ∧
      Print.kinds (bytes "%5d\n") = [.int] ∧ Print.kinds (bytes "%5s\n") = [.str] :=
  ⟨⟨[⟨bytes "A", true, true, 1, some (bytes "%5d\n"), 5, bytes "%5"⟩], false, 0,
      .lookingForStart, none, [], 1⟩,
    ⟨[⟨bytes "A", true, true, 1, some (bytes "%5s\n"), 5, bytes "%5"⟩], false, 0,
      .lookingForStart, none, [], 1⟩,
    ⟨bytes "A", true, true, 1, some (bytes "%5d\n"), 5, bytes "%5"⟩,
    ⟨bytes "A", true, true, 1, some (bytes "%5s\n"), 5, bytes "%5"⟩,
    rfl, rfl, rfl, rfl, rfl, rfl, rfl, rfl, by decide, by decide⟩

end Loader

/-- A line with a directive of which nothing is recorded. -/
def hexLine : Str := bytes "\\x25d"

/-- **There is no definition that the validation protects**: what is recorded is the same with
another line, which takes an argument. -/
theorem exists_redefinition (d : Definition) :
    ∃ r : Definition, r.head = d.head ∧ r.lines = hexLine :: d.lines ∧ r.vstring = d.vstring ∧
      r.kinds = .int :: d.kinds := by
  refine ⟨{ d with lines := hexLine :: d.lines }, rfl, rfl, rfl, ?_⟩
  have hescaped : escaped hexLine = [37, 100, 10] := rfl
  have hcut : ∀ s : Str, cString (37 :: 100 :: 10 :: s) = 37 :: 100 :: 10 :: cString s :=
    fun s => rfl
  rw [Definition.kinds_eq, Definition.kinds_eq, List.flatMap_cons, hescaped, List.cons_append,
    List.cons_append, List.singleton_append, hcut,
    Print.kinds_conv (c := 100) (by decide) (by decide)]
  simp only [if_neg (by decide : ¬ (100 : UInt8) = 70),
    Print.kinds_cons (by decide : (10 : UInt8) ≠ 37)]
  rfl

end Strings
end BurdahDos
