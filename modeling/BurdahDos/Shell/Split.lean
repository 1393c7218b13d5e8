import BurdahDos.Lib.Words
import BurdahDos.Shell.Args
import Mathlib

/-!
# Splitting a command line

`portal/lib/split.c` with `find_batch` of `find.c`.  A null pointer is like an empty line.

`Spans` says where the arguments of a line are: between runs of delimiters, as far as there is no
delimiter outside quotes.

* `split_spans`: splitting comes to an end, every argument takes something of the line, and what is
  returned are the spans without their quotes; of arguments in quotes it is these arguments.
* `unpaired_dropped`: a quote that is not closed is removed like those of a pair, and a switch
  character that is a delimiter stops the loop from going on.
-/

set_option autoImplicit false

namespace BurdahDos
namespace Shell
namespace Args

open Words

/-! ## The loop -/

/-- The loop of `find_batch`. -/
def findBatchLoop (delim : Bool) : UInt8 → Str → Str
  | _, [] => []
  | quote, ch :: p =>
    if quote != 0 || (delim && !isargdelim ch) || (!delim && isargdelim ch) then
      findBatchLoop delim (if quote == ch then 0 else if ch == quoteChar then ch else quote) p
    else ch :: p

/-- `skipnonoptdm` -/
def skipnonoptdm (p : Str) : Str := findBatchLoop false 0 p

/-- `skipnonopt_word` -/
def skipnonoptWord (p : Str) : Str := findBatchLoop true 0 p

/-- To the next argument. -/
def skipDelims (sw : UInt8) (ignoreOptions : Bool) (s : Str) : Str :=
  if ignoreOptions then skipnonoptdm s else skipdm sw s

/-- To the end of an argument. -/
def argEnd (sw : UInt8) (ignoreOptions : Bool) (sBeg : Str) : Str :=
  if ignoreOptions then skipnonoptWord sBeg else skipWord sw sBeg

/-- What splitting ends with. -/
inductive Split where
  /-- `assert(*sEnd > sBeg)` has failed. -/
  | assertion
  /-- A null pointer, for want of memory. -/
  | null
  | argv (args : List Str)
deriving DecidableEq

/-- The loop of `split_cmdline`, with `addArg`; `arg` are the arguments so far. -/
def splitLoop (sw : UInt8) (ignoreOptions : Bool) :
    ℕ → Str → List Str → List Bool → Option Split
  | 0, _, _, _ => none
  | fuel + 1, s, arg, allocs =>
    match skipDelims sw ignoreOptions s with
    | [] => some (.argv arg)
    | c :: start =>
      let sEnd := argEnd sw ignoreOptions (c :: start)
      if (c :: start).length ≤ sEnd.length then some .assertion
      else
        let q := ask true allocs
        if !q.1 then some .null
        else
          let q := ask true q.2
          if !q.1 then some .null
          else
            let new := unquote ((c :: start).take ((c :: start).length - sEnd.length))
            splitLoop sw ignoreOptions fuel sEnd (arg ++ [new]) q.2

/-- `split_cmdline` -/
def splitCmdline (sw : UInt8) (ignoreOptions : Bool) (s : Str) (allocs : List Bool) :
    Option Split :=
  let q := ask true allocs
  if !q.1 then some .null else splitLoop sw ignoreOptions (s.length + 1) s [] q.2

/-- `split` -/
def split (sw : UInt8) (s : Str) (allocs : List Bool) : Option Split :=
  splitCmdline sw false s allocs

/-- `split_batchargs` -/
def splitBatchargs (sw : UInt8) (s : Str) (allocs : List Bool) : Option Split :=
  splitCmdline sw true s allocs

/-! ## Spans -/

/-- The quote that is open behind a text, or 0. -/
def quoteAfter (quote : UInt8) (s : Str) : UInt8 :=
  s.foldl (fun quote ch => if quote == ch then 0 else if ch == quoteChar then ch else quote) quote

/-- Outside quotes there is no character at which an argument stops. -/
def Unbroken (stop : UInt8 → Bool) (s : Str) : Prop :=
  ∀ a c b, s = a ++ c :: b → quoteAfter 0 a = 0 → stop c = false

/-- The characters at which an argument stops: the switch character starts the next one, and an
option goes on over a comma. -/
def stops (sw : UInt8) (ignoreOptions : Bool) (s : Str) (c : UInt8) : Bool :=
  if ignoreOptions then isargdelim c else isdelim (isoption sw s) c || c == sw

/-- An argument, less the switch characters in front. -/
def body (sw : UInt8) (ignoreOptions : Bool) (s : Str) : Str :=
  if ignoreOptions then s else s.dropWhile (· == sw)

/-- A span of a line that is an argument, if `rest` is behind it. -/
structure Span (sw : UInt8) (ignoreOptions : Bool) (s rest : Str) : Prop where
  start : ∃ c s', s = c :: s' ∧ isargdelim c = false
  unbroken : Unbroken (stops sw ignoreOptions s) (body sw ignoreOptions s)
  ends : rest = [] ∨ quoteAfter 0 (body sw ignoreOptions s) = 0 ∧
    ∃ c rest', rest = c :: rest' ∧ stops sw ignoreOptions s c = true ∧
      (body sw ignoreOptions s = [] → c ≠ sw)

/-- The spans of a line, with delimiters before, between and behind them. -/
inductive Spans (sw : UInt8) (ignoreOptions : Bool) : Str → List Str → Prop where
  | nil {gap : Str} (h : ∀ c ∈ gap, isargdelim c = true) : Spans sw ignoreOptions gap []
  | cons {gap s rest : Str} {spans : List Str} (h : ∀ c ∈ gap, isargdelim c = true)
      (hs : Span sw ignoreOptions s rest) (hrest : Spans sw ignoreOptions rest spans) :
      Spans sw ignoreOptions (gap ++ (s ++ rest)) (s :: spans)

theorem Spans.empty (sw : UInt8) (ignoreOptions : Bool) : Spans sw ignoreOptions [] [] :=
  .nil (by simp)

/-- The span is at the beginning. -/
theorem Spans.direct {sw : UInt8} {ignoreOptions : Bool} {s rest : Str} {spans : List Str}
    (hs : Span sw ignoreOptions s rest) (hrest : Spans sw ignoreOptions rest spans) :
    Spans sw ignoreOptions (s ++ rest) (s :: spans) := by
  have hspans : Spans sw ignoreOptions ([] ++ (s ++ rest)) (s :: spans) := .cons (by simp) hs hrest
  exact hspans

/-- A text without its quotes. -/
def noQuotes (s : Str) : Str := s.filter (· != quoteChar)

/-- A switch character with which options can be told from the rest of a line. -/
def Honored (sw : UInt8) : Prop := isargdelim sw = false ∧ sw ≠ quoteChar

/-! ## Quotes -/

/-- Up to the first quote. -/
theorem noQuotes_cases (s : Str) :
    (s.dropWhile (· != quoteChar) = [] ∧ noQuotes s = s) ∨
    ∃ q, s.dropWhile (· != quoteChar) = quoteChar :: q ∧ q.length < s.length ∧
      noQuotes s = s.takeWhile (· != quoteChar) ++ noQuotes q := by
  induction s with
  | nil => exact .inl ⟨rfl, rfl⟩
  | cons c s ih =>
    by_cases hc : c = quoteChar
    · subst hc
      exact .inr ⟨s, by simp, by simp, by simp [noQuotes]⟩
    · have hne : (c != quoteChar) = true := by simpa using hc
      rw [List.dropWhile_cons_of_pos (p := (· != quoteChar)) hne,
        List.takeWhile_cons_of_pos (p := (· != quoteChar)) hne,
        show noQuotes (c :: s) = c :: noQuotes s from List.filter_cons_of_pos hne]
      rcases ih with ⟨hnil, hs⟩ | ⟨q, hq, hlt, hs⟩
      · exact .inl ⟨hnil, by rw [hs]⟩
      · exact .inr ⟨q, hq, by simp only [List.length_cons]; omega, by rw [hs, List.cons_append]⟩

theorem unquoteLoop_eq (fuel : ℕ) (s : Str) (h : s.length ≤ fuel) :
    unquoteLoop fuel s = noQuotes s := by
  induction fuel using Nat.strong_induction_on generalizing s with
  | _ fuel ih =>
    cases fuel with
    | zero =>
      rw [List.eq_nil_of_length_eq_zero (Nat.le_zero.mp h)]
      rfl
    | succ fuel =>
      rw [unquoteLoop]
      rcases noQuotes_cases s with ⟨hnil, hs⟩ | ⟨q, hq, hlt, hs⟩
      · rw [hnil, hs]
      · rw [hq, hs]
        simp only
        rcases noQuotes_cases q with ⟨hnil, hq'⟩ | ⟨r, hr, hlt', hq'⟩
        · rw [hnil, hq']
        · rw [hr, hq']
          simp only
          rw [ih fuel (Nat.lt_succ_self _) r (by omega), List.append_assoc]

theorem unquote_eq (s : Str) : unquote s = noQuotes s := unquoteLoop_eq _ s (Nat.le_refl _)

/-! ## One step of the loop -/

variable {sw : UInt8} {ignoreOptions : Bool}

/-- The rest of a text from the first character outside quotes that does not go on. -/
def scan (more : UInt8 → Bool) : UInt8 → Str → Str
  | _, [] => []
  | quote, ch :: p =>
    if quote != 0 || more ch then
      scan more (if quote == ch then 0 else if ch == quoteChar then ch else quote) p
    else ch :: p

theorem findLoop_eq_scan (isopt delim : Bool) (quote : UInt8) (p : Str) :
    findLoop sw isopt delim quote p =
      scan (fun ch => delim && !(isdelim isopt ch || ch == sw) || !delim && isdelim isopt ch)
        quote p := by
  induction p generalizing quote with
  | nil => rfl
  | cons ch p ih => rw [findLoop, scan, ih, Bool.or_assoc]

theorem findBatchLoop_eq_scan (delim : Bool) (quote : UInt8) (p : Str) :
    findBatchLoop delim quote p =
      scan (fun ch => delim && !isargdelim ch || !delim && isargdelim ch) quote p := by
  induction p generalizing quote with
  | nil => rfl
  | cons ch p ih => rw [findBatchLoop, scan, ih, Bool.or_assoc]

/-- What a scan takes, and where it stops. -/
theorem scan_split (more : UInt8 → Bool) (quote : UInt8) (p : Str) :
    ∃ a, p = a ++ scan more quote p ∧
      (∀ x c y, a = x ++ c :: y → quoteAfter quote x = 0 → more c = true) ∧
      (scan more quote p = [] ∨ quoteAfter quote a = 0 ∧
        ∃ c rest, scan more quote p = c :: rest ∧ more c = false) := by
  induction p generalizing quote with
  | nil => exact ⟨[], rfl, fun x c y h => by simp at h, .inl rfl⟩
  | cons ch p ih =>
    rw [scan]
    split
    · rename_i hmore
      obtain ⟨a, ha, hall, hend⟩ :=
        ih (if quote == ch then 0 else if ch == quoteChar then ch else quote)
      refine ⟨ch :: a, by rw [List.cons_append, ← ha], fun x c y h hx => ?_, hend⟩
      cases x with
      | nil =>
        obtain ⟨rfl, -⟩ := List.cons.inj h
        rw [quoteAfter, List.foldl_nil] at hx
        simpa [hx] using hmore
      | cons d x =>
        obtain ⟨rfl, hxy⟩ := List.cons.inj h
        exact hall x c y hxy hx
    · rename_i hmore
      simp only [Bool.or_eq_true, bne_iff_ne, ne_eq, not_or, not_not, Bool.not_eq_true] at hmore
      exact ⟨[], rfl, fun x c y h => by simp at h, .inr ⟨hmore.1, ch, p, rfl, hmore.2⟩⟩

/-- A scan over a text that does not stop it. -/
theorem scan_append (more : UInt8 → Bool) (quote : UInt8) (a rest : Str)
    (hall : ∀ x c y, a = x ++ c :: y → quoteAfter quote x = 0 → more c = true) :
    scan more quote (a ++ rest) = scan more (quoteAfter quote a) rest := by
  induction a generalizing quote with
  | nil => rfl
  | cons ch a ih =>
    have hmore : (quote != 0 || more ch) = true := by
      by_cases hq : quote = 0
      · simp [hall [] ch a rfl hq]
      · simp [hq]
    rw [List.cons_append, scan, if_pos hmore, ih]
    · rfl
    · intro x c y h hx
      exact hall (ch :: x) c y (by rw [h, List.cons_append]) hx

theorem scan_stop {more : UInt8 → Bool} {c : UInt8} (h : more c = false) (rest : Str) :
    scan more 0 (c :: rest) = c :: rest := by
  rw [scan, if_neg (by simp [h])]

/-! ## Delimiters -/

theorem quoteAfter_of_notMem {s : Str} (h : quoteChar ∉ s) : quoteAfter 0 s = 0 := by
  induction s with
  | nil => rfl
  | cons c s ih =>
    rw [List.mem_cons, not_or] at h
    have hc : (c == quoteChar) = false := beq_eq_false_iff_ne.mpr (Ne.symm h.1)
    rw [quoteAfter, List.foldl_cons, hc]
    simp only [Bool.false_eq_true, if_false, ite_self]
    exact ih h.2

theorem isargdelim_of_isoptdelim {c : UInt8} (h : isargdelim c = false) : isoptdelim c = false := by
  simp only [isargdelim, Bool.or_eq_false_iff] at h
  simp only [isoptdelim, Bool.or_eq_false_iff]
  exact ⟨h.1.1.1.1, h.1.1.1.2⟩

theorem isdelim_of_not {c : UInt8} (isopt : Bool) (h : isargdelim c = false) :
    isdelim isopt c = false := by
  cases isopt
  · exact h
  · exact isargdelim_of_isoptdelim h

/-- A run of delimiters is scanned. -/
theorem scan_delims {gap : Str} (hgap : ∀ c ∈ gap, isargdelim c = true) (s : Str) :
    scan isargdelim 0 (gap ++ s) = scan isargdelim 0 s := by
  rw [scan_append]
  · rw [quoteAfter_of_notMem fun hq => absurd (hgap _ hq) (by decide)]
  · rintro x c y rfl -
    exact hgap c (by simp)

/-- **To the next argument**: the delimiters are skipped, and nothing else. -/
theorem skipDelims_eq (hsw : ignoreOptions = true ∨ Honored sw) {gap s : Str}
    (hgap : ∀ c ∈ gap, isargdelim c = true) (hs : ∀ c, s.head? = some c → isargdelim c = false) :
    skipDelims sw ignoreOptions (gap ++ s) = s := by
  -- nothing of `s` is skipped, whichever the delimiters are
  have hstop : ∀ more : UInt8 → Bool, (∀ c, isargdelim c = false → more c = false) →
      scan more 0 s = s := by
    intro more hmore
    cases s with
    | nil => rfl
    | cons c s => exact scan_stop (hmore c (hs c rfl)) s
  cases ignoreOptions with
  | true =>
    rw [skipDelims, if_pos rfl, skipnonoptdm, findBatchLoop_eq_scan]
    simp only [Bool.false_and, Bool.not_false, Bool.true_and, Bool.false_or]
    rw [show (fun ch => isargdelim ch) = isargdelim from rfl, scan_delims hgap]
    exact hstop _ fun _ hc => hc
  | false =>
    have hhonored := hsw.resolve_left Bool.false_ne_true
    rw [skipDelims, if_neg Bool.false_ne_true, skipdm, find]
    simp only [Bool.and_false, Bool.false_eq_true, if_false]
    rw [findLoop_eq_scan]
    simp only [Bool.false_and, Bool.not_false, Bool.true_and, Bool.false_or]
    cases gap with
    | nil => exact hstop _ fun c hc => isdelim_of_not _ hc
    | cons g gap =>
      have hopt : isoption sw (g :: gap ++ s) = false := by
        have hne : g ≠ sw := by
          rintro rfl
          exact absurd (hgap g List.mem_cons_self) (by simp [hhonored.1])
        simpa [isoption] using hne
      rw [hopt, show (fun ch => isdelim false ch) = isargdelim from rfl, scan_delims hgap]
      exact hstop _ fun _ hc => hc

/-! ## The end of an argument -/

theorem body_of_head {c : UInt8} (h : c ≠ sw) (s : Str) : body sw ignoreOptions (c :: s) = c :: s := by
  cases ignoreOptions
  · exact List.dropWhile_cons_of_neg (p := (· == sw)) (by simpa using h)
  · rfl

/-- The scan that finds the end of an argument. -/
theorem argEnd_eq_scan (sw : UInt8) (ignoreOptions : Bool) (s : Str) :
    argEnd sw ignoreOptions s =
      scan (fun ch => !stops sw ignoreOptions s ch) 0 (body sw ignoreOptions s) := by
  cases ignoreOptions with
  | true =>
    rw [argEnd, if_pos rfl, skipnonoptWord, findBatchLoop_eq_scan]
    simp [stops, body]
  | false =>
    rw [argEnd, if_neg Bool.false_ne_true, skipWord, find, findLoop_eq_scan]
    have hbody : (if isoption sw s && true then (s.drop 1).dropWhile (· == sw) else s) =
        body sw false s := by
      cases s with
      | nil => rfl
      | cons c s =>
        by_cases hc : c = sw
        · simp [isoption, body, hc]
        · simp [isoption, body, hc]
    rw [hbody]
    simp [stops]

/-- The first character tells at which ones an argument stops. -/
theorem stops_head (c : UInt8) (s t : Str) :
    stops sw ignoreOptions (c :: s) = stops sw ignoreOptions (c :: t) := rfl

/-- What is in front of the body is the same with the rest of the line behind it. -/
theorem body_append {s rest : Str}
    (h : body sw ignoreOptions s = [] → ∀ c, rest.head? = some c → c ≠ sw) :
    body sw ignoreOptions (s ++ rest) = body sw ignoreOptions s ++ rest := by
  cases ignoreOptions with
  | true => rfl
  | false =>
    simp only [body, Bool.false_eq_true, if_false] at h ⊢
    rw [List.dropWhile_append]
    split
    · rename_i hnil
      rw [List.isEmpty_iff] at hnil
      rw [hnil, List.nil_append]
      cases rest with
      | nil => rfl
      | cons c rest => exact List.dropWhile_cons_of_neg (p := (· == sw)) (by simpa using h hnil c rfl)
    · rfl

/-- **The end of an argument.** -/
theorem argEnd_span {s rest : Str} (h : Span sw ignoreOptions s rest) :
    argEnd sw ignoreOptions (s ++ rest) = rest := by
  obtain ⟨c, s', rfl, -⟩ := h.start
  rw [argEnd_eq_scan, List.cons_append, stops_head c (s' ++ rest) s', ← List.cons_append,
    body_append, scan_append]
  · rcases h.ends with rfl | ⟨hq, d, rest', rfl, hstop, -⟩
    · rfl
    · rw [hq]
      exact scan_stop (by simp [hstop]) rest'
  · intro x d y hxy hx
    simp [h.unbroken x d y hxy hx]
  · rintro hnil d hd
    rcases h.ends with rfl | ⟨-, d', rest', rfl, -, hne⟩
    · exact absurd hd (by simp)
    · obtain rfl : d' = d := by simpa using hd
      exact hne hnil

/-- The switch characters in front of an option. -/
theorem dropWhile_all {lead a : Str} (hlead : ∀ d ∈ lead, d = sw) (ha : a.head? ≠ some sw) :
    (lead ++ a).dropWhile (· == sw) = a := by
  rw [List.dropWhile_append_of_pos (by simpa using hlead)]
  cases a with
  | nil => rfl
  | cons d a => exact List.dropWhile_cons_of_neg (p := (· == sw)) (by simpa using ha)

/-- There is an argument wherever there is no delimiter. -/
theorem exists_span (hsw : ignoreOptions = true ∨ Honored sw) {c : UInt8} (t : Str)
    (hc : isargdelim c = false) :
    ∃ s rest, c :: t = s ++ rest ∧ Span sw ignoreOptions s rest := by
  obtain ⟨a, ha, hall, hend⟩ :=
    scan_split (fun ch => !stops sw ignoreOptions (c :: t) ch) 0 (body sw ignoreOptions (c :: t))
  rw [← argEnd_eq_scan] at ha hend
  generalize argEnd sw ignoreOptions (c :: t) = rest at ha hend
  by_cases hopt : ignoreOptions = false ∧ c = sw
  · obtain ⟨rfl, rfl⟩ := hopt
    have hbody : body c false (c :: t) = (c :: t).dropWhile (· == c) := rfl
    have hne : ((c :: t).dropWhile (· == c)).head? ≠ some c := by
      intro h
      have := List.head?_dropWhile_not (· == c) (c :: t)
      rw [h] at this
      simp at this
    rw [hbody] at ha
    have hlead : ∀ d ∈ (c :: t).takeWhile (· == c), d = c := fun d hd => by
      simpa using List.mem_takeWhile_imp hd
    have hs : (c :: t).takeWhile (· == c) ++ a = c :: (t.takeWhile (· == c) ++ a) := by simp
    have hane : a.head? ≠ some c := by
      cases a with
      | nil => simp
      | cons d a =>
        rw [ha] at hne
        exact hne
    have hbody' : body c false ((c :: t).takeWhile (· == c) ++ a) = a := dropWhile_all hlead hane
    refine ⟨(c :: t).takeWhile (· == c) ++ a, rest, ?_, ⟨_, _, hs, hc⟩, ?_, ?_⟩
    · rw [List.append_assoc, ← ha, List.takeWhile_append_dropWhile]
    · rw [hbody', hs, stops_head c _ t]
      intro x d y hxy hx
      simpa using hall x d y hxy hx
    · rw [hbody', hs, stops_head c _ t]
      refine hend.imp_right fun ⟨hq, d, rest', hrest, hstop⟩ =>
        ⟨hq, d, rest', hrest, by simpa using hstop, ?_⟩
      rintro rfl rfl
      rw [ha, hrest] at hne
      exact hne rfl
  · have hbody : body sw ignoreOptions (c :: t) = c :: t := by
      cases ignoreOptions with
      | true => rfl
      | false => exact body_of_head (fun h => hopt ⟨rfl, h⟩) t
    have hstop : stops sw ignoreOptions (c :: t) c = false := by
      cases ignoreOptions with
      | true => exact hc
      | false =>
        have hne : c ≠ sw := fun h => hopt ⟨rfl, h⟩
        simp [stops, isdelim_of_not _ hc, hne]
    rw [hbody] at ha
    -- the first character is taken
    obtain ⟨a', rfl⟩ : ∃ a', a = c :: a' := by
      cases a with
      | nil =>
        rcases hend with rfl | ⟨-, d, rest', rfl, hd⟩
        · exact absurd ha (by simp)
        · obtain ⟨rfl, -⟩ := List.cons.inj ha
          simp [hstop] at hd
      | cons d a' =>
        obtain ⟨rfl, -⟩ := List.cons.inj ha
        exact ⟨a', rfl⟩
    have hbody' : body sw ignoreOptions (c :: a') = c :: a' := by
      cases ignoreOptions with
      | true => rfl
      | false => exact body_of_head (fun h => hopt ⟨rfl, h⟩) a'
    refine ⟨c :: a', rest, ha, ⟨c, a', rfl, hc⟩, ?_, ?_⟩
    · rw [hbody', stops_head c a' t]
      intro x d y hxy hx
      simpa using hall x d y hxy hx
    · rw [hbody', stops_head c a' t]
      exact hend.imp_right fun ⟨hq, d, rest', hrest, hd⟩ =>
        ⟨hq, d, rest', hrest, by simpa using hd, fun h => absurd h (by simp)⟩

/-- Every line has spans. -/
theorem exists_spans (hsw : ignoreOptions = true ∨ Honored sw) (line : Str) :
    ∃ spans, Spans sw ignoreOptions line spans := by
  induction hn : line.length using Nat.strong_induction_on generalizing line with
  | _ n ih =>
    have hgap : ∀ c ∈ line.takeWhile isargdelim, isargdelim c = true := fun c hc =>
      List.mem_takeWhile_imp hc
    rw [← List.takeWhile_append_dropWhile (p := isargdelim) (l := line)] at hn ⊢
    cases hd : line.dropWhile isargdelim with
    | nil => exact ⟨[], by rw [List.append_nil]; exact .nil hgap⟩
    | cons c t =>
      have hc : isargdelim c = false := by
        have := List.head?_dropWhile_not isargdelim line
        rw [hd] at this
        simpa using this
      obtain ⟨s, rest, hsr, hspan⟩ := exists_span hsw t hc
      obtain ⟨d, s', rfl, -⟩ := hspan.start
      rw [hd, hsr] at hn
      simp only [List.length_append, List.length_cons] at hn
      obtain ⟨spans, hspans⟩ := ih rest.length (by omega) rest rfl
      rw [hsr]
      exact ⟨_, .cons hgap hspan hspans⟩

/-! ## Splitting -/

theorem ask_spec {α : Type} (dflt : α) (as : List α) :
    ((ask dflt as).1 = dflt ∨ (ask dflt as).1 ∈ as) ∧ ∀ a ∈ (ask dflt as).2, a ∈ as := by
  cases as with
  | nil => exact ⟨.inl rfl, fun a ha => ha⟩
  | cons b as => exact ⟨.inr List.mem_cons_self, fun a ha => List.mem_cons_of_mem b ha⟩

/-- **The loop** over a line of which the spans are known. -/
theorem splitLoop_spans (hsw : ignoreOptions = true ∨ Honored sw) {line : Str} {spans : List Str}
    (h : Spans sw ignoreOptions line spans) (fuel : ℕ) (hfuel : line.length < fuel) (arg : List Str)
    (allocs : List Bool) :
    splitLoop sw ignoreOptions fuel line arg allocs = some (.argv (arg ++ spans.map noQuotes)) ∨
      false ∈ allocs ∧ splitLoop sw ignoreOptions fuel line arg allocs = some .null := by
  induction h generalizing fuel arg allocs with
  | @nil gap hgap =>
    obtain ⟨fuel, rfl⟩ := Nat.exists_eq_succ_of_ne_zero (Nat.ne_of_gt (Nat.zero_lt_of_lt hfuel))
    have hskip := skipDelims_eq hsw (s := []) hgap (by simp)
    rw [List.append_nil] at hskip
    rw [splitLoop, hskip]
    simp
  | @cons gap s rest spans hgap hspan hspans ih =>
    obtain ⟨fuel, rfl⟩ := Nat.exists_eq_succ_of_ne_zero (Nat.ne_of_gt (Nat.zero_lt_of_lt hfuel))
    have hend := argEnd_span hspan
    obtain ⟨c, s', rfl, hc⟩ := hspan.start
    have hskip := skipDelims_eq hsw (s := c :: s' ++ rest) hgap (by simpa using hc)
    simp only [List.length_append, List.length_cons] at hfuel
    rw [splitLoop, hskip]
    simp only [List.cons_append] at hend ⊢
    rw [hend, if_neg (by simp only [List.length_cons, List.length_append]; omega)]
    have hnew : (c :: (s' ++ rest)).take ((c :: (s' ++ rest)).length - rest.length) = c :: s' := by
      rw [← List.cons_append, List.length_append, Nat.add_sub_cancel, List.take_left]
    rw [hnew, unquote_eq]
    obtain ⟨h₁, hsub₁⟩ := ask_spec true allocs
    obtain ⟨h₂, hsub₂⟩ := ask_spec true (ask true allocs).2
    cases hr : (ask true allocs).1 with
    | false =>
      rw [hr] at h₁
      exact .inr ⟨h₁.resolve_left (by decide), by simp⟩
    | true =>
      cases hr' : (ask true (ask true allocs).2).1 with
      | false =>
        rw [hr'] at h₂
        exact .inr ⟨hsub₁ _ (h₂.resolve_left (by decide)), by simp⟩
      | true =>
        simp only [Bool.not_true, Bool.false_eq_true, if_false]
        rcases ih fuel (by omega) (arg ++ [noQuotes (c :: s')]) (ask true (ask true allocs).2).2
          with heq | ⟨hmem, heq⟩
        · exact .inl (by rw [heq]; simp)
        · exact .inr ⟨hsub₁ _ (hsub₂ _ hmem), heq⟩

theorem splitCmdline_spans (hsw : ignoreOptions = true ∨ Honored sw) {line : Str}
    {spans : List Str} (h : Spans sw ignoreOptions line spans) (allocs : List Bool) :
    splitCmdline sw ignoreOptions line allocs = some (.argv (spans.map noQuotes)) ∨
      false ∈ allocs ∧ splitCmdline sw ignoreOptions line allocs = some .null := by
  obtain ⟨h₁, hsub⟩ := ask_spec true allocs
  rw [splitCmdline]
  cases hr : (ask true allocs).1 with
  | false =>
    rw [hr] at h₁
    exact .inr ⟨h₁.resolve_left (by decide), by simp⟩
  | true =>
    simp only [Bool.not_true, Bool.false_eq_true, if_false]
    rcases splitLoop_spans hsw h (line.length + 1) (Nat.lt_succ_self _) [] (ask true allocs).2 with
      heq | ⟨hmem, heq⟩
    · exact .inl heq
    · exact .inr ⟨hsub _ hmem, heq⟩

/-! ## Arguments in quotes -/

/-- An argument in quotes. -/
def enclosed (a : Str) : Str := quoteChar :: (a ++ [quoteChar])

/-- Arguments in quotes, joined by one or more blanks. -/
inductive Quoted : List Str → Str → Prop where
  | nil : Quoted [] []
  | last (a : Str) : Quoted [a] (enclosed a)
  | cons {a b gap line : Str} {args : List Str} (hgap : gap ≠ []) (hblank : ∀ c ∈ gap, c = 32 ∨ c = 9)
      (h : Quoted (b :: args) line) : Quoted (a :: b :: args) (enclosed a ++ (gap ++ line))

theorem noQuotes_enclosed {a : Str} (h : quoteChar ∉ a) : noQuotes (enclosed a) = a := by
  have ha : a.filter (· != quoteChar) = a := by
    rw [List.filter_eq_self]
    intro c hc
    simpa using fun h0 : c = quoteChar => h (h0 ▸ hc)
  simp [noQuotes, enclosed, ha]

theorem quoteAfter_inside {s : Str} (h : quoteChar ∉ s) : quoteAfter quoteChar s = quoteChar := by
  induction s with
  | nil => rfl
  | cons c s ih =>
    rw [List.mem_cons, not_or] at h
    have hc : (quoteChar == c) = false := beq_eq_false_iff_ne.mpr h.1
    have hc' : (c == quoteChar) = false := beq_eq_false_iff_ne.mpr (Ne.symm h.1)
    rw [quoteAfter, List.foldl_cons, hc, hc']
    exact ih h.2

theorem span_enclosed (hsw : ignoreOptions = true ∨ Honored sw) {a rest : Str} (ha : quoteChar ∉ a)
    (hrest : rest = [] ∨ ∃ c rest', rest = c :: rest' ∧ (c = 32 ∨ c = 9)) :
    Span sw ignoreOptions (enclosed a) rest := by
  have hbody : body sw ignoreOptions (enclosed a) = enclosed a := by
    cases ignoreOptions with
    | true => rfl
    | false => exact body_of_head (Ne.symm (hsw.resolve_left Bool.false_ne_true).2) _
  have hopt : ignoreOptions = false → isoption sw (enclosed a) = false := by
    rintro rfl
    simpa [isoption, enclosed] using Ne.symm (hsw.resolve_left Bool.false_ne_true).2
  refine ⟨⟨quoteChar, a ++ [quoteChar], rfl, by decide⟩, ?_, ?_⟩
  · rw [hbody]
    intro x c y hxy hx
    cases x with
    | nil =>
      obtain ⟨rfl, -⟩ := List.cons.inj hxy
      cases ignoreOptions with
      | true => rfl
      | false =>
        have hne := Ne.symm (hsw.resolve_left Bool.false_ne_true).2
        simp only [stops, Bool.false_eq_true, if_false, hopt rfl, Bool.or_eq_false_iff, beq_eq_false_iff_ne]
        exact ⟨rfl, Ne.symm (Ne.symm hne)⟩
    | cons d x =>
      -- the quote is still open
      obtain rfl : quoteChar = d := (List.cons.inj hxy).1
      have hin : a ++ [quoteChar] = x ++ c :: y := (List.cons.inj hxy).2
      have hpre : x <+: a := by
        have h1 : x <+: a ++ [quoteChar] := ⟨c :: y, hin.symm⟩
        refine List.prefix_of_prefix_length_le h1 (List.prefix_append a _) ?_
        have := congrArg List.length hin
        simp only [List.length_append, List.length_cons, List.length_nil] at this
        omega
      have hopen := quoteAfter_inside fun hmem => ha (hpre.subset hmem)
      have : quoteAfter 0 (quoteChar :: x) = quoteAfter quoteChar x := rfl
      rw [this, hopen] at hx
      exact absurd hx (by decide)
  · refine hrest.imp_right fun ⟨c, rest', hr, hc⟩ => ⟨?_, c, rest', hr, ?_, ?_⟩
    · rw [hbody, enclosed]
      have : quoteAfter 0 (quoteChar :: (a ++ [quoteChar])) =
          quoteAfter (quoteAfter quoteChar a) [quoteChar] := by
        simp [quoteAfter, List.foldl_append]
        rfl
      rw [this, quoteAfter_inside ha]
      rfl
    · cases ignoreOptions with
      | true => rcases hc with rfl | rfl <;> rfl
      | false =>
        simp only [stops, Bool.false_eq_true, if_false, hopt rfl]
        rcases hc with rfl | rfl <;> rfl
    · rw [hbody]
      exact fun h => absurd h (List.cons_ne_nil _ _)

/-- More delimiters in front. -/
theorem Spans.prepend {gap line : Str} {spans : List Str} (h : Spans sw ignoreOptions line spans)
    (hgap : ∀ c ∈ gap, isargdelim c = true) : Spans sw ignoreOptions (gap ++ line) spans := by
  have hboth : ∀ {gap' : Str}, (∀ c ∈ gap', isargdelim c = true) →
      ∀ c ∈ gap ++ gap', isargdelim c = true := fun hgap' c hc =>
    (List.mem_append.mp hc).elim (hgap c) (hgap' c)
  cases h with
  | nil h => exact .nil (hboth h)
  | cons h hs hrest =>
    rw [← List.append_assoc]
    exact .cons (hboth h) hs hrest

theorem spans_quoted (hsw : ignoreOptions = true ∨ Honored sw) {args : List Str} {line : Str}
    (h : Quoted args line) (hargs : ∀ a ∈ args, quoteChar ∉ a) :
    Spans sw ignoreOptions line (args.map enclosed) := by
  induction h with
  | nil => exact .nil (by simp)
  | last a =>
    have hspan := span_enclosed hsw (hargs a List.mem_cons_self) (.inl rfl)
    have hspans := Spans.direct hspan (.empty sw ignoreOptions)
    simpa using hspans
  | @cons a b gap line args hgap hblank hq ih =>
    obtain ⟨c, gap', rfl⟩ := List.exists_cons_of_ne_nil hgap
    have hdelim : ∀ d ∈ c :: gap', isargdelim d = true := fun d hd => by
      rcases hblank d hd with h0 | h0 <;> rw [h0] <;> rfl
    have hspan : Span sw ignoreOptions (enclosed a) (c :: gap' ++ line) :=
      span_enclosed hsw (hargs a List.mem_cons_self)
        (.inr ⟨c, gap' ++ line, rfl, hblank c List.mem_cons_self⟩)
    have hrest := (ih fun d hd => hargs d (List.mem_cons_of_mem a hd)).prepend hdelim
    exact Spans.direct hspan hrest

/-! ## The main result -/

/-- Splitting comes to an end without failing its assertion, unless memory runs out, and returns the
spans without quotes; of arguments in quotes it returns these arguments. -/
def Splits (sw : UInt8) (ignoreOptions : Bool) (f : Str → List Bool → Option Split) : Prop :=
  (∀ line allocs, ∃ spans, Spans sw ignoreOptions line spans ∧
    (f line allocs = some (.argv (spans.map noQuotes)) ∨
      false ∈ allocs ∧ f line allocs = some .null)) ∧
  ∀ args line allocs, Quoted args line → (∀ a ∈ args, quoteChar ∉ a) → false ∉ allocs →
    f line allocs = some (.argv args)

theorem splits_of_honored (hsw : ignoreOptions = true ∨ Honored sw) :
    Splits sw ignoreOptions (splitCmdline sw ignoreOptions) := by
  refine ⟨fun line allocs => ?_, fun args line allocs hquoted hargs hmem => ?_⟩
  · obtain ⟨spans, hspans⟩ := exists_spans hsw line
    exact ⟨spans, hspans, splitCmdline_spans hsw hspans allocs⟩
  · have hback : (args.map enclosed).map noQuotes = args := by
      rw [List.map_map]
      conv_rhs => rw [← List.map_id args]
      exact List.map_congr_left fun a ha => noQuotes_enclosed (hargs a ha)
    rcases splitCmdline_spans hsw (spans_quoted hsw hquoted hargs) allocs with heq | ⟨hmem', -⟩
    · rwa [hback] at heq
    · exact absurd hmem' hmem

/-- **Splitting a command line** returns the spans of the line without their quotes, and so inverts
quoting: `split_batchargs` always, and `split` with any switch character that is not a delimiter or
a quote. -/
theorem split_spans (sw : UInt8) :
    (Honored sw → Splits sw false (split sw)) ∧ Splits sw true (splitBatchargs sw) :=
  ⟨fun h => splits_of_honored (.inr h), splits_of_honored (.inl rfl)⟩

/-- `"a b"`, two blanks, and `"/"`. -/
theorem split_spans_quoted :
    split 47 [34, 97, 32, 98, 34, 32, 32, 34, 47, 34] [] = some (.argv [[97, 32, 98], [47]]) ∧
      splitBatchargs 47 [34, 97, 32, 98, 34, 32, 32, 34, 47, 34] [] =
        some (.argv [[97, 32, 98], [47]]) := by
  have hquoted : Quoted [[97, 32, 98], [47]] [34, 97, 32, 98, 34, 32, 32, 34, 47, 34] :=
    @Quoted.cons _ _ [32, 32] _ _ (by simp) (by simp) (.last [47])
  have hargs : ∀ a ∈ [[97, 32, 98], [47]], quoteChar ∉ a := by decide
  exact ⟨((split_spans 47).1 ⟨rfl, by decide⟩).2 _ _ [] hquoted hargs List.not_mem_nil,
    (split_spans 47).2.2 _ _ [] hquoted hargs List.not_mem_nil⟩

/-- A text without the quotes that make a pair. -/
def dropPaired (s : Str) : Str :=
  if s.count quoteChar % 2 = 0 then noQuotes s
  else noQuotes (upToLast (· == quoteChar) s) ++ quoteChar :: afterLast (· == quoteChar) s

/-- What is to be returned for a line, if only quotes that make a pair are to be removed. -/
def SplitsPaired (sw : UInt8) (ignoreOptions : Bool) (f : Str → List Bool → Option Split) : Prop :=
  ∀ line, ∃ spans, Spans sw ignoreOptions line spans ∧
    f line [] = some (.argv (spans.map dropPaired))

theorem Spans.first {line : Str} {s : Str} {spans : List Str}
    (h : Spans sw ignoreOptions line (s :: spans)) :
    ∃ gap rest, line = gap ++ (s ++ rest) ∧ (∀ c ∈ gap, isargdelim c = true) ∧ s ≠ [] := by
  cases h with
  | @cons gap _ rest _ h hs hrest =>
    obtain ⟨c, s', rfl, -⟩ := hs.start
    exact ⟨gap, rest, rfl, h, List.cons_ne_nil c s'⟩

/-- The argument of `"a` is `a`.  With a blank as the switch character the loop does not go on
behind ` ,`, and with a quote as that character an argument in quotes is taken apart. -/
theorem unpaired_dropped :
    ¬ SplitsPaired 47 false (split 47) ∧ split 32 [32, 44, 120] [] = some .assertion ∧
      split 34 [34, 97, 32, 98, 34] [] ≠ some (.argv [[97, 32, 98]]) := by
  refine ⟨fun h => ?_, by decide, by decide⟩
  obtain ⟨spans, hspans, heq⟩ := h [34, 97]
  rw [show split 47 [34, 97] [] = some (.argv [[97]]) by decide] at heq
  have hmap : spans.map dropPaired = [[97]] := by simpa using heq.symm
  cases spans with
  | nil => simp at hmap
  | cons s spans =>
    have hs : dropPaired s = [97] := (List.cons.inj hmap).1
    obtain ⟨gap, rest, hline, hgap, hne⟩ := hspans.first
    cases gap with
    | cons c gap =>
      obtain ⟨rfl, -⟩ := List.cons.inj hline
      exact absurd (hgap 34 List.mem_cons_self) (by decide)
    | nil =>
      obtain ⟨c, s, rfl⟩ := List.exists_cons_of_ne_nil hne
      obtain rfl : 34 = c := (List.cons.inj hline).1
      have hrest : [97] = s ++ rest := (List.cons.inj hline).2
      have hsingle : s = [] ∨ s = [97] := by
        rcases List.append_eq_singleton_iff.mp hrest.symm with ⟨h0, -⟩ | ⟨h0, -⟩
        · exact .inl h0
        · exact .inr h0
      rcases hsingle with rfl | rfl <;> exact absurd hs (by decide)

end Args
end Shell
end BurdahDos
