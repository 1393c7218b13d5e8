import BurdahDos.Dates.Parse
import BurdahDos.Print.Standard
import Mathlib

/-!
# Dates and times that are shown

`nls_makedate` and `nls_maketime` of `portal/lib/nls_date.c` and `nls_time.c`, with
`FEATURE_NLS`, as `curDateLong` and `curTime` call them.  `sprintf` prints a number as standard C
has it.  A text that has been shown can be typed in:

* `parsedate_nlsMakedate`: with a separator that is punctuation, `parsedate` gives the date again.
* `parsetime_nlsMaketime_iff`: `parsetime` gives the time again, in 12 and in 24 hours, unless
  there are 1 to 9 hundredths.  These are shown as tenths.
-/

set_option autoImplicit false

namespace BurdahDos
namespace Dates

open Print (numeral digitChar)

/-! ## What is shown -/

/-- `%2u`, `%02u` and `%-2u` -/
def twoColumns (flag : Print.Flag) (n : ℕ) : Str := (Print.Piece.number flag 2 10 n).standard

/-- `nls_makedate` with the format and the separator of the country -/
def nlsMakedate (fmt : DateFmt) (dateSep : Str) (year month day : ℕ) : Str :=
  let two := twoColumns .zero
  match fmt with
  | .mdy => two month ++ (dateSep ++ (two day ++ (dateSep ++ two year)))
  | .dmy => two day ++ (dateSep ++ (two month ++ (dateSep ++ two year)))
  | .ymd => two year ++ (dateSep ++ (two month ++ (dateSep ++ two day)))

/-- What `nls_maketime` takes of `nlsBuf`. -/
structure NlsTime where
  timefmt : UInt8
  timeSep : Str
  decimalSep : Str
deriving DecidableEq

/-- Blanks at the end become zeros. -/
def zeroBlanks (s : Str) : Str :=
  (s.reverse.dropWhile (· == 32)).reverse ++
    List.replicate (s.reverse.takeWhile (· == 32)).length 48

/-- The hour of the clock with 12 hours. -/
def hour12 (hour : ℕ) : ℕ :=
  let hour := if 12 ≤ hour then hour - 12 else hour
  if hour = 0 then 12 else hour

/-- The text in front of the letters; without seconds, `second` is negative. -/
def clockText (nls : NlsTime) (hour minute : ℕ) (second : ℤ) (fraction : ℕ) : Str :=
  let buf := twoColumns .none hour ++ (nls.timeSep ++ twoColumns .zero minute)
  if 0 ≤ second then
    let buf := buf ++ (nls.timeSep ++ twoColumns .zero second.toNat)
    if fraction ≠ 0 then zeroBlanks (buf ++ (nls.decimalSep ++ twoColumns .minus fraction)) else buf
  else buf

/-- `nls_maketime`; `text` is what `getString` gives for the hours after noon
and before noon, and `short` is `NLS_MAKE_SHORT_AMPM`. -/
def nlsMaketime (nls : NlsTime) (text : Bool → Option Str) (short : Bool) (hour minute : ℕ)
    (second : ℤ) (fraction : ℕ) : Option Str :=
  if nls.timefmt = 0 then
    (text (12 ≤ hour)).map fun q =>
      clockText nls (hour12 hour) minute second fraction ++
        if short then (ltrimsp q).take 1 else q
  else some (clockText nls hour minute second fraction)

/-! ## Numbers -/

theorem digitChar_toNat {d : ℕ} (h : d < 10) : (digitChar d).toNat = 48 + d := by
  rw [digitChar, if_pos h, UInt8.toNat_ofNat']
  omega

theorem valueOf_reverse {ds : List ℕ} (h : ∀ d ∈ ds, d < 10) :
    valueOf (ds.map digitChar).reverse = Nat.ofDigits 10 ds := by
  rw [valueOf, valueFrom, List.foldl_reverse]
  induction ds with
  | nil => rfl
  | cons d ds ih =>
    rw [List.map_cons, List.foldr_cons, ih fun d hd => h d (List.mem_cons_of_mem _ hd),
      Nat.ofDigits_cons, digitChar_toNat (h d List.mem_cons_self)]
    omega

theorem valueOf_numeral (n : ℕ) : valueOf (numeral 10 n) = n := by
  rw [numeral]
  split
  next h => rw [h]; rfl
  next =>
    rw [valueOf_reverse fun d hd => Nat.digits_lt_base (by omega) hd, Nat.ofDigits_digits]

theorem isdigit_digitChar {d : ℕ} (h : d < 10) : isdigit (digitChar d) = true := by
  simp only [isdigit, digitChar_toNat h, Bool.and_eq_true, decide_eq_true_eq]
  omega

theorem digits_numeral (n : ℕ) : Digits (numeral 10 n) := by
  rw [numeral]
  split
  next => exact ⟨by decide, List.forall_mem_singleton.2 (by decide)⟩
  next h =>
    refine ⟨by simpa [Nat.digits_eq_nil_iff_eq_zero] using h, fun c hc => ?_⟩
    obtain ⟨d, hd, rfl⟩ := List.mem_map.1 (List.mem_reverse.1 hc)
    exact isdigit_digitChar (Nat.digits_lt_base (by omega) hd)

theorem twoColumns_text (n : ℕ) : Print.sign n = [] ∧ Print.numberText 10 n = numeral 10 n := by
  have hsign : Print.sign n = [] := if_neg (by omega)
  exact ⟨hsign, by rw [Print.numberText, hsign, List.nil_append, Int.natAbs_natCast]⟩

theorem twoColumns_none (n : ℕ) : twoColumns .none n =
    List.replicate (2 - (numeral 10 n).length) 32 ++ numeral 10 n := by
  rw [twoColumns, Print.Piece.standard, (twoColumns_text n).2]
  rfl

theorem twoColumns_zero (n : ℕ) : twoColumns .zero n =
    List.replicate (2 - (numeral 10 n).length) 48 ++ numeral 10 n := by
  rw [twoColumns, Print.Piece.standard, (twoColumns_text n).2, (twoColumns_text n).1,
    Int.natAbs_natCast]
  rfl

theorem twoColumns_minus (n : ℕ) : twoColumns .minus n =
    numeral 10 n ++ List.replicate (2 - (numeral 10 n).length) 32 := by
  rw [twoColumns, Print.Piece.standard, (twoColumns_text n).2]
  rfl

theorem valueOf_zeros (k : ℕ) (ds : Str) : valueOf (List.replicate k 48 ++ ds) = valueOf ds := by
  induction k with
  | zero => rfl
  | succ k ih => rw [List.replicate_succ, List.cons_append, ← ih]; rfl

/-- Zeros in front of a number or behind it. -/
theorem digits_zeros (k n : ℕ) : Digits (List.replicate k 48 ++ numeral 10 n) ∧
    Digits (numeral 10 n ++ List.replicate k 48) := by
  obtain ⟨hne, hdigits⟩ := digits_numeral n
  have hall : ∀ c, c ∈ List.replicate k 48 ∨ c ∈ numeral 10 n → isdigit c = true := by
    rintro c (hc | hc)
    · rw [List.eq_of_mem_replicate hc]; decide
    · exact hdigits c hc
  exact ⟨⟨by simp [hne], fun c hc => hall c (List.mem_append.1 hc)⟩,
    ⟨by simp [hne], fun c hc => hall c (List.mem_append.1 hc).symm⟩⟩

/-- A number with a zero in front of it. -/
theorem twoColumns_zero_digits (n : ℕ) :
    Digits (twoColumns .zero n) ∧ valueOf (twoColumns .zero n) = n := by
  rw [twoColumns_zero, valueOf_zeros]
  exact ⟨(digits_zeros _ n).1, valueOf_numeral n⟩

/-! ## Dates -/

theorem completed_of_exists {f : Ymd} (h : f.Exists) : f.completed = f := by
  rw [Ymd.completed, if_neg (by have := h.1.1; omega), if_neg (by have := h.1.1; omega)]

/-- Three numbers with a separator between them. -/
theorem numList_three {a b c : Str} {sep : UInt8} (hsep : ispunct sep = true) (ha : Digits a)
    (hb : Digits b) (hc : Digits c) :
    NumList 3 (a ++ ([sep] ++ (b ++ ([sep] ++ c)))) [a, b, c] :=
  .cons ha hsep (.cons hb hsep (.last hc))

/-- The numbers of a date in the order of the country. -/
def DateFmt.shown (fmt : DateFmt) (f : Ymd) : List ℕ :=
  match fmt with
  | .mdy => [f.month, f.day, f.year]
  | .dmy => [f.day, f.month, f.year]
  | .ymd => [f.year, f.month, f.day]

theorem fields_shown (fmt : DateFmt) (today : DosDate) (f : Ymd) :
    fmt.fields today (fmt.shown f) = some f := by
  cases fmt <;> rfl

theorem dateText_shown (fmt : DateFmt) {sep : UInt8} (hsep : ispunct sep = true) (f : Ymd) :
    DateText (nlsMakedate fmt [sep] f.year f.month f.day)
      ((fmt.shown f).map (twoColumns .zero)) := by
  have htext := fun a b c => numList_three hsep (twoColumns_zero_digits a).1
    (twoColumns_zero_digits b).1 (twoColumns_zero_digits c).1
  refine ⟨[], nlsMakedate fmt [sep] f.year f.month f.day, [], by simp, by simp [Blank], ?_,
    by simp [Blank]⟩
  cases fmt <;> exact htext _ _ _

theorem valueOf_shown (ns : List ℕ) : (ns.map (twoColumns .zero)).map valueOf = ns := by
  rw [List.map_map]
  exact (List.map_congr_left fun n _ => (twoColumns_zero_digits n).2).trans (List.map_id ns)

/-- **A date that is shown** can be typed in. -/
theorem parsedate_nlsMakedate (fmt : DateFmt) (today d : DosDate) {sep : UInt8}
    (hsep : ispunct sep = true) (hd : d.inRange = true) :
    (parsedate fmt today (nlsMakedate fmt [sep] d.year.toNat d.month.toNat d.day.toNat)).1 = .none ∧
    (parsedate fmt today
      (nlsMakedate fmt [sep] d.year.toNat d.month.toNat d.day.toNat)).2.map DosDate.ymd =
        some d.ymd := by
  have hex := (inRange_iff d).1 hd
  have hcompleted : d.ymd.completed = d.ymd := completed_of_exists hex
  have hnarrowed : d.ymd.narrowed = d.ymd := narrowed_of_exists (by rwa [hcompleted])
  have hfields : fmt.fields today (((fmt.shown d.ymd).map (twoColumns .zero)).map valueOf) =
      some d.ymd := by rw [valueOf_shown, fields_shown]
  obtain ⟨haccept, hstored⟩ := parsedate_text (dateText_shown fmt hsep d.ymd) hfields
  rw [hnarrowed, hcompleted] at haccept hstored
  have hpasses := (passes_of_exists hfields (by rwa [hcompleted])).2
  exact ⟨haccept.2 ⟨hpasses, hex⟩, hstored (haccept.2 ⟨hpasses, hex⟩)⟩

theorem parsedate_nlsMakedate_leapDay : (⟨29, 2, 2000, 2⟩ : DosDate).inRange = true ∧
    (parsedate .dmy ⟨1, 1, 1999, 5⟩ (nlsMakedate .dmy [46] 2000 2 29)).2.map DosDate.ymd =
      some ⟨2000, 2, 29⟩ :=
  ⟨by decide, (parsedate_nlsMakedate .dmy ⟨1, 1, 1999, 5⟩ ⟨29, 2, 2000, 2⟩ (by decide)
    (by decide)).2⟩

/-! ## Hundredths -/

theorem zeroBlanks_append {s : Str} (hs : ∀ c, s.getLast? = some c → c ≠ 32) (k : ℕ) :
    zeroBlanks (s ++ List.replicate k 32) = s ++ List.replicate k 48 := by
  have hhead : ∀ c, s.reverse.head? = some c → (c == 32) = false := by
    intro c hc
    rw [List.head?_reverse] at hc
    simpa using hs c hc
  have hnone : s.reverse.takeWhile (· == 32) = [] ∧ s.reverse.dropWhile (· == 32) = s.reverse := by
    cases hrev : s.reverse with
    | nil => exact ⟨rfl, rfl⟩
    | cons c t =>
      have hc := hhead c (by rw [hrev]; rfl)
      exact ⟨List.takeWhile_cons_of_neg (by simp [hc]), List.dropWhile_cons_of_neg (by simp [hc])⟩
  have hall : ∀ c ∈ List.replicate k (32 : UInt8), (c == 32) = true := by
    intro c hc
    rw [List.eq_of_mem_replicate hc]
    rfl
  rw [zeroBlanks, List.reverse_append, List.reverse_replicate, List.dropWhile_append_of_pos hall,
    List.takeWhile_append_of_pos hall, hnone.1, hnone.2, List.reverse_reverse, List.append_nil,
    List.length_replicate]

theorem numeral_last (n : ℕ) (s : Str) : ∀ c, (s ++ numeral 10 n).getLast? = some c → c ≠ 32 := by
  obtain ⟨hne, hdigits⟩ := digits_numeral n
  intro c hc
  rw [List.getLast?_append_of_ne_nil _ hne] at hc
  rintro rfl
  exact absurd (hdigits 32 (List.mem_of_getLast? hc)) (by decide)

/-- Hundredths below 10 look like tenths. -/
def shownHsecond (hsecond : ℕ) : ℕ := if hsecond < 10 then hsecond * 10 else hsecond

theorem length_numeral {n : ℕ} (h : n < 100) :
    (numeral 10 n).length = if n < 10 then 1 else 2 := by
  decide +revert

theorem valueOf_append_zeros (ds : Str) (k : ℕ) :
    valueOf (ds ++ List.replicate k 48) = valueOf ds * 10 ^ k := by
  induction k generalizing ds with
  | zero => simp
  | succ k ih =>
    have hzero : valueOf (ds ++ [48]) = valueOf ds * 10 := List.foldl_append
    rw [List.replicate_succ, List.append_cons, ih, hzero, pow_succ', mul_assoc]

/-- The digits behind the decimal separator. -/
theorem hundredths {n : ℕ} (h : n < 100) :
    Digits (numeral 10 n ++ List.replicate (2 - (numeral 10 n).length) 48) ∧
      valueOf (numeral 10 n ++ List.replicate (2 - (numeral 10 n).length) 48) =
        shownHsecond n := by
  refine ⟨(digits_zeros _ n).2, ?_⟩
  rw [valueOf_append_zeros, valueOf_numeral, length_numeral h, shownHsecond]
  split <;> simp

/-! ## Times -/

/-- The separators are punctuation, and the texts behind the time are letters that `parsetime`
knows. -/
structure NlsTime.Good (nls : NlsTime) (text : Bool → Option Str) : Prop where
  sep : ∃ c, ispunct c = true ∧ nls.timeSep = [c]
  decimal : ∃ c, ispunct c = true ∧ nls.decimalSep = [c]
  letters : ∀ pm, ∃ mid letters, text pm = some (mid ++ letters) ∧ Blank mid ∧
    Letters letters (if pm then 2 else 1) ∧ letters.length ≠ 1

section maketime

variable {nls : NlsTime} {text : Bool → Option Str}

/-- The numbers in front of the letters. -/
theorem clockText_numbers (hgood : nls.Good text) (hour minute second : ℕ) {hsecond : ℕ}
    (h : hsecond < 100) : ∃ pre body nums, clockText nls hour minute second hsecond = pre ++ body ∧
      Blank pre ∧ NumList 4 body nums ∧ nums.map valueOf =
        [hour, minute, second] ++ (if hsecond = 0 then [] else [shownHsecond hsecond]) := by
  obtain ⟨sep, hsep, htime⟩ := hgood.sep
  obtain ⟨dsep, hdsep, hdecimal⟩ := hgood.decimal
  obtain ⟨hm, hmvalue⟩ := twoColumns_zero_digits minute
  obtain ⟨hs, hsvalue⟩ := twoColumns_zero_digits second
  obtain ⟨hf, hfvalue⟩ := hundredths h
  have hh := digits_numeral hour
  have hblank : Blank (List.replicate (2 - (numeral 10 hour).length) 32) := by
    intro c hc
    rw [List.eq_of_mem_replicate hc]
    rfl
  simp only [clockText, if_pos (Int.natCast_nonneg second), Int.toNat_natCast, htime, hdecimal]
  by_cases hzero : hsecond = 0
  · rw [if_neg (not_not_intro hzero), if_pos hzero]
    refine ⟨_, _, _, ?_, hblank, .cons hh hsep (.cons hm hsep (.last hs)), ?_⟩
    · rw [twoColumns_none]; simp
    · simp [hmvalue, hsvalue, valueOf_numeral]
  · rw [if_pos hzero, if_neg hzero]
    refine ⟨_, _, _, ?_, hblank, .cons hh hsep (.cons hm hsep (.cons hs hdsep (.last hf))), ?_⟩
    · rw [twoColumns_minus, ← List.append_assoc [dsep], ← List.append_assoc,
        zeroBlanks_append (by rw [← List.append_assoc]; exact numeral_last hsecond _),
        twoColumns_none]
      simp
    · simp [hmvalue, hsvalue, hfvalue, valueOf_numeral]

theorem hourOf_hour12 {hour : ℕ} (h : hour < 24) :
    hourOf (if 12 ≤ hour then 2 else 1) (hour12 hour) = hour := by
  rw [hourOf, hour12]
  split_ifs <;> omega

/-- What is shown is the text of a time. -/
theorem timeText_nlsMaketime (hgood : nls.Good text) {hour : ℕ} (hhour : hour < 24)
    (minute second : ℕ) {hsecond : ℕ} (h : hsecond < 100) :
    ∃ s nums letters pm, nlsMaketime nls text false hour minute second hsecond = some s ∧
      TimeText s nums letters ∧ Letters letters pm ∧ letters.length ≠ 1 ∧
        timeOf pm (nums.map valueOf) = ⟨hour, minute, second, shownHsecond hsecond⟩ := by
  have htime : ∀ hour' pm, hourOf pm hour' = hour → timeOf pm ([hour', minute, second] ++
      (if hsecond = 0 then [] else [shownHsecond hsecond])) =
        ⟨hour, minute, second, shownHsecond hsecond⟩ := by
    rintro hour' pm rfl
    by_cases hzero : hsecond = 0
    · rw [if_pos hzero, hzero]; rfl
    · rw [if_neg hzero]; rfl
  have htwo : ∀ {nums : List Str} {hour' : ℕ}, nums.map valueOf = [hour', minute, second] ++
      (if hsecond = 0 then [] else [shownHsecond hsecond]) → 2 ≤ nums.length := by
    intro nums hour' hnums
    have := congrArg List.length hnums
    simp only [List.length_map, List.length_append, List.length_cons] at this
    omega
  rw [nlsMaketime]
  split
  next =>
    obtain ⟨mid, letters, htext, hmid, hletters, hlen⟩ := hgood.letters (12 ≤ hour)
    obtain ⟨pre, body, nums, hclock, hpre, hnums, hvalue⟩ :=
      clockText_numbers hgood (hour12 hour) minute second h
    refine ⟨_, nums, letters, _, by rw [htext]; rfl, ⟨pre, body, mid, [], ?_, hpre, hnums,
      htwo hvalue, hmid, by simp [Blank]⟩, hletters, hlen, ?_⟩
    · rw [hclock]; simp
    · rw [hvalue]
      refine htime _ _ ?_
      simpa only [decide_eq_true_eq] using hourOf_hour12 hhour
  next =>
    obtain ⟨pre, body, nums, hclock, hpre, hnums, hvalue⟩ :=
      clockText_numbers hgood hour minute second h
    refine ⟨_, nums, [], 0, rfl, ⟨pre, body, [], [], ?_, hpre, hnums, htwo hvalue,
      by simp [Blank], by simp [Blank]⟩, .none, by decide, ?_⟩
    · rw [hclock]; simp
    · rw [hvalue]
      exact htime _ _ rfl

theorem shownHsecond_le {hsecond : ℕ} (h : hsecond ≤ 99) : shownHsecond hsecond ≤ 99 := by
  rw [shownHsecond]
  split <;> omega

theorem eq_of_hms {t u : DosTime} (h : t.hms = u.hms) : t = u := by
  obtain ⟨hour, minute, second, hsecond⟩ := t
  obtain ⟨hour', minute', second', hsecond'⟩ := u
  simp only [DosTime.hms, Hms.mk.injEq, UInt8.toNat_inj] at h
  simp only [DosTime.mk.injEq]
  exact h

/-- What `parsetime` makes of a time that is shown. -/
theorem parsetime_shown (hgood : nls.Good text) {t : DosTime} (ht : t.inRange = true) :
    ∃ u : DosTime, (nlsMaketime nls text false t.hour.toNat t.minute.toNat t.second.toNat
        t.hsecond.toNat).map parsetime = some (.none, some u) ∧
      u.hms = ⟨t.hour.toNat, t.minute.toNat, t.second.toNat, shownHsecond t.hsecond.toNat⟩ := by
  obtain ⟨hhour, hminute, hsecond, hhsecond⟩ : t.hour.toNat < 24 ∧ t.minute.toNat < 60 ∧
    t.second.toNat < 60 ∧ t.hsecond.toNat ≤ 99 := (inRange_hms t).1 ht
  have hlt : t.hsecond.toNat < 100 := Nat.lt_succ_of_le hhsecond
  obtain ⟨s, nums, letters, pm, hs, htext, hletters, hlen, htime⟩ :=
    timeText_nlsMaketime hgood hhour t.minute.toNat t.second.toNat hlt
  have hex : (timeOf pm (nums.map valueOf)).Exists := by
    rw [htime]
    exact ⟨hhour, hminute, hsecond, shownHsecond_le hhsecond⟩
  have hfour : (nums.map valueOf).length ≤ 4 := by
    obtain ⟨pre, body, mid, post, -, -, hnums, -⟩ := htext
    simpa using hnums.length_le
  have hpasses : ∀ ds ∈ nums, Passes ds :=
    fun ds hds => passes_of_le (time_le hfour hex _ (List.mem_map_of_mem hds))
  obtain ⟨haccept, hstored⟩ := parsetime_text htext hletters
  rw [narrowed_of_time hex] at haccept hstored
  have hnone := haccept.2 ⟨hlen, hpasses, hex⟩
  obtain ⟨u, hu, huhms⟩ := Option.map_eq_some_iff.1 (hstored hnone)
  refine ⟨u, ?_, huhms.trans htime⟩
  rw [hs, Option.map_some, ← hnone, ← hu]

/-- **A time that is shown** can be typed in, unless it has 1 to 9 hundredths. -/
theorem parsetime_nlsMaketime_iff (hgood : nls.Good text) {t : DosTime} (ht : t.inRange = true) :
    (nlsMaketime nls text false t.hour.toNat t.minute.toNat t.second.toNat t.hsecond.toNat).map
        parsetime = some (.none, some t) ↔ t.hsecond = 0 ∨ 10 ≤ t.hsecond := by
  obtain ⟨u, hu, huhms⟩ := parsetime_shown hgood ht
  have hzero : t.hsecond = 0 ↔ t.hsecond.toNat = 0 := UInt8.toNat_inj.symm
  have hten : 10 ≤ t.hsecond ↔ 10 ≤ t.hsecond.toNat := UInt8.le_iff_toNat_le
  rw [hu, hzero, hten]
  constructor
  · intro h
    obtain rfl : u = t := Option.some.inj (Prod.mk.inj (Option.some.inj h)).2
    have hshown : u.hsecond.toNat = shownHsecond u.hsecond.toNat := congrArg Hms.hsecond huhms
    rw [shownHsecond] at hshown
    split at hshown <;> omega
  · intro h
    have hshown : shownHsecond t.hsecond.toNat = t.hsecond.toNat := by
      rw [shownHsecond]
      split <;> omega
    rw [hshown] at huhms
    rw [eq_of_hms huhms]

end maketime

/-- `TEXT_STRING_PM` and `TEXT_STRING_AM` of `strings/DEFAULT.lng` -/
def meridianText (pm : Bool) : Option Str := some (if pm then [32, 112, 109] else [32, 97, 109])

theorem parsetime_nlsMaketime_evening : NlsTime.Good ⟨0, [58], [46]⟩ meridianText ∧
    (nlsMaketime ⟨0, [58], [46]⟩ meridianText false 21 5 9 30).map parsetime =
      some (.none, some ⟨21, 5, 9, 30⟩) := by
  have hgood : NlsTime.Good ⟨0, [58], [46]⟩ meridianText := by
    refine ⟨⟨58, by decide, rfl⟩, ⟨46, by decide, rfl⟩, fun pm => ?_⟩
    have hblank : Blank [32] := List.forall_mem_singleton.2 (by decide)
    cases pm with
    | false => exact ⟨[32], [97, 109], rfl, hblank, .m (by decide) (by decide), by decide⟩
    | true => exact ⟨[32], [112, 109], rfl, hblank, .m (by decide) (by decide), by decide⟩
  have ht : (⟨21, 5, 9, 30⟩ : DosTime).inRange = true := by decide
  exact ⟨hgood, (parsetime_nlsMaketime_iff hgood ht).2 (.inr (by decide))⟩

end Dates
end BurdahDos
