import BurdahDos.Dates.Numbers
import Mathlib

/-!
# Which dates and times are accepted

What `parsedate` and `parsetime` are to do is stated with natural numbers: a text of the grammar,
the fields that the country or the order of the numbers gives, and a date or a time that exists.
The code has an `int` for a number, a byte for a field and a bound that is tested too early, so
that a number may be reduced to one that is in range.

* `parse_iff`: the functions do what they are to do unless a reduced number is accepted or the time
  has `a` or `p` without an `m`.
* `large_day_accepted`: the day 285 is taken for 29.
-/

set_option autoImplicit false

namespace BurdahDos
namespace Dates

/-! ## Dates -/

/-- A year, a month and a day. -/
structure Ymd where
  year : ℕ
  month : ℕ
  day : ℕ

/-- The numbers in the order of the country, with the current month and year if these are
missing. -/
def DateFmt.fields (fmt : DateFmt) (today : DosDate) : List ℕ → Option Ymd
  | [d] => some ⟨today.year.toNat, today.month.toNat, d⟩
  | [a, b] =>
    match fmt with
    | .mdy | .ymd => some ⟨today.year.toNat, a, b⟩
    | .dmy => some ⟨today.year.toNat, b, a⟩
  | [a, b, c] =>
    match fmt with
    | .mdy => some ⟨c, a, b⟩
    | .dmy => some ⟨c, b, a⟩
    | .ymd => some ⟨a, b, c⟩
  | _ => none

/-- A short year is completed. -/
def Ymd.completed (f : Ymd) : Ymd :=
  { f with year := if f.year < 80 then 2000 + f.year else if f.year < 200 then 1900 + f.year
                   else f.year }

/-- The days of a month. -/
def daysIn (year month : ℕ) : ℕ :=
  if month = 2 then if year % 4 = 0 ∧ year % 100 ≠ 0 ∨ year % 400 = 0 then 29 else 28
  else if month = 4 ∨ month = 6 ∨ month = 9 ∨ month = 11 then 30
  else 31

/-- There is such a date between 1980 and 2099. -/
def Ymd.Exists (f : Ymd) : Prop :=
  (1980 ≤ f.year ∧ f.year ≤ 2099) ∧ (1 ≤ f.month ∧ f.month ≤ 12) ∧
    (1 ≤ f.day ∧ f.day ≤ daysIn f.year f.month)

/-- What is left in the fields of a `dosdate_t`. -/
def Ymd.narrowed (f : Ymd) : Ymd := ⟨f.year % 65536, f.month % 256, f.day % 256⟩

/-- The text of numbers, with blanks around it. -/
def DateText (s : Str) (nums : List Str) : Prop :=
  ∃ pre body post, s = pre ++ (body ++ post) ∧ Blank pre ∧ NumList 3 body nums ∧ Blank post

def DosDate.ymd (d : DosDate) : Ymd := ⟨d.year.toNat, d.month.toNat, d.day.toNat⟩

/-- What `parsedate` is to do. -/
def ParsesDate (fmt : DateFmt) (today : DosDate) (s : Str) : Prop :=
  ((parsedate fmt today s).1 = .none ↔ ∃ nums f, DateText s nums ∧
      (∀ ds ∈ nums, valueOf ds ≤ 9999) ∧ fmt.fields today (nums.map valueOf) = some f ∧
      f.completed.Exists) ∧
    ∀ nums f, DateText s nums → fmt.fields today (nums.map valueOf) = some f →
      (parsedate fmt today s).1 = .none →
        (parsedate fmt today s).2.map DosDate.ymd = some f.completed

/-- The reduced numbers are accepted. -/
def DateSlips (fmt : DateFmt) (today : DosDate) (s : Str) : Prop :=
  ∃ nums f, DateText s nums ∧ fmt.fields today (nums.map valueOf) = some f ∧
    (∀ ds ∈ nums, Passes ds) ∧ f.narrowed ≠ f ∧ f.narrowed.completed.Exists

/-! ## Fields -/

theorem byteOf_int16 (n : ℕ) : (byteOf (int16 n)).toNat = n % 256 := by
  have := int16_emod n
  rw [byteOf, UInt8.toNat_ofNat']
  omega

theorem wordOf_int16 (n : ℕ) : (wordOf (int16 n)).toNat = n % 65536 := by
  have := int16_emod n
  rw [wordOf, UInt16.toNat_ofNat']
  omega

/-- The numbers are stored where they belong. -/
theorem store_fields (fmt : DateFmt) (today : DosDate) (nums : List Str) :
    (fmt.store today (stored nums)).map DosDate.ymd =
      (fmt.fields today (nums.map valueOf)).map Ymd.narrowed := by
  have hyear := today.year.toNat_lt
  have hmonth := today.month.toNat_lt
  match nums with
  | [] => rfl
  | [a] =>
    simp [stored, DateFmt.store, DateFmt.fields, DosDate.ymd, Ymd.narrowed, byteOf_int16]
  | [a, b] =>
    cases fmt <;>
      simp [stored, DateFmt.store, DateFmt.fields, DosDate.ymd, Ymd.narrowed, byteOf_int16]
  | [a, b, c] =>
    cases fmt <;>
      simp [stored, DateFmt.store, DateFmt.fields, DosDate.ymd, Ymd.narrowed, byteOf_int16,
        wordOf_int16]
  | a :: b :: c :: d :: _ => rfl

theorem completeYear_toNat (year : UInt16) : (completeYear year).toNat =
    if year.toNat < 80 then 2000 + year.toNat else if year.toNat < 200 then 1900 + year.toNat
    else year.toNat := by
  have h80 : (80 : UInt16).toNat = 80 := rfl
  have h200 : (200 : UInt16).toNat = 200 := rfl
  have h2000 : (2000 : UInt16).toNat = 2000 := rfl
  have h1900 : (1900 : UInt16).toNat = 1900 := rfl
  rw [completeYear]
  simp only [UInt16.lt_iff_toNat_lt, h80, h200]
  split
  next => rw [UInt16.toNat_add, h2000]; omega
  next =>
    split
    next => rw [UInt16.toNat_add, h1900]; omega
    next => rfl

theorem leapYear_iff (year : UInt16) : leapYear year = true ↔
    year.toNat % 4 = 0 ∧ year.toNat % 100 ≠ 0 ∨ year.toNat % 400 = 0 := by
  simp only [leapYear, Bool.or_eq_true, Bool.and_eq_true, beq_iff_eq, bne_iff_ne, ne_eq,
    ← UInt16.toNat_inj, UInt16.toNat_mod]
  rfl

theorem months_daysIn (year : UInt16) {month : ℕ} (h : 1 ≤ month) (h' : month ≤ 12) :
    (months (leapYear year)).getD month 0 = daysIn year.toNat month := by
  have hleap := leapYear_iff year
  rw [daysIn, if_congr hleap.symm rfl rfl]
  cases leapYear year <;> interval_cases month <;> rfl

/-- The check of the code is that there is such a date. -/
theorem inRange_iff (d : DosDate) : d.inRange = true ↔ d.ymd.Exists := by
  have h1 : (1 : UInt8).toNat = 1 := rfl
  have h12 : (12 : UInt8).toNat = 12 := rfl
  have h1980 : (1980 : UInt16).toNat = 1980 := rfl
  have h2099 : (2099 : UInt16).toNat = 2099 := rfl
  simp only [DosDate.inRange, Bool.and_eq_true, decide_eq_true_eq, UInt8.le_iff_toNat_le,
    UInt16.le_iff_toNat_le, h1, h12, h1980, h2099, Ymd.Exists, DosDate.ymd]
  constructor
  · rintro ⟨⟨⟨hm, hm'⟩, hd, hd'⟩, hy, hy'⟩
    rw [months_daysIn d.year hm hm'] at hd'
    exact ⟨⟨hy, hy'⟩, ⟨hm, hm'⟩, hd, hd'⟩
  · rintro ⟨⟨hy, hy'⟩, ⟨hm, hm'⟩, hd, hd'⟩
    rw [← months_daysIn d.year hm hm'] at hd'
    exact ⟨⟨⟨hm, hm'⟩, hd, hd'⟩, hy, hy'⟩

theorem check_date (d : DosDate) : (d.check.1 = .none ↔ d.ymd.Exists) ∧
    (d.check.1 = .none → d.check.2.map DosDate.ymd = some d.ymd) := by
  rw [← inRange_iff, DosDate.check]
  split
  next h => exact ⟨⟨fun _ => h, fun _ => rfl⟩, fun _ => rfl⟩
  next h => exact ⟨⟨fun hc => absurd hc (by simp), fun hr => absurd hr h⟩,
    fun hc => absurd hc (by simp)⟩

theorem ymd_completeYear (d : DosDate) :
    ({ d with year := completeYear d.year } : DosDate).ymd = d.ymd.completed := by
  rw [DosDate.ymd, DosDate.ymd, Ymd.completed, completeYear_toNat]

/-! ## `parsedate` -/

section date

variable {fmt : DateFmt} {today : DosDate} {s : Str}

/-- What is done with a text of the grammar. -/
theorem parsedate_text {nums : List Str} {f : Ymd} (htext : DateText s nums)
    (hf : fmt.fields today (nums.map valueOf) = some f) :
    ((parsedate fmt today s).1 = .none ↔
      (∀ ds ∈ nums, Passes ds) ∧ f.narrowed.completed.Exists) ∧
    ((parsedate fmt today s).1 = .none →
      (parsedate fmt today s).2.map DosDate.ymd = some f.narrowed.completed) := by
  obtain ⟨pre, body, post, rfl, hpre, hbody, hpost⟩ := htext
  have hparse := parsenum_append hpre hbody hpost.behind
  rw [ltrimsp_eq_nil.2 hpost] at hparse
  have hstore := store_fields fmt today nums
  rw [hf, Option.map_some] at hstore
  obtain ⟨d, hd, hymd⟩ := Option.map_eq_some_iff.1 hstore
  by_cases hp : ∀ ds ∈ nums, Passes ds
  · have hcheck := check_date { d with year := completeYear d.year }
    rw [ymd_completeYear, hymd] at hcheck
    rw [parsedate, (hparse _).2 ⟨hp, rfl⟩]
    simp only [hd, ne_eq, not_true_eq_false, if_false]
    exact ⟨hcheck.1.trans ⟨fun h => ⟨hp, h⟩, fun h => h.2⟩, hcheck.2⟩
  · have hnone : parsenum (pre ++ (body ++ post)) 3 = none := by
      cases h : parsenum (pre ++ (body ++ post)) 3 with
      | none => rfl
      | some r => exact absurd ((hparse r).1 h).1 hp
    rw [parsedate, hnone]
    exact ⟨⟨fun h => absurd h (by simp), fun h => absurd h.1 hp⟩, fun h => absurd h (by simp)⟩

theorem fields_some {nums : List ℕ} (hne : nums ≠ []) (hlen : nums.length ≤ 3) :
    ∃ f, fmt.fields today nums = some f := by
  match nums with
  | [] => exact absurd rfl hne
  | [a] => exact ⟨_, rfl⟩
  | [a, b] => cases fmt <;> exact ⟨_, rfl⟩
  | [a, b, c] => cases fmt <;> exact ⟨_, rfl⟩
  | a :: b :: c :: d :: _ => exact absurd hlen (by simp)

/-- Only a text of the grammar is accepted. -/
theorem parsedate_sound (h : (parsedate fmt today s).1 = .none) :
    ∃ nums f, DateText s nums ∧ fmt.fields today (nums.map valueOf) = some f := by
  rw [parsedate] at h
  split at h
  next => exact absurd h (by simp)
  next ns rest hparse =>
    split at h
    next => exact absurd h (by simp)
    next hrest =>
      have hne : ns ≠ [] := by
        rintro rfl
        have hstore : fmt.store today [] = none := by cases fmt <;> rfl
        simp only [hstore] at h
        exact absurd h (by simp)
      obtain ⟨pre, body, post, nums, hs, hpre, hbody, hpost⟩ := parsenum_sound hparse hne
      have hblank : Blank post := ltrimsp_eq_nil.1 (hpost.symm.trans (not_not.1 hrest))
      have hlen : (nums.map valueOf).length ≤ 3 := by
        rw [List.length_map]
        exact hbody.length_le
      obtain ⟨f, hf⟩ : ∃ f, fmt.fields today (nums.map valueOf) = some f :=
        fields_some (by simpa using hbody.ne_nil) hlen
      exact ⟨nums, f, ⟨pre, body, post, hs, hpre, hbody, hblank⟩, hf⟩

theorem Ymd.Exists.bounds {f : Ymd} (h : f.completed.Exists) :
    f.year ≤ 2099 ∧ f.month ≤ 12 ∧ f.day ≤ 31 := by
  obtain ⟨⟨-, hy⟩, ⟨-, hm⟩, -, hd⟩ := h
  refine ⟨?_, hm, hd.trans ?_⟩
  · simp only [Ymd.completed] at hy
    split at hy
    next => omega
    next =>
      split at hy <;> omega
  · rw [daysIn]
    split
    next => split <;> decide
    next => split <;> decide

/-- Fields that exist have not been reduced. -/
theorem narrowed_of_exists {f : Ymd} (h : f.completed.Exists) : f.narrowed = f := by
  obtain ⟨hyear, hmonth, hday⟩ := h.bounds
  rw [Ymd.narrowed, Nat.mod_eq_of_lt (by omega), Nat.mod_eq_of_lt (by omega),
    Nat.mod_eq_of_lt (by omega)]

theorem fields_le {nums : List ℕ} {f : Ymd} (hf : fmt.fields today nums = some f)
    (h : f.completed.Exists) : ∀ n ∈ nums, n ≤ 9999 := by
  obtain ⟨hyear, hmonth, hday⟩ := h.bounds
  match nums, hf with
  | [a], hf =>
    rw [← Option.some.inj hf] at hday
    simpa using hday.trans (by decide)
  | [a, b], hf =>
    cases fmt <;> rw [← Option.some.inj hf] at hmonth hday <;> simp only at hmonth hday <;>
      simp only [List.mem_cons, List.not_mem_nil, or_false, forall_eq_or_imp, forall_eq] <;> omega
  | [a, b, c], hf =>
    cases fmt <;> rw [← Option.some.inj hf] at hyear hmonth hday <;>
      simp only at hyear hmonth hday <;>
      simp only [List.mem_cons, List.not_mem_nil, or_false, forall_eq_or_imp, forall_eq] <;> omega

theorem passes_of_exists {nums : List Str} {f : Ymd}
    (hf : fmt.fields today (nums.map valueOf) = some f) (h : f.completed.Exists) :
    (∀ ds ∈ nums, valueOf ds ≤ 9999) ∧ ∀ ds ∈ nums, Passes ds := by
  have hle : ∀ ds ∈ nums, valueOf ds ≤ 9999 :=
    fun ds hds => fields_le hf h _ (List.mem_map_of_mem hds)
  exact ⟨hle, fun ds hds => passes_of_le (hle ds hds)⟩

theorem eq_of_completed {f : Ymd} (h : f.completed = f.narrowed.completed)
    (hex : f.narrowed.completed.Exists) : f.narrowed = f := by
  rw [← h] at hex
  exact narrowed_of_exists hex

/-- **`parsedate`** does what it is to do unless reduced numbers are accepted. -/
theorem parsesDate_iff : ParsesDate fmt today s ↔ ¬ DateSlips fmt today s := by
  constructor
  · rintro ⟨-, hstored⟩ ⟨nums, f, htext, hf, hp, hne, hex⟩
    obtain ⟨haccept, hcode⟩ := parsedate_text htext hf
    have hnone := haccept.2 ⟨hp, hex⟩
    have heq := (hstored nums f htext hf hnone).symm.trans (hcode hnone)
    exact hne (eq_of_completed (Option.some.inj heq) hex)
  · intro hslip
    have hexact : ∀ nums f, DateText s nums → fmt.fields today (nums.map valueOf) = some f →
        (parsedate fmt today s).1 = .none → f.narrowed = f := by
      intro nums f htext hf hnone
      obtain ⟨hp, hex⟩ := (parsedate_text htext hf).1.1 hnone
      by_contra hne
      exact hslip ⟨nums, f, htext, hf, hp, hne, hex⟩
    refine ⟨⟨fun hnone => ?_, ?_⟩, fun nums f htext hf hnone => ?_⟩
    · obtain ⟨nums, f, htext, hf⟩ := parsedate_sound hnone
      have hex := ((parsedate_text htext hf).1.1 hnone).2
      rw [hexact nums f htext hf hnone] at hex
      exact ⟨nums, f, htext, (passes_of_exists hf hex).1, hf, hex⟩
    · rintro ⟨nums, f, htext, -, hf, hex⟩
      refine (parsedate_text htext hf).1.2 ⟨(passes_of_exists hf hex).2, ?_⟩
      rw [narrowed_of_exists hex]
      exact hex
    · have hcode := (parsedate_text htext hf).2 hnone
      rw [hexact nums f htext hf hnone] at hcode
      exact hcode

end date

/-! ## Times -/

/-- An hour of a day, with what may be missing. -/
structure Hms where
  hour : ℕ
  minute : ℕ
  second : ℕ
  hsecond : ℕ

/-- The letters behind the numbers: 1 is before noon, 2 after noon. -/
def meridianOf (letters : Str) : Option ℕ :=
  if letters = [] then some 0
  else if letters.map toupper ∈ [[65], [65, 77], [65, 46, 77, 46]] then some 1
  else if letters.map toupper ∈ [[80], [80, 77], [80, 46, 77, 46]] then some 2
  else none

/-- The text of numbers and letters, with blanks around them. -/
def TimeText (s : Str) (nums : List Str) (letters : Str) : Prop :=
  ∃ pre body mid post, s = pre ++ (body ++ (mid ++ (letters ++ post))) ∧ Blank pre ∧
    NumList 4 body nums ∧ 2 ≤ nums.length ∧ Blank mid ∧ Blank post

/-- The hour of a day. -/
def hourOf (pm hour : ℕ) : ℕ :=
  if pm = 2 then if hour = 12 then 12 else hour + 12
  else if pm = 1 then if hour = 12 then 0 else hour
  else hour

/-- The time that numbers give; missing ones are zero. -/
def timeOf (pm : ℕ) (nums : List ℕ) : Hms :=
  ⟨hourOf pm (nums.getD 0 0), nums.getD 1 0, nums.getD 2 0, nums.getD 3 0⟩

/-- What is left of it in the fields of a `dostime_t`; 12 hours are added in a byte. -/
def narrowedTime (pm : ℕ) (nums : List ℕ) : Hms :=
  ⟨hourOf pm (nums.getD 0 0 % 256) % 256, nums.getD 1 0 % 256, nums.getD 2 0 % 256,
    nums.getD 3 0 % 256⟩

/-- There is such a time. -/
def Hms.Exists (t : Hms) : Prop :=
  t.hour < 24 ∧ t.minute < 60 ∧ t.second < 60 ∧ t.hsecond ≤ 99

def DosTime.hms (t : DosTime) : Hms :=
  ⟨t.hour.toNat, t.minute.toNat, t.second.toNat, t.hsecond.toNat⟩

/-- What `parsetime` is to do. -/
def ParsesTime (s : Str) : Prop :=
  ((parsetime s).1 = .none ↔ ∃ nums letters pm, TimeText s nums letters ∧
      meridianOf letters = some pm ∧ (∀ ds ∈ nums, valueOf ds ≤ 9999) ∧
      (timeOf pm (nums.map valueOf)).Exists) ∧
    ∀ nums letters pm, TimeText s nums letters → meridianOf letters = some pm →
      (parsetime s).1 = .none →
        (parsetime s).2.map DosTime.hms = some (timeOf pm (nums.map valueOf))

/-- A letter alone is not accepted, or reduced numbers are. -/
def TimeSlips (s : Str) : Prop :=
  ∃ nums letters pm, TimeText s nums letters ∧ meridianOf letters = some pm ∧
    (letters.length = 1 ∧ (timeOf pm (nums.map valueOf)).Exists ∨
      letters.length ≠ 1 ∧ (∀ ds ∈ nums, Passes ds) ∧
        narrowedTime pm (nums.map valueOf) ≠ timeOf pm (nums.map valueOf) ∧
        (narrowedTime pm (nums.map valueOf)).Exists)

/-! ## Letters -/

theorem toupper_isspace {c : UInt8} (h : isspace c = true) : toupper c ≠ 65 ∧ toupper c ≠ 80 ∧
    toupper c ≠ 77 ∧ toupper c ≠ 46 := by
  simp only [isspace, Bool.or_eq_true, Bool.and_eq_true, decide_eq_true_eq, beq_iff_eq] at h
  rw [toupper, if_neg (by omega)]
  refine ⟨?_, ?_, ?_, ?_⟩ <;> rintro rfl <;> exact absurd h (by decide)

/-- Blanks are no letters. -/
theorem meridian_blank {post : Str} (h : Blank post) : meridian post = (0, post) := by
  have hhead : ¬ (toupper (post.headD 0) = 80 ∨ toupper (post.headD 0) = 65) := by
    cases post with
    | nil => decide
    | cons c post =>
      obtain ⟨hA, hP, -⟩ := toupper_isspace (h c List.mem_cons_self)
      exact fun hc => hc.elim hP hA
  rw [meridian]
  simp only [if_neg hhead]

/-- The value of `pm` for a letter. -/
def pmOf (c : UInt8) : ℕ := if toupper c = 80 then 2 else 1

/-- A letter that is looked at, alone, with an `m`, or with an `m` and dots. -/
inductive Letters : Str → ℕ → Prop
  | none : Letters [] 0
  | alone {c : UInt8} (hc : toupper c = 80 ∨ toupper c = 65) : Letters [c] (pmOf c)
  | m {c m : UInt8} (hc : toupper c = 80 ∨ toupper c = 65) (hm : toupper m = 77) :
      Letters [c, m] (pmOf c)
  | dots {c d m d' : UInt8} (hc : toupper c = 80 ∨ toupper c = 65)
      (hm : [d, m, d'].map toupper = [46, 77, 46]) : Letters [c, d, m, d'] (pmOf c)

theorem letters_iff {letters : Str} {pm : ℕ} :
    meridianOf letters = some pm ↔ Letters letters pm := by
  constructor
  · intro h
    have hcases : letters = [] ∧ pm = 0 ∨ ∃ a, (a = 65 ∧ pm = 1 ∨ a = 80 ∧ pm = 2) ∧
        letters.map toupper ∈ [[a], [a, 77], [a, 46, 77, 46]] := by
      rw [meridianOf] at h
      split at h
      next hnil => exact .inl ⟨hnil, (Option.some.inj h).symm⟩
      next =>
        split at h
        next hmem => exact .inr ⟨65, .inl ⟨rfl, (Option.some.inj h).symm⟩, hmem⟩
        next =>
          split at h
          next hmem => exact .inr ⟨80, .inr ⟨rfl, (Option.some.inj h).symm⟩, hmem⟩
          next => exact absurd h (by simp)
    rcases hcases with ⟨rfl, rfl⟩ | ⟨a, ha, hmem⟩
    · exact .none
    · have hpm : ∀ c, toupper c = a → (toupper c = 80 ∨ toupper c = 65) ∧ pm = pmOf c := by
        rintro c rfl
        rcases ha with ⟨ha, rfl⟩ | ⟨ha, rfl⟩
        · exact ⟨.inr ha, by rw [pmOf, if_neg (by rw [ha]; decide)]⟩
        · exact ⟨.inl ha, by rw [pmOf, if_pos ha]⟩
      simp only [List.mem_cons, List.not_mem_nil, or_false] at hmem
      rcases hmem with hmap | hmap | hmap
      · obtain ⟨c, rfl, hc⟩ := List.map_eq_singleton_iff.1 hmap
        obtain ⟨hc', rfl⟩ := hpm c hc
        exact .alone hc'
      · obtain ⟨c, t, rfl, hc, ht⟩ := List.map_eq_cons_iff.1 hmap
        obtain ⟨m, rfl, hm⟩ := List.map_eq_singleton_iff.1 ht
        obtain ⟨hc', rfl⟩ := hpm c hc
        exact .m hc' hm
      · obtain ⟨c, t, rfl, hc, ht⟩ := List.map_eq_cons_iff.1 hmap
        obtain ⟨d, t, rfl, hd, ht⟩ := List.map_eq_cons_iff.1 ht
        obtain ⟨m, t, rfl, hm, ht⟩ := List.map_eq_cons_iff.1 ht
        obtain ⟨d', rfl, hd'⟩ := List.map_eq_singleton_iff.1 ht
        obtain ⟨hc', rfl⟩ := hpm c hc
        exact .dots hc' (by simp [hd, hm, hd'])
  · intro h
    cases h with
    | none => rfl
    | alone hc => rcases hc with hc | hc <;> simp [meridianOf, pmOf, hc]
    | m hc hm => rcases hc with hc | hc <;> simp [meridianOf, pmOf, hc, hm]
    | dots hc hm =>
      simp only [List.map_cons, List.map_nil, List.cons.injEq, and_true] at hm
      rcases hc with hc | hc <;> simp [meridianOf, pmOf, hc, hm]

theorem isspace_ne_upper {c : UInt8} (h : toupper c = 80 ∨ toupper c = 65) : isspace c = false := by
  by_contra hspace
  obtain ⟨hA, hP, -⟩ := toupper_isspace (by simpa using hspace)
  exact h.elim hP hA

/-- What is done with letters, in front of blanks. -/
theorem meridian_letters {letters post : Str} {pm : ℕ} (h : Letters letters pm)
    (hpost : Blank post) : (letters.length ≠ 1 → meridian (letters ++ post) = (pm, post)) ∧
      (letters.length = 1 → ltrimsp (meridian (letters ++ post)).2 ≠ []) := by
  cases h with
  | none => exact ⟨fun _ => meridian_blank hpost, fun h => absurd h (by decide)⟩
  | @alone c hc =>
    refine ⟨fun h => absurd rfl h, fun _ => ?_⟩
    have hm : toupper (post.headD 0) ≠ 77 := by
      cases post with
      | nil => decide
      | cons d post => exact (toupper_isspace (hpost d List.mem_cons_self)).2.2.1
    have hdots : (post.take 3).map toupper ≠ [46, 77, 46] := by
      cases post with
      | nil => decide
      | cons d post =>
        intro h
        exact (toupper_isspace (hpost d List.mem_cons_self)).2.2.2 (List.cons.inj h).1
    rw [meridian]
    simp only [List.singleton_append, List.headD_cons, if_pos hc, List.drop_one, List.tail_cons,
      if_neg hm, if_neg hdots, ltrimsp]
    rw [List.dropWhile_cons_of_neg (by simp [isspace_ne_upper hc])]
    exact List.cons_ne_nil c post
  | @m c m hc hm =>
    refine ⟨fun _ => ?_, fun h => absurd h (by simp)⟩
    rw [meridian]
    simp [hc, hm, pmOf]
  | @dots c d m d' hc hm =>
    refine ⟨fun _ => ?_, fun h => absurd h (by simp)⟩
    have hd : toupper d ≠ 77 := by
      rw [(List.cons.inj hm).1]
      decide
    rw [meridian]
    simp only [List.map_cons, List.map_nil] at hm
    simp [hc, hd, hm, pmOf]

/-- Only such letters are taken. -/
theorem meridian_sound {r : Str} (h : ltrimsp (meridian r).2 = []) :
    ∃ letters post, r = letters ++ post ∧ Blank post ∧ Letters letters (meridian r).1 ∧
      letters.length ≠ 1 := by
  rw [ltrimsp_eq_nil] at h
  by_cases hc : toupper (r.headD 0) = 80 ∨ toupper (r.headD 0) = 65
  · obtain ⟨c, t, rfl⟩ : ∃ c t, r = c :: t := by
      cases r with
      | nil => exact absurd hc (by decide)
      | cons c t => exact ⟨c, t, rfl⟩
    rw [List.headD_cons] at hc
    by_cases hm : toupper (t.headD 0) = 77
    · obtain ⟨m, t, rfl⟩ : ∃ m t', t = m :: t' := by
        cases t with
        | nil => exact absurd hm (by decide)
        | cons m t => exact ⟨m, t, rfl⟩
      rw [List.headD_cons] at hm
      have hmer : meridian (c :: m :: t) = (pmOf c, t) := by
        rw [meridian]
        simp [hc, hm, pmOf]
      rw [hmer] at h ⊢
      exact ⟨[c, m], t, rfl, h, .m hc hm, by simp⟩
    · by_cases hdots : (t.take 3).map toupper = [46, 77, 46]
      · obtain ⟨d, m, d', t, rfl⟩ : ∃ d m d' t', t = d :: m :: d' :: t' := by
          match t with
          | [] => exact absurd hdots (by simp)
          | [_] => exact absurd hdots (by simp)
          | [_, _] => exact absurd hdots (by simp)
          | d :: m :: d' :: t => exact ⟨d, m, d', t, rfl⟩
        have hmer : meridian (c :: d :: m :: d' :: t) = (pmOf c, t) := by
          rw [List.headD_cons] at hm
          simp only [List.take_succ_cons, List.take_zero, List.map_cons, List.map_nil] at hdots
          rw [meridian]
          simp [hc, hm, hdots, pmOf]
        rw [hmer] at h ⊢
        exact ⟨[c, d, m, d'], t, rfl, h, .dots hc hdots, by simp⟩
      · have hmer : (meridian (c :: t)).2 = c :: t := by
          rw [meridian]
          simp only [List.headD_cons, if_pos hc, List.drop_one, List.tail_cons, if_neg hm,
            if_neg hdots]
        rw [hmer] at h
        have hspace := h c List.mem_cons_self
        rw [isspace_ne_upper hc] at hspace
        exact absurd hspace (by simp)
  · have hmer : meridian r = (0, r) := by
      rw [meridian]
      simp only [if_neg hc]
    rw [hmer] at h ⊢
    exact ⟨[], r, rfl, h, .none, by simp⟩

/-! ## `parsetime` -/

theorem hourOf_byte (pm : ℕ) (hour : UInt8) :
    (convertHour pm hour).toNat = hourOf pm hour.toNat % 256 := by
  have h12 : (12 : UInt8).toNat = 12 := rfl
  have hlt := hour.toNat_lt
  have heq : hour = 12 ↔ hour.toNat = 12 := by rw [← UInt8.toNat_inj, h12]
  rw [convertHour, hourOf]
  split
  next =>
    by_cases hh : hour = 12
    · rw [if_neg (not_not.2 hh), if_pos (heq.1 hh), heq.1 hh]
    · rw [if_pos hh, if_neg (mt heq.2 hh), UInt8.toNat_add, h12]
  next =>
    split
    next =>
      by_cases hh : hour = 12
      · rw [if_pos hh, if_pos (heq.1 hh)]
        rfl
      · rw [if_neg hh, if_neg (mt heq.2 hh), Nat.mod_eq_of_lt hlt]
    next => rw [Nat.mod_eq_of_lt hlt]

theorem inRange_hms (t : DosTime) : t.inRange = true ↔ t.hms.Exists := by
  have h24 : (24 : UInt8).toNat = 24 := rfl
  have h60 : (60 : UInt8).toNat = 60 := rfl
  have h99 : (99 : UInt8).toNat = 99 := rfl
  simp only [DosTime.inRange, Bool.and_eq_true, decide_eq_true_eq, UInt8.lt_iff_toNat_lt,
    UInt8.le_iff_toNat_le, h24, h60, h99, Hms.Exists, DosTime.hms, and_assoc]

theorem check_time (t : DosTime) : (t.check.1 = .none ↔ t.hms.Exists) ∧
    (t.check.1 = .none → t.check.2.map DosTime.hms = some t.hms) := by
  rw [← inRange_hms, DosTime.check]
  split
  next h => exact ⟨⟨fun _ => h, fun _ => rfl⟩, fun _ => rfl⟩
  next h => exact ⟨⟨fun hc => absurd hc (by simp), fun hr => absurd hr h⟩,
    fun hc => absurd hc (by simp)⟩

theorem stored_getD (nums : List Str) (i : ℕ) :
    (byteOf ((stored nums).getD i 0)).toNat = (nums.map valueOf).getD i 0 % 256 := by
  rw [stored, List.getD_eq_getElem?_getD, List.getD_eq_getElem?_getD, List.getElem?_map,
    List.getElem?_map]
  cases nums[i]? with
  | none => rfl
  | some ds =>
    rw [Option.map_some, Option.map_some, Option.getD_some, Option.getD_some, byteOf_int16]

theorem storeTime_hms (pm : ℕ) (nums : List Str) :
    (storeTime pm (stored nums)).hms = narrowedTime pm (nums.map valueOf) := by
  rw [storeTime, DosTime.hms, hourOf_byte, stored_getD, stored_getD, stored_getD, stored_getD,
    narrowedTime]

section time

variable {s : Str}

theorem behind_of_upper {c : UInt8} (h : toupper c = 80 ∨ toupper c = 65) :
    isdigit c = false ∧ ispunct c = false := by
  have hval : c.toNat = 80 ∨ c.toNat = 65 ∨ c.toNat = 112 ∨ c.toNat = 97 := by
    rw [toupper] at h
    split at h
    next hc =>
      have hsub : (c - 32).toNat = c.toNat - 32 :=
        UInt8.toNat_sub_of_le c 32 (UInt8.le_iff_toNat_le.2 (hc.1.trans' (by decide)))
      rcases h with h | h <;> rw [h] at hsub
      · have : c.toNat - 32 = 80 := hsub.symm
        omega
      · have : c.toNat - 32 = 65 := hsub.symm
        omega
    next =>
      rcases h with h | h <;> rw [h] <;> decide
  simp only [isdigit, ispunct, Bool.or_eq_false_iff, Bool.and_eq_false_iff, decide_eq_false_iff_not]
  omega

/-- What is behind the numbers. -/
theorem behind_letters {mid letters post : Str} {pm : ℕ} (hmid : Blank mid)
    (h : Letters letters pm) (hpost : Blank post) : Behind (mid ++ (letters ++ post)) ∧
      ∃ post', Blank post' ∧ ltrimsp (mid ++ (letters ++ post)) = letters ++ post' := by
  have hcons : ∀ c t, (toupper c = 80 ∨ toupper c = 65) → Behind (mid ++ c :: t) ∧
      ltrimsp (mid ++ c :: t) = c :: t := by
    intro c t hc
    refine ⟨?_, ltrimsp_append hmid fun d hd => ?_⟩
    · cases mid with
      | nil =>
        intro d hd
        obtain rfl : c = d := Option.some.inj hd
        exact behind_of_upper hc
      | cons b mid =>
        intro d hd
        obtain rfl : b = d := Option.some.inj hd
        exact behind_of_isspace (hmid b List.mem_cons_self)
    · obtain rfl : c = d := Option.some.inj hd
      exact isspace_ne_upper hc
  cases h with
  | none =>
    have hblank : Blank (mid ++ ([] ++ post)) :=
      fun c hc => (List.mem_append.1 hc).elim (hmid c) (hpost c)
    exact ⟨hblank.behind, [], fun c hc => absurd hc (by simp), ltrimsp_eq_nil.2 hblank⟩
  | alone hc => exact ⟨(hcons _ _ hc).1, post, hpost, (hcons _ _ hc).2⟩
  | m hc hm => exact ⟨(hcons _ _ hc).1, post, hpost, (hcons _ _ hc).2⟩
  | dots hc hm => exact ⟨(hcons _ _ hc).1, post, hpost, (hcons _ _ hc).2⟩

/-- What is done with a text of the grammar. -/
theorem parsetime_text {nums : List Str} {letters : Str} {pm : ℕ} (htext : TimeText s nums letters)
    (hletters : Letters letters pm) :
    ((parsetime s).1 = .none ↔ letters.length ≠ 1 ∧ (∀ ds ∈ nums, Passes ds) ∧
      (narrowedTime pm (nums.map valueOf)).Exists) ∧
    ((parsetime s).1 = .none →
      (parsetime s).2.map DosTime.hms = some (narrowedTime pm (nums.map valueOf))) := by
  obtain ⟨pre, body, mid, post, rfl, hpre, hbody, htwo, hmid, hpost⟩ := htext
  obtain ⟨hbehind, post', hpost', hrest⟩ := behind_letters hmid hletters hpost
  have hparse := parsenum_append hpre hbody hbehind
  rw [hrest] at hparse
  obtain ⟨hmer, halone⟩ := meridian_letters hletters hpost'
  have hlen : (stored nums).length = nums.length := List.length_map _
  by_cases hp : ∀ ds ∈ nums, Passes ds
  · rw [parsetime, (hparse _).2 ⟨hp, rfl⟩]
    by_cases hone : letters.length = 1
    · simp only [if_pos (halone hone)]
      exact ⟨⟨fun h => absurd h (by simp), fun h => absurd hone h.1⟩, fun h => absurd h (by simp)⟩
    · have hcheck := check_time (storeTime pm (stored nums))
      rw [storeTime_hms] at hcheck
      have hzero : ¬ nums.length = 0 := by omega
      have hone' : ¬ nums.length = 1 := by omega
      simp only [hmer hone, ltrimsp_eq_nil.2 hpost', ne_eq, not_true_eq_false, if_false, hlen,
        if_neg hzero, if_neg hone']
      exact ⟨hcheck.1.trans ⟨fun h => ⟨hone, hp, h⟩, fun h => h.2.2⟩, hcheck.2⟩
  · have hnone : parsenum (pre ++ (body ++ (mid ++ (letters ++ post)))) 4 = none := by
      cases h : parsenum (pre ++ (body ++ (mid ++ (letters ++ post)))) 4 with
      | none => rfl
      | some r => exact absurd ((hparse r).1 h).1 hp
    rw [parsetime, hnone]
    exact ⟨⟨fun h => absurd h (by simp), fun h => absurd h.2.1 hp⟩, fun h => absurd h (by simp)⟩

/-- Only a text of the grammar is accepted. -/
theorem parsetime_sound (h : (parsetime s).1 = .none) :
    ∃ nums letters pm, TimeText s nums letters ∧ Letters letters pm := by
  rw [parsetime] at h
  split at h
  next => exact absurd h (by simp)
  next ns rest hparse =>
    simp only at h
    split at h
    next => exact absurd h (by simp)
    next hrest =>
      split at h
      next => exact absurd h (by simp)
      next hzero =>
        split at h
        next => exact absurd h (by simp)
        next hone =>
          have hne : ns ≠ [] := fun hnil => hzero (by rw [hnil, List.length_nil])
          obtain ⟨pre, body, behind, nums, hs, hpre, hbody, hbehind⟩ := parsenum_sound hparse hne
          obtain ⟨mid, hmid, hsplit⟩ := split_blanks behind
          obtain ⟨letters, post, hletters, hpost, hl, -⟩ := meridian_sound (not_not.1 hrest)
          have hbehind' : rest = ltrimsp behind := hbehind
          have htext : s = pre ++ (body ++ (mid ++ (letters ++ post))) := by
            rw [hs, ← hletters, hbehind', ← hsplit]
          have htwo : 2 ≤ nums.length := by
            rw [htext] at hparse
            have hbehind := (behind_letters hmid hl hpost).1
            have hparsed := ((parsenum_append hpre hbody hbehind _).1 hparse).2
            have hlen : ns.length = nums.length := by
              rw [(Prod.mk.inj hparsed).1, stored, List.length_map]
            omega
          exact ⟨nums, letters, _, ⟨pre, body, mid, post, htext, hpre, hbody, htwo, hmid, hpost⟩,
            hl⟩

theorem lt_of_hourOf {pm hour : ℕ} (h : hourOf pm hour < 24) : hour < 24 := by
  rw [hourOf] at h
  split at h
  next => split at h <;> omega
  next =>
    split at h
    next => split at h <;> omega
    next => omega

/-- A time that exists has not been reduced. -/
theorem narrowed_of_time {pm : ℕ} {nums : List ℕ} (h : (timeOf pm nums).Exists) :
    narrowedTime pm nums = timeOf pm nums := by
  obtain ⟨hhour, hminute, hsecond, hhsecond⟩ := h
  simp only [timeOf] at hhour hminute hsecond hhsecond
  have hle := lt_of_hourOf hhour
  rw [narrowedTime, timeOf, Nat.mod_eq_of_lt (by omega : nums.getD 0 0 < 256),
    Nat.mod_eq_of_lt (by omega), Nat.mod_eq_of_lt (by omega), Nat.mod_eq_of_lt (by omega),
    Nat.mod_eq_of_lt (by omega)]

theorem time_le {pm : ℕ} {nums : List ℕ} (hlen : nums.length ≤ 4) (h : (timeOf pm nums).Exists) :
    ∀ n ∈ nums, n ≤ 9999 := by
  obtain ⟨hhour, hminute, hsecond, hhsecond⟩ := h
  simp only [timeOf] at hhour hminute hsecond hhsecond
  have hle := lt_of_hourOf hhour
  intro n hn
  obtain ⟨i, hi, rfl⟩ := List.getElem_of_mem hn
  have hget : nums.getD i 0 = nums[i] := by
    rw [List.getD_eq_getElem?_getD, List.getElem?_eq_getElem hi, Option.getD_some]
  have hi4 : i < 4 := hi.trans_le hlen
  interval_cases i <;> omega

theorem passes_of_time {nums : List Str} {letters : Str} {pm : ℕ} (htext : TimeText s nums letters)
    (h : (timeOf pm (nums.map valueOf)).Exists) :
    (∀ ds ∈ nums, valueOf ds ≤ 9999) ∧ ∀ ds ∈ nums, Passes ds := by
  obtain ⟨-, body, -, -, -, -, hbody, -⟩ := htext
  have hlen : (nums.map valueOf).length ≤ 4 := by
    rw [List.length_map]
    exact hbody.length_le
  have hle : ∀ ds ∈ nums, valueOf ds ≤ 9999 :=
    fun ds hds => time_le hlen h _ (List.mem_map_of_mem hds)
  exact ⟨hle, fun ds hds => passes_of_le (hle ds hds)⟩

/-- **`parsetime`** does what it is to do unless a letter is alone or reduced numbers are
accepted. -/
theorem parsesTime_iff : ParsesTime s ↔ ¬ TimeSlips s := by
  constructor
  · rintro ⟨haccept, hstored⟩ ⟨nums, letters, pm, htext, hpm, ⟨hone, hex⟩ | ⟨hone, hp, hne, hex⟩⟩
    · have hnone := haccept.2 ⟨nums, letters, pm, htext, hpm, (passes_of_time htext hex).1, hex⟩
      exact ((parsetime_text htext (letters_iff.1 hpm)).1.1 hnone).1 hone
    · obtain ⟨hcode, hvalue⟩ := parsetime_text htext (letters_iff.1 hpm)
      have hnone := hcode.2 ⟨hone, hp, hex⟩
      have heq := (hvalue hnone).symm.trans (hstored nums letters pm htext hpm hnone)
      exact hne (Option.some.inj heq)
  · intro hslip
    have hexact : ∀ nums letters pm, TimeText s nums letters → meridianOf letters = some pm →
        (parsetime s).1 = .none →
          narrowedTime pm (nums.map valueOf) = timeOf pm (nums.map valueOf) := by
      intro nums letters pm htext hpm hnone
      obtain ⟨hone, hp, hex⟩ := (parsetime_text htext (letters_iff.1 hpm)).1.1 hnone
      by_contra hne
      exact hslip ⟨nums, letters, pm, htext, hpm, .inr ⟨hone, hp, hne, hex⟩⟩
    refine ⟨⟨fun hnone => ?_, ?_⟩, fun nums letters pm htext hpm hnone => ?_⟩
    · obtain ⟨nums, letters, pm, htext, hl⟩ := parsetime_sound hnone
      have hpm := letters_iff.2 hl
      have hex := ((parsetime_text htext hl).1.1 hnone).2.2
      rw [hexact nums letters pm htext hpm hnone] at hex
      exact ⟨nums, letters, pm, htext, hpm, (passes_of_time htext hex).1, hex⟩
    · rintro ⟨nums, letters, pm, htext, hpm, -, hex⟩
      refine (parsetime_text htext (letters_iff.1 hpm)).1.2
        ⟨fun hone => hslip ⟨nums, letters, pm, htext, hpm, .inl ⟨hone, hex⟩⟩,
          (passes_of_time htext hex).2, ?_⟩
      rw [narrowed_of_time hex]
      exact hex
    · have hvalue := (parsetime_text htext (letters_iff.1 hpm)).2 hnone
      rw [hexact nums letters pm htext hpm hnone] at hvalue
      exact hvalue

end time

/-- **`parsedate` and `parsetime`** do what they are to do, for every text, unless they accept a
reduced number or the time has a letter alone. -/
theorem parse_iff (fmt : DateFmt) (today : DosDate) (s : Str) :
    (ParsesDate fmt today s ↔ ¬ DateSlips fmt today s) ∧ (ParsesTime s ↔ ¬ TimeSlips s) :=
  ⟨parsesDate_iff, parsesTime_iff⟩

/-- The 285th of February 2024 is taken for the 29th. -/
theorem large_day_accepted : ¬ ((∀ fmt today s, ParsesDate fmt today s) ∧ ∀ s, ParsesTime s) := by
  rintro ⟨hdate, -⟩
  have hmonth : Digits [50] := by simp [Digits, isdigit]
  have hday : Digits [50, 56, 53] := by simp [Digits, isdigit]
  have hyear : Digits [50, 52] := by simp [Digits, isdigit]
  have hslash : ispunct 47 = true := by decide
  -- the text is 2/285/24
  have hbody : NumList 3 [50, 47, 50, 56, 53, 47, 50, 52] [[50], [50, 56, 53], [50, 52]] :=
    .cons hmonth hslash (.cons hday hslash (.last hyear))
  have hblank : Blank [] := by simp [Blank]
  have hstored := (hdate .mdy ⟨5, 6, 2024, 3⟩ [50, 47, 50, 56, 53, 47, 50, 52]).2 _ ⟨24, 2, 285⟩
    ⟨[], _, [], rfl, hblank, hbody, hblank⟩ rfl (by decide)
  have hdays := congrArg (Option.map Ymd.day) hstored
  exact absurd hdays (by decide)

/-- `11:30 p` is not accepted. -/
example : (parsetime [49, 49, 58, 51, 48, 32, 112]).1 = .syntaxError := by decide

end Dates
end BurdahDos
