import BurdahDos.Dates.Defs
import Mathlib

/-!
# What `parsenum` takes as numbers

`NumList` is the grammar in the comment of `parsenum`: numbers that are separated by single
punctuation characters, and one more such character behind fewer numbers than there may be.  The
values are those of an `int`, and the bound is tested in front of a digit.

* `numLoop_append`: what is done with numbers of the grammar.
* `numLoop_sound`: only such numbers are taken.
-/

set_option autoImplicit false

namespace BurdahDos
namespace Dates

/-! ## Digits -/

/-- The number that digits continue. -/
def valueFrom (n : ℕ) (ds : Str) : ℕ := ds.foldl (fun n c => n * 10 + (c.toNat - 48)) n

/-- The value of digits. -/
def valueOf (ds : Str) : ℕ := valueFrom 0 ds

/-- In front of each digit, the number is below 10000 as an `int`. -/
def PassesFrom : ℕ → Str → Prop
  | _, [] => True
  | n, c :: ds => int16 n < 10000 ∧ PassesFrom (n * 10 + (c.toNat - 48)) ds

def Passes (ds : Str) : Prop := PassesFrom 0 ds

/-- A number. -/
def Digits (ds : Str) : Prop := ds ≠ [] ∧ ∀ c ∈ ds, isdigit c = true

theorem le_valueFrom (n : ℕ) (ds : Str) : n ≤ valueFrom n ds := by
  induction ds generalizing n with
  | nil => exact le_rfl
  | cons c ds ih =>
    have := ih (n * 10 + (c.toNat - 48))
    rw [valueFrom, List.foldl_cons, ← valueFrom]
    omega

theorem passesFrom_of_le {n : ℕ} {ds : Str} (h : valueFrom n ds ≤ 9999) : PassesFrom n ds := by
  induction ds generalizing n with
  | nil => trivial
  | cons c ds ih =>
    have hn := le_valueFrom n (c :: ds)
    refine ⟨?_, ih h⟩
    rw [int16_eq (by omega) (by omega)]
    omega

theorem passes_of_le {ds : Str} (h : valueOf ds ≤ 9999) : Passes ds := passesFrom_of_le h

/-- What is behind a number does not begin with a digit. -/
theorem scanNumber_append {ds rest : Str} (hds : ∀ c ∈ ds, isdigit c = true)
    (hrest : ∀ c, rest.head? = some c → isdigit c = false) (n : ℕ) (r : ℤ × Str) :
    scanNumber (int16 n) (ds ++ rest) = some r ↔
      PassesFrom n ds ∧ r = (int16 (valueFrom n ds), rest) := by
  induction ds generalizing n with
  | nil =>
    have hscan : scanNumber (int16 n) rest = some (int16 n, rest) := by
      cases rest with
      | nil => rfl
      | cons c rest => rw [scanNumber, if_neg (by rw [hrest c rfl]; simp)]
    rw [List.nil_append, hscan, Option.some_inj, eq_comm]
    exact ⟨fun h => ⟨trivial, h⟩, fun h => h.2⟩
  | cons c ds ih =>
    have hc := hds c List.mem_cons_self
    have hcast : ((n : ℤ) * 10 + ((c.toNat : ℤ) - 48)) = ((n * 10 + (c.toNat - 48) : ℕ) : ℤ) := by
      simp only [isdigit, Bool.and_eq_true, decide_eq_true_eq] at hc
      omega
    rw [List.cons_append, scanNumber, if_pos hc, PassesFrom]
    by_cases hn : 10000 ≤ int16 n
    · rw [if_pos hn]
      exact ⟨fun h => absurd h (by simp), fun h => absurd h.1.1 (Int.not_lt.2 hn)⟩
    · rw [if_neg hn, int16_add_mul, hcast, ih (fun d hd => hds d (List.mem_cons_of_mem c hd)),
        and_assoc]
      exact ⟨fun h => ⟨Int.not_le.1 hn, h⟩, fun h => h.2⟩

/-! ## Numbers -/

/-- Up to `max` numbers. -/
inductive NumList : ℕ → Str → List Str → Prop
  | last {max : ℕ} {ds : Str} (h : Digits ds) : NumList (max + 1) ds [ds]
  | trailing {max : ℕ} {ds : Str} {c : UInt8} (h : Digits ds) (hc : ispunct c = true) :
      NumList (max + 2) (ds ++ [c]) [ds]
  | cons {max : ℕ} {ds rest : Str} {c : UInt8} {nums : List Str} (h : Digits ds)
      (hc : ispunct c = true) (hrest : NumList (max + 1) rest nums) :
      NumList (max + 2) (ds ++ c :: rest) (ds :: nums)

/-- The numbers as `parsenum` stores them. -/
def stored (nums : List Str) : List ℤ := nums.map fun ds => int16 (valueOf ds)

theorem not_isdigit_of_ispunct {c : UInt8} (h : ispunct c = true) : isdigit c = false := by
  simp only [ispunct, Bool.or_eq_true, Bool.and_eq_true, decide_eq_true_eq] at h
  simp only [isdigit, Bool.and_eq_false_iff, decide_eq_false_iff_not]
  omega

theorem head_digits {ds : Str} (h : Digits ds) (rest : Str) :
    ((ds ++ rest).head?.map isdigit).getD false = true := by
  obtain ⟨hne, hds⟩ := h
  cases ds with
  | nil => exact absurd rfl hne
  | cons c ds => exact hds c List.mem_cons_self

/-- The character behind numbers is neither a digit nor punctuation. -/
def Behind (rest : Str) : Prop :=
  ∀ c, rest.head? = some c → isdigit c = false ∧ ispunct c = false

theorem scan_passes {ds rest : Str} (h : Digits ds) (hp : Passes ds)
    (hrest : ∀ c, rest.head? = some c → isdigit c = false) :
    scanNumber 0 (ds ++ rest) = some (int16 (valueOf ds), rest) :=
  (scanNumber_append h.2 hrest 0 _).2 ⟨hp, rfl⟩

theorem scan_fails {ds rest : Str} (h : Digits ds) (hp : ¬ Passes ds)
    (hrest : ∀ c, rest.head? = some c → isdigit c = false) :
    scanNumber 0 (ds ++ rest) = none := by
  cases hscan : scanNumber 0 (ds ++ rest) with
  | none => rfl
  | some r => exact absurd ((scanNumber_append h.2 hrest 0 r).1 hscan).1 hp

theorem numLoop_nondigit {rest : Str} (h : ∀ c, rest.head? = some c → isdigit c = false) (max : ℕ) :
    numLoop max rest = some ([], rest) := by
  cases max with
  | zero => rfl
  | succ max =>
    cases rest with
    | nil => rfl
    | cons c rest =>
      rw [numLoop, if_neg]
      simp [h c rfl]

theorem numLoop_one {ds rest : Str} (h : Digits ds) (hrest : Behind rest) (max : ℕ)
    (r : List ℤ × Str) : numLoop (max + 1) (ds ++ rest) = some r ↔
      Passes ds ∧ r = ([int16 (valueOf ds)], rest) := by
  have hdigit : ∀ c, rest.head? = some c → isdigit c = false := fun c hc => (hrest c hc).1
  rw [numLoop, if_pos (head_digits h rest)]
  by_cases hp : Passes ds
  · rw [scan_passes h hp hdigit]
    cases rest with
    | nil =>
      simp only [Option.some_inj]
      exact ⟨fun hr => ⟨hp, hr.symm⟩, fun hr => hr.2.symm⟩
    | cons c rest =>
      have hc : ¬ (ispunct c = true ∧ max ≠ 0) := fun hc => by simp [(hrest c rfl).2] at hc
      simp only [if_neg hc, Option.some_inj]
      exact ⟨fun hr => ⟨hp, hr.symm⟩, fun hr => hr.2.symm⟩
  · rw [scan_fails h hp hdigit]
    exact ⟨fun hr => absurd hr (by simp), fun hr => absurd hr.1 hp⟩

theorem numLoop_punct {ds rest : Str} {c : UInt8} (h : Digits ds) (hc : ispunct c = true) (max : ℕ)
    (r : List ℤ × Str) : numLoop (max + 2) (ds ++ c :: rest) = some r ↔
      Passes ds ∧ ∃ q, numLoop (max + 1) rest = some q ∧ r = (int16 (valueOf ds) :: q.1, q.2) := by
  have hdigit : ∀ d, (c :: rest).head? = some d → isdigit d = false := by
    intro d hd
    exact not_isdigit_of_ispunct (Option.some.inj hd ▸ hc)
  have hcond : ispunct c = true ∧ max + 1 ≠ 0 := ⟨hc, Nat.succ_ne_zero max⟩
  rw [numLoop, if_pos (head_digits h _)]
  by_cases hp : Passes ds
  · rw [scan_passes h hp hdigit]
    simp only [if_pos hcond, Option.map_eq_some_iff]
    exact ⟨fun ⟨q, hq, hr⟩ => ⟨hp, q, hq, hr.symm⟩, fun ⟨_, q, hq, hr⟩ => ⟨q, hq, hr.symm⟩⟩
  · rw [scan_fails h hp hdigit]
    exact ⟨fun hr => absurd hr (by simp), fun hr => absurd hr.1 hp⟩

/-- **Numbers of the grammar** are taken if they all pass the bound. -/
theorem numLoop_append {max : ℕ} {body : Str} {nums : List Str} (h : NumList max body nums)
    {rest : Str} (hrest : Behind rest) (r : List ℤ × Str) :
    numLoop max (body ++ rest) = some r ↔
      (∀ ds ∈ nums, Passes ds) ∧ r = (stored nums, rest) := by
  induction h generalizing r with
  | last h => rw [numLoop_one h hrest, List.forall_mem_singleton]; rfl
  | @trailing max ds c h hc =>
    rw [List.append_assoc, List.singleton_append, numLoop_punct h hc,
      numLoop_nondigit fun d hd => (hrest d hd).1, List.forall_mem_singleton]
    simp [stored]
  | @cons max ds body c nums h hc hbody ih =>
    rw [List.append_assoc, List.cons_append, numLoop_punct h hc, List.forall_mem_cons, and_assoc]
    refine and_congr_right fun _ => ⟨fun ⟨q, hq, hr⟩ => ?_, fun ⟨hp, hr⟩ => ?_⟩
    · obtain ⟨hp, rfl⟩ := (ih q).1 hq
      exact ⟨hp, hr⟩
    · exact ⟨_, (ih _).2 ⟨hp, rfl⟩, hr⟩

/-- The digits at the beginning. -/
theorem split_digits (s : Str) : ∃ ds rest, s = ds ++ rest ∧ (∀ c ∈ ds, isdigit c = true) ∧
    ∀ c, rest.head? = some c → isdigit c = false := by
  refine ⟨s.takeWhile isdigit, s.dropWhile isdigit, List.takeWhile_append_dropWhile.symm,
    fun c hc => List.mem_takeWhile_imp hc, fun c hc => ?_⟩
  have := List.head?_dropWhile_not isdigit s
  rw [hc] at this
  simpa using this

/-- A digit makes a number. -/
theorem numLoop_nil {max : ℕ} {s rest : Str} (h : numLoop max s = some ([], rest)) : rest = s := by
  cases max with
  | zero => exact (Prod.mk.inj (Option.some.inj h)).2.symm
  | succ max =>
    rw [numLoop] at h
    split at h
    next =>
      split at h
      next => exact absurd h (by simp)
      next => exact absurd h (by simp)
      next =>
        split at h
        next =>
          obtain ⟨q, -, hq⟩ := Option.map_eq_some_iff.1 h
          exact absurd hq (by simp)
        next => exact absurd h (by simp)
    next => exact (Prod.mk.inj (Option.some.inj h)).2.symm

/-- **Only numbers of the grammar** are taken. -/
theorem numLoop_sound {max : ℕ} {s : Str} {r : List ℤ × Str} (h : numLoop max s = some r)
    (hne : r.1 ≠ []) : ∃ body nums, s = body ++ r.2 ∧ NumList max body nums := by
  induction max generalizing s r with
  | zero =>
    rw [numLoop, Option.some_inj] at h
    exact absurd (congrArg Prod.fst h).symm hne
  | succ max ih =>
    obtain ⟨ds, rest, rfl, hds, hrest⟩ := split_digits s
    cases ds with
    | nil =>
      rw [List.nil_append, numLoop_nondigit hrest, Option.some_inj] at h
      exact absurd (congrArg Prod.fst h).symm hne
    | cons d ds =>
      have hdigits : Digits (d :: ds) := ⟨List.cons_ne_nil d ds, hds⟩
      rw [numLoop, if_pos (head_digits hdigits rest)] at h
      by_cases hp : Passes (d :: ds)
      · rw [scan_passes hdigits hp hrest] at h
        cases rest with
        | nil =>
          rw [← Option.some.inj h]
          exact ⟨d :: ds, [d :: ds], rfl, .last hdigits⟩
        | cons c rest =>
          simp only at h
          split at h
          next hc =>
            obtain ⟨max, rfl⟩ : ∃ k, max = k + 1 := ⟨max - 1, by have := hc.2; omega⟩
            obtain ⟨q, hq, rfl⟩ := Option.map_eq_some_iff.1 h
            obtain ⟨vs, tail⟩ := q
            cases vs with
            | nil =>
              obtain rfl := numLoop_nil hq
              exact ⟨(d :: ds) ++ [c], [d :: ds], by simp, .trailing hdigits hc.1⟩
            | cons v vs =>
              obtain ⟨body, nums, hbody, hnums⟩ := ih hq (List.cons_ne_nil v vs)
              exact ⟨(d :: ds) ++ c :: body, (d :: ds) :: nums, by simp [hbody],
                .cons hdigits hc.1 hnums⟩
          next =>
            rw [← Option.some.inj h]
            exact ⟨d :: ds, [d :: ds], rfl, .last hdigits⟩
      · rw [scan_fails hdigits hp hrest] at h
        exact absurd h (by simp)

/-! ## Blanks -/

def Blank (s : Str) : Prop := ∀ c ∈ s, isspace c = true

theorem ltrimsp_eq_nil {s : Str} : ltrimsp s = [] ↔ Blank s := List.dropWhile_eq_nil_iff

theorem ltrimsp_append {pre s : Str} (hpre : Blank pre)
    (hs : ∀ c, s.head? = some c → isspace c = false) : ltrimsp (pre ++ s) = s := by
  induction pre with
  | nil =>
    cases s with
    | nil => rfl
    | cons c s => exact List.dropWhile_cons_of_neg (by simp [hs c rfl])
  | cons c pre ih =>
    rw [List.cons_append, ltrimsp, List.dropWhile_cons_of_pos (hpre c List.mem_cons_self)]
    exact ih fun d hd => hpre d (List.mem_cons_of_mem c hd)

theorem split_blanks (s : Str) : ∃ pre, Blank pre ∧ s = pre ++ ltrimsp s :=
  ⟨s.takeWhile isspace, fun _ hc => List.mem_takeWhile_imp hc,
    List.takeWhile_append_dropWhile.symm⟩

theorem not_isspace_of_isdigit {c : UInt8} (h : isdigit c = true) : isspace c = false := by
  simp only [isdigit, Bool.and_eq_true, decide_eq_true_eq] at h
  simp only [isspace, Bool.or_eq_false_iff, Bool.and_eq_false_iff, decide_eq_false_iff_not,
    beq_eq_false_iff_ne]
  omega

theorem behind_of_isspace {c : UInt8} (h : isspace c = true) :
    isdigit c = false ∧ ispunct c = false := by
  simp only [isspace, Bool.or_eq_true, Bool.and_eq_true, decide_eq_true_eq, beq_iff_eq] at h
  simp only [isdigit, ispunct, Bool.or_eq_false_iff, Bool.and_eq_false_iff, decide_eq_false_iff_not]
  omega

theorem Blank.behind {s : Str} (h : Blank s) : Behind s := by
  cases s with
  | nil => exact fun c hc => absurd hc (by simp)
  | cons d s =>
    intro c hc
    obtain rfl : d = c := Option.some.inj hc
    exact behind_of_isspace (h d List.mem_cons_self)

theorem NumList.ne_nil {max : ℕ} {body : Str} {nums : List Str} (h : NumList max body nums) :
    nums ≠ [] := by
  cases h <;> simp

theorem NumList.length_le {max : ℕ} {body : Str} {nums : List Str} (h : NumList max body nums) :
    nums.length ≤ max := by
  induction h with
  | last => simp
  | trailing => simp
  | cons _ _ _ ih => simpa using ih

theorem NumList.head {max : ℕ} {body : Str} {nums : List Str} (h : NumList max body nums)
    (rest : Str) : ∀ c, (body ++ rest).head? = some c → isspace c = false := by
  have hdigits : ∀ {ds : Str}, Digits ds → ∀ t c, (ds ++ t).head? = some c → isspace c = false := by
    intro ds hds t c hc
    have := head_digits hds t
    rw [hc] at this
    exact not_isspace_of_isdigit this
  cases h with
  | last h => exact hdigits h rest
  | trailing h => rw [List.append_assoc]; exact hdigits h _
  | cons h => rw [List.append_assoc]; exact hdigits h _

/-- Blanks in front of numbers do not matter. -/
theorem parsenum_append {max : ℕ} {pre body rest : Str} {nums : List Str} (hpre : Blank pre)
    (h : NumList max body nums) (hrest : Behind rest) (r : List ℤ × Str) :
    parsenum (pre ++ (body ++ rest)) max = some r ↔
      (∀ ds ∈ nums, Passes ds) ∧ r = (stored nums, ltrimsp rest) := by
  rw [parsenum, ltrimsp_append hpre (h.head rest), Option.map_eq_some_iff]
  constructor
  · rintro ⟨q, hq, rfl⟩
    obtain ⟨hp, rfl⟩ := (numLoop_append h hrest q).1 hq
    exact ⟨hp, rfl⟩
  · rintro ⟨hp, rfl⟩
    exact ⟨_, (numLoop_append h hrest _).2 ⟨hp, rfl⟩, rfl⟩

theorem parsenum_sound {max : ℕ} {s : Str} {r : List ℤ × Str} (h : parsenum s max = some r)
    (hne : r.1 ≠ []) : ∃ pre body rest nums, s = pre ++ (body ++ rest) ∧ Blank pre ∧
      NumList max body nums ∧ r.2 = ltrimsp rest := by
  obtain ⟨q, hq, rfl⟩ := Option.map_eq_some_iff.1 h
  obtain ⟨body, nums, hs, hnums⟩ := numLoop_sound hq hne
  obtain ⟨pre, hpre, hsplit⟩ := split_blanks s
  rw [hs] at hsplit
  exact ⟨pre, body, q.2, nums, hsplit, hpre, hnums, rfl⟩

end Dates
end BurdahDos
