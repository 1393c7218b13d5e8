import BurdahDos.Listing.Defs
import Mathlib

/-!
# The numbers of bytes

DIR adds up the sizes of the files in two parts, below and above 10⁹, and `convert` prints them
with separators.  `Tree.sums` are the sums that it is to print for the directories.

* `bignumAdd_spec`: the parts stay within their bounds, and their value is the sum.
* `convert_iff`: the text of a number is right, unless only the lower part is 0.
* `dirPrintBody_iff`: the texts that DIR prints are those of the sums if and only if none of them is
  a multiple of 10⁹ other than 0.  The sums are right in any case, and the texts fit.
-/

set_option autoImplicit false

namespace BurdahDos
namespace Listing

/-! ## What is to be printed -/

/-- Digits with a separator behind each three of them, both from the right. -/
def separate (sep : UInt8) : Str → Str
  | a :: b :: c :: d :: s => a :: b :: c :: sep :: separate sep (d :: s)
  | s => s

/-- The character of a digit. -/
def digitChar (d : ℕ) : UInt8 := UInt8.ofNat (d + 48)

/-- A number in threes. -/
def grouped (sep : UInt8) (n : ℕ) : Str :=
  (separate sep (if n = 0 then [48] else (Nat.digits 10 n).map digitChar)).reverse

/-- The files of a directory that are listed. -/
def Options.files (o : Options) (found : List Ffblk) : List Ffblk :=
  (found.filter o.listed).filter fun f => !f.isDir

/-- Their sizes. -/
def Options.bytes (o : Options) (found : List Ffblk) : ℕ :=
  ((o.files found).map fun f => f.fsize.toNat).sum

/-- The number of files, as an `unsigned long`. -/
def Options.number (o : Options) (found : List Ffblk) : ℕ := (o.files found).length % 2 ^ 32

/-- There is something to print a summary of. -/
def Options.any (o : Options) (found : List Ffblk) : Prop :=
  o.number found ≠ 0 ∨ ((found.filter o.listed).filter Ffblk.isDir).length % 2 ^ 32 ≠ 0

instance (o : Options) (found : List Ffblk) : Decidable (o.any found) :=
  inferInstanceAs (Decidable (_ ∨ _))

mutual

/-- The bytes of a tree. -/
def Tree.total (o : Options) : Tree → ℕ
  | .node found subs => o.bytes found + if o.optS then totals o subs else 0

def totals (o : Options) : List Tree → ℕ
  | [] => 0
  | t :: ts => t.total o + totals o ts

end

mutual

/-- The number of files of a tree. -/
def Tree.number (o : Options) : Tree → ℕ
  | .node found subs => (o.number found + if o.optS then numbers o subs else 0) % 2 ^ 32

def numbers (o : Options) : List Tree → ℕ
  | [] => 0
  | t :: ts => t.number o + numbers o ts

end

mutual

/-- The number of files and that of bytes for each directory in which something is found. -/
def Tree.sums (o : Options) : Tree → List (ℕ × ℕ)
  | .node found subs =>
    (if o.any found then [(o.number found, o.bytes found)] else []) ++
      if o.optS then sumsOf o subs else []

def sumsOf (o : Options) : List Tree → List (ℕ × ℕ)
  | [] => []
  | t :: ts => t.sums o ++ sumsOf o ts

end

/-- The numbers that are to be printed, with the total. -/
def Tree.printed (o : Options) (t : Tree) : List (ℕ × ℕ) :=
  if o.optB then []
  else t.sums o ++ if o.optS ∧ t.number o ≠ 0 then [(t.number o, t.total o)] else []

/-- The numbers in a line. -/
def Line.numbers : Line → Option (Option Str × Option Str)
  | .summary files bytes => some (files, bytes)
  | .total files bytes => some (files, bytes)
  | _ => none

/-! ## Numbers in two parts -/

def Bignum.value (b : Bignum) : ℕ := b.billions * 10 ^ 9 + b.low

/-- The lower part is below 10⁹, and the upper part is an `unsigned`. -/
def Bignum.Ok (b : Bignum) : Prop := b.low < 10 ^ 9 ∧ b.billions < 2 ^ 16

theorem bignumAdd_spec {a b : Bignum} (ha : a.Ok) (hb : b.Ok)
    (h : a.value + b.value < 65536 * 10 ^ 9) :
    (bignumAdd a b).Ok ∧ (bignumAdd a b).value = a.value + b.value := by
  obtain ⟨ha, ha'⟩ := ha
  obtain ⟨hb, hb'⟩ := hb
  simp only [Bignum.value] at h
  have hbillions : a.billions + b.billions < 2 ^ 16 := by omega
  have hlow : (a.low + b.low) % 2 ^ 32 = a.low + b.low := Nat.mod_eq_of_lt (by omega)
  simp only [bignumAdd, hlow, Nat.mod_eq_of_lt hbillions]
  split
  next hcarry =>
    have hnext : a.billions + b.billions + 1 < 2 ^ 16 := by omega
    rw [Nat.mod_eq_of_lt hnext]
    refine ⟨⟨?_, hnext⟩, ?_⟩
    · simp only
      omega
    · simp only [Bignum.value]
      omega
  next hcarry =>
    refine ⟨⟨by simp only; omega, hbillions⟩, ?_⟩
    simp only [Bignum.value]
    omega

theorem fileBignum_spec (f : Ffblk) : f.bignum.Ok ∧ f.bignum.value = f.fsize.toNat := by
  have hlt := f.fsize.toNat_lt
  refine ⟨⟨Nat.mod_lt _ (by norm_num), ?_⟩, ?_⟩
  · simp only [Ffblk.bignum]
    omega
  · simp only [Ffblk.bignum, Bignum.value]
    omega

/-! ## Digits -/

theorem separate_length (sep : UInt8) : ∀ s : Str,
    (separate sep s).length = s.length + (s.length - 1) / 3
  | a :: b :: c :: d :: s => by
    have ih := separate_length sep (d :: s)
    simp only [separate, List.length_cons] at ih ⊢
    omega
  | [] => rfl
  | [_] => by simp [separate]
  | [_, _] => by simp [separate]
  | [_, _, _] => by simp [separate]

/-- One digit more: there is a separator behind each three of them. -/
theorem separate_concat (sep e : UInt8) : ∀ s : Str,
    separate sep (s ++ [e]) =
      (if ((separate sep s).length + 1) % 4 = 0 then separate sep s ++ [sep] else separate sep s) ++
        [e]
  | a :: b :: c :: d :: s => by
    have ih := separate_concat sep e (d :: s)
    have hmod : (a :: b :: c :: sep :: separate sep (d :: s)).length + 1 =
        ((separate sep (d :: s)).length + 1) + 4 := by simp only [List.length_cons]
    simp only [List.cons_append] at ih
    simp only [List.cons_append, separate, hmod, Nat.add_mod_right, ih]
    split <;> rfl
  | [] => rfl
  | [_] => rfl
  | [_, _] => rfl
  | [_, _, _] => by simp [separate]

/-- What a turn of the loop of `convert` leaves in `temp`. -/
theorem convertLoop_step (sep : UInt8) {ds : Str} (hroom : ds.length < 23)
    (fuel num billions : ℕ) {r : ℕ × ℕ}
    (hr : (if ds.length = 8 ∧ num / 10 = 0 then (billions, 0) else (num / 10, billions)) = r) :
    convertLoop sep (fuel + 1) num billions (separate sep ds) =
      if r.1 ≠ 0 ∨ r.2 ≠ 0 then
        convertLoop sep fuel r.1 r.2 (separate sep (ds ++ [digitChar (num % 10)]))
      else some (separate sep (ds ++ [digitChar (num % 10)])) := by
  have hlen := separate_length sep (ds ++ [digitChar (num % 10)])
  rw [List.length_append, List.length_singleton] at hlen
  -- the 9th digit is the last one of the lower part
  have hnine : (separate sep (ds ++ [digitChar (num % 10)])).length = 11 ↔ ds.length = 8 := by
    omega
  have hfits : ¬ 31 < (separate sep (ds ++ [digitChar (num % 10)])).length := by omega
  have htemp := separate_concat sep (digitChar (num % 10)) ds
  simp only [convertLoop]
  rw [← digitChar, ← htemp, if_neg hfits]
  simp only [hnine, hr]

/-- The digits of a number without an upper part. -/
theorem convertLoop_single (sep : UInt8) {m fuel num : ℕ} {ds : Str} (hm : num < 10 ^ m)
    (hpos : 0 < num) (hroom : ds.length + m ≤ 23) (hfuel : m ≤ fuel) :
    convertLoop sep fuel num 0 (separate sep ds) =
      some (separate sep (ds ++ (Nat.digits 10 num).map digitChar)) := by
  induction m generalizing fuel num ds with
  | zero => omega
  | succ m ih =>
    obtain ⟨fuel, rfl⟩ : ∃ k, fuel = k + 1 := ⟨fuel - 1, by omega⟩
    have hlast : (if ds.length = 8 ∧ num / 10 = 0 then ((0, 0) : ℕ × ℕ) else (num / 10, 0)) =
        (num / 10, 0) := by
      split
      next h => rw [h.2]
      next => rfl
    rw [convertLoop_step sep (by omega) fuel num 0 hlast, Nat.digits_def' (by norm_num) hpos,
      List.map_cons]
    simp only [ne_eq, not_true_eq_false, or_false]
    by_cases hzero : num / 10 = 0
    · rw [if_neg (not_not.2 hzero), hzero, Nat.digits_zero, List.map_nil]
    · have hlt : num / 10 < 10 ^ m := Nat.div_lt_of_lt_mul (by rwa [pow_succ, mul_comm] at hm)
      rw [if_pos hzero, ih hlt (Nat.pos_of_ne_zero hzero) (by simp; omega) (by omega),
        List.append_assoc, List.singleton_append]

/-- The digits of the lower part come first, with zeros, and then those of the upper one. -/
theorem convertLoop_parts (sep : UInt8) {j fuel num billions : ℕ} {ds : Str}
    (hlen : ds.length + j = 8) (hnum : num < 10 ^ (j + 1)) (hpos : 0 < billions)
    (hbillions : billions < 2 ^ 16) (hfuel : j + 6 ≤ fuel) :
    convertLoop sep fuel num billions (separate sep ds) =
      some (separate sep (ds ++
        (Nat.digits 10 (num + billions * 10 ^ (j + 1))).map digitChar)) := by
  induction j generalizing fuel num ds with
  | zero =>
    obtain ⟨fuel, rfl⟩ : ∃ k, fuel = k + 1 := ⟨fuel - 1, by omega⟩
    have hzero : num / 10 = 0 := by omega
    have hmod : (num + billions * 10 ^ (0 + 1)) % 10 = num % 10 := by omega
    have hdiv : (num + billions * 10 ^ (0 + 1)) / 10 = billions := by omega
    rw [convertLoop_step sep (by omega) fuel num billions (if_pos ⟨by omega, hzero⟩),
      Nat.digits_def' (by norm_num) (by omega), List.map_cons, hmod, hdiv,
      if_pos (.inl hpos.ne'), convertLoop_single sep (m := 5) (by omega) hpos (by simp; omega)
        (by omega), List.append_assoc, List.singleton_append]
  | succ j ih =>
    obtain ⟨fuel, rfl⟩ : ∃ k, fuel = k + 1 := ⟨fuel - 1, by omega⟩
    have hpow : billions * 10 ^ (j + 1 + 1) = 10 * (billions * 10 ^ (j + 1)) := by ring
    have hupper : 0 < billions * 10 ^ (j + 1) := Nat.mul_pos hpos (by positivity)
    have hmod : (num + billions * 10 ^ (j + 1 + 1)) % 10 = num % 10 := by omega
    have hdiv : (num + billions * 10 ^ (j + 1 + 1)) / 10 =
        num / 10 + billions * 10 ^ (j + 1) := by omega
    have hlt : num / 10 < 10 ^ (j + 1) :=
      Nat.div_lt_of_lt_mul (by rwa [pow_succ, mul_comm] at hnum)
    rw [convertLoop_step sep (by omega) fuel num billions (if_neg (by omega)),
      Nat.digits_def' (by norm_num) (by omega), List.map_cons, hmod, hdiv,
      if_pos (.inr hpos.ne'), ih (by simp; omega) hlt (by omega), List.append_assoc,
      List.singleton_append]

theorem digitChar_ne_zero {d : ℕ} (hd : d < 10) : digitChar d ≠ 0 := by
  have : ∀ d : Fin 10, digitChar d ≠ 0 := by decide
  exact this ⟨d, hd⟩

theorem mem_separate {sep c : UInt8} : ∀ {s : Str}, c ∈ separate sep s → c = sep ∨ c ∈ s
  | a :: b :: e :: d :: s, h => by
    rw [separate, List.mem_cons, List.mem_cons, List.mem_cons, List.mem_cons] at h
    rcases h with rfl | rfl | rfl | rfl | h
    · exact .inr (by simp)
    · exact .inr (by simp)
    · exact .inr (by simp)
    · exact .inl rfl
    · rcases mem_separate h with h | h
      · exact .inl h
      · exact .inr (List.mem_cons_of_mem _ (List.mem_cons_of_mem _ (List.mem_cons_of_mem _ h)))
  | [], h => .inr h
  | [_], h => .inr h
  | [_, _], h => .inr h
  | [_, _, _], h => .inr h

/-- The text has no NUL, and fits into the buffer. -/
theorem convert_of_loop {sep : UInt8} (hsep : sep ≠ 0) {num billions n : ℕ} (hnum : num ≠ 0)
    (hn : n ≠ 0) (hlt : n < 10 ^ 14)
    (h : convertLoop sep 32 num billions (separate sep []) =
      some (separate sep ([] ++ (Nat.digits 10 n).map digitChar))) :
    convert sep num billions = some (grouped sep n) := by
  have hnil : separate sep [] = [] := rfl
  rw [hnil, List.nil_append] at h
  have hlen : (Nat.digits 10 n).length ≤ 14 := (Nat.digits_length_le_iff (by norm_num) n).2 hlt
  have hall : ∀ c ∈ (separate sep ((Nat.digits 10 n).map digitChar)).reverse, (c != 0) = true := by
    intro c hc
    rw [bne_iff_ne]
    rcases mem_separate (List.mem_reverse.1 hc) with rfl | hc
    · exact hsep
    · obtain ⟨d, hd, rfl⟩ := List.mem_map.1 hc
      exact digitChar_ne_zero (Nat.digits_lt_base (by norm_num) hd)
  have hfits : ¬ 32 < (separate sep ((Nat.digits 10 n).map digitChar)).reverse.length + 1 := by
    rw [List.length_reverse, separate_length, List.length_map]
    omega
  rw [convert, if_neg hnum, h]
  simp only [List.takeWhile_eq_self_iff.2 hall]
  rw [if_neg hfits, grouped, if_neg hn]

/-- `convert` prints a number unless its lower part is 0 and its upper part is not. -/
theorem convert_value {sep : UInt8} (hsep : sep ≠ 0) {b : Bignum} (hb : b.Ok)
    (h : b.low ≠ 0 ∨ b.billions = 0) :
    convert sep b.low b.billions = some (grouped sep b.value) := by
  obtain ⟨hlow, hbillions⟩ := hb
  by_cases hzero : b.low = 0
  · have hvalue : b.value = 0 := by
      rw [Bignum.value, hzero, h.resolve_left (not_not.2 hzero), Nat.zero_mul]
    rw [convert, if_pos hzero, hvalue]
    rfl
  · have hvalue : b.value = b.low + b.billions * 10 ^ (8 + 1) := by
      rw [Bignum.value]
      omega
    refine convert_of_loop hsep hzero (by omega) (by omega) ?_
    rcases Nat.eq_zero_or_pos b.billions with hnone | hpos
    · rw [hvalue, hnone, Nat.zero_mul, Nat.add_zero]
      exact @convertLoop_single sep 9 32 b.low [] hlow (Nat.pos_of_ne_zero hzero) (by simp)
        (by norm_num)
    · rw [hvalue]
      exact @convertLoop_parts sep 8 32 b.low b.billions [] (by simp) hlow hpos hbillions
        (by norm_num)

theorem grouped_ne {sep : UInt8} {n : ℕ} (hn : 10 ≤ n) : grouped sep n ≠ [48] := by
  intro h
  have hlen := congrArg List.length h
  have htwo : 1 < (Nat.digits 10 n).length := (Nat.lt_digits_length_iff (by norm_num) n).2 hn
  rw [grouped, if_neg (by omega), List.length_reverse, separate_length, List.length_map,
    List.length_singleton] at hlen
  omega

/-- **`convert` is right if and only if the number is no multiple of 10⁹**, other than 0. -/
theorem convert_iff {sep : UInt8} (hsep : sep ≠ 0) {b : Bignum} (hb : b.Ok) :
    convert sep b.low b.billions = some (grouped sep b.value) ↔
      ¬ (0 < b.value ∧ 10 ^ 9 ∣ b.value) := by
  have hlow := hb.1
  constructor
  · rintro h ⟨hpos, hdvd⟩
    rw [Bignum.value] at hpos hdvd
    have hzero : b.low = 0 := by omega
    rw [convert, if_pos hzero, Option.some.injEq] at h
    refine grouped_ne ?_ h.symm
    rw [Bignum.value]
    omega
  · intro h
    refine convert_value hsep hb ?_
    by_contra hno
    rw [not_or, not_not] at hno
    refine h ⟨?_, ?_⟩ <;> rw [Bignum.value] <;> omega

theorem convert_ne_none {sep : UInt8} (hsep : sep ≠ 0) {b : Bignum} (hb : b.Ok) :
    convert sep b.low b.billions ≠ none := by
  by_cases h : b.low ≠ 0 ∨ b.billions = 0
  · rw [convert_value hsep hb h]
    exact Option.some_ne_none _
  · rw [not_or, not_not] at h
    rw [convert, if_pos h.1]
    exact Option.some_ne_none _

/-- A number of files. -/
theorem convert_number {sep : UInt8} (hsep : sep ≠ 0) {n : ℕ} (hn : n < 2 ^ 32) :
    convert sep n 0 = some (grouped sep n) := by
  by_cases hzero : n = 0
  · rw [convert, if_pos hzero, hzero]
    rfl
  · refine convert_of_loop hsep hzero hzero (by omega) ?_
    exact @convertLoop_single sep 10 32 n [] (by omega) (Nat.pos_of_ne_zero hzero) (by simp)
      (by norm_num)

/-! ## A directory and those in it -/

variable {o : Options}

/-- The counts of a directory alone. -/
def Options.counts (o : Options) (found : List Ffblk) : Counts :=
  (found.filter o.listed).foldl Counts.count .zero

theorem count_bytes {fs : List Ffblk} {c : Counts} (hc : c.bytes.Ok)
    (h : c.bytes.value + ((fs.filter fun f => !f.isDir).map fun f => f.fsize.toNat).sum <
      65536 * 10 ^ 9) :
    (fs.foldl Counts.count c).bytes.Ok ∧ (fs.foldl Counts.count c).bytes.value =
      c.bytes.value + ((fs.filter fun f => !f.isDir).map fun f => f.fsize.toNat).sum := by
  induction fs generalizing c with
  | nil => exact ⟨hc, (Nat.add_zero _).symm⟩
  | cons f fs ih =>
    rw [List.foldl_cons]
    cases hdir : f.isDir with
    | true =>
      have hsame : (c.count f).bytes = c.bytes := by simp [Counts.count, hdir]
      have hskip : (f :: fs).filter (fun f => !f.isDir) = fs.filter fun f => !f.isDir := by
        simp [hdir]
      rw [hskip] at h ⊢
      rw [← hsame] at hc h ⊢
      exact ih hc h
    | false =>
      have hadd : (c.count f).bytes = bignumAdd c.bytes f.bignum := by simp [Counts.count, hdir]
      have htake : (f :: fs).filter (fun f => !f.isDir) = f :: fs.filter fun f => !f.isDir := by
        simp [hdir]
      obtain ⟨hok, hvalue⟩ := fileBignum_spec f
      rw [htake, List.map_cons, List.sum_cons] at h ⊢
      obtain ⟨hsum, hsumvalue⟩ := bignumAdd_spec hc hok (by omega)
      rw [← hadd, hvalue] at hsumvalue
      rw [← hadd] at hsum
      obtain ⟨hall, hallvalue⟩ := ih hsum (by omega)
      exact ⟨hall, by omega⟩

theorem count_numbers (fs : List Ffblk) (c : Counts) (hfiles : c.files < 2 ^ 32)
    (hdirs : c.dirs < 2 ^ 32) :
    (fs.foldl Counts.count c).files =
        (c.files + (fs.filter fun f => !f.isDir).length) % 2 ^ 32 ∧
      (fs.foldl Counts.count c).dirs = (c.dirs + (fs.filter Ffblk.isDir).length) % 2 ^ 32 := by
  induction fs generalizing c with
  | nil => exact ⟨(Nat.mod_eq_of_lt hfiles).symm, (Nat.mod_eq_of_lt hdirs).symm⟩
  | cons f fs ih =>
    have hmod : ∀ n : ℕ, n % 2 ^ 32 < 2 ^ 32 := fun n => Nat.mod_lt _ (by norm_num)
    rw [List.foldl_cons]
    cases hdir : f.isDir with
    | true =>
      obtain ⟨hf, hd⟩ := ih (c.count f) (by simpa [Counts.count, hdir] using hfiles)
        (by simpa [Counts.count, hdir] using hmod _)
      refine ⟨hf.trans ?_, hd.trans ?_⟩
      · simp [Counts.count, hdir]
      · simp [Counts.count, hdir, Nat.add_assoc, Nat.add_comm 1]
    | false =>
      obtain ⟨hf, hd⟩ := ih (c.count f) (by simpa [Counts.count, hdir] using hmod _)
        (by simpa [Counts.count, hdir] using hdirs)
      refine ⟨hf.trans ?_, hd.trans ?_⟩
      · simp [Counts.count, hdir, Nat.add_assoc, Nat.add_comm 1]
      · simp [Counts.count, hdir]

theorem zero_ok : Bignum.Ok ⟨0, 0⟩ := ⟨by norm_num, by norm_num⟩

theorem zero_value : Bignum.value ⟨0, 0⟩ = 0 := rfl

theorem counts_bytes (found : List Ffblk) (h : o.bytes found < 65536 * 10 ^ 9) :
    (o.counts found).bytes.Ok ∧ (o.counts found).bytes.value = o.bytes found := by
  have hspec := @count_bytes (found.filter o.listed) .zero zero_ok
  rw [Counts.zero, zero_value, Nat.zero_add] at hspec
  exact hspec h

theorem counts_files (found : List Ffblk) : (o.counts found).files = o.number found := by
  have hspec := (count_numbers (found.filter o.listed) .zero (by decide) (by decide)).1
  rw [Counts.zero, Nat.zero_add] at hspec
  exact hspec

theorem counts_any (found : List Ffblk) :
    ((o.counts found).files ≠ 0 ∨ (o.counts found).dirs ≠ 0) ↔ o.any found := by
  have hspec := (count_numbers (found.filter o.listed) .zero (by decide) (by decide)).2
  rw [Counts.zero, Nat.zero_add] at hspec
  rw [counts_files, Options.any, ← hspec]
  rfl

mutual

theorem dirList_bytes : ∀ t : Tree, t.total o < 65536 * 10 ^ 9 →
    (dirList o t).2.bytes.Ok ∧ (dirList o t).2.bytes.value = t.total o
  | .node found subs => by
    intro h
    rw [Tree.total] at h ⊢
    have hown := @counts_bytes o found (by omega)
    rw [dirList]
    split
    next hs =>
      rw [if_pos hs] at h
      have hsubs := dirLists_bytes subs (o.counts found) hown.1 (by rw [hown.2]; exact h)
      rw [hown.2] at hsubs
      exact hsubs
    next hs => exact hown

theorem dirLists_bytes : ∀ (ts : List Tree) (c : Counts), c.bytes.Ok →
    c.bytes.value + totals o ts < 65536 * 10 ^ 9 →
    (dirLists o ts c).2.bytes.Ok ∧
      (dirLists o ts c).2.bytes.value = c.bytes.value + totals o ts
  | [] => fun _ hc _ => ⟨hc, (Nat.add_zero _).symm⟩
  | t :: ts => by
    intro c hc h
    rw [totals] at h ⊢
    obtain ⟨hok, hvalue⟩ := dirList_bytes t (by omega)
    obtain ⟨hsum, hsumvalue⟩ := bignumAdd_spec hc hok (by omega)
    rw [hvalue] at hsumvalue
    obtain ⟨hrest, hrestvalue⟩ := dirLists_bytes ts (c.add (dirList o t).2) hsum
      (by simp only [Counts.add]; omega)
    rw [dirLists]
    refine ⟨hrest, hrestvalue.trans ?_⟩
    simp only [Counts.add]
    omega

end

mutual

theorem dirList_files : ∀ t : Tree, (dirList o t).2.files = t.number o
  | .node found subs => by
    have hown := @counts_files o found
    have hlt : o.number found < 2 ^ 32 := Nat.mod_lt _ (by norm_num)
    rw [dirList, Tree.number]
    split
    next hs =>
      have hsubs := dirLists_files subs (o.counts found) (by rw [hown]; exact hlt)
      rw [hown] at hsubs
      exact hsubs
    next hs =>
      rw [Nat.add_zero, Nat.mod_eq_of_lt hlt]
      exact hown

theorem dirLists_files : ∀ (ts : List Tree) (c : Counts), c.files < 2 ^ 32 →
    (dirLists o ts c).2.files = (c.files + numbers o ts) % 2 ^ 32
  | [] => fun _ hc => (Nat.mod_eq_of_lt hc).symm
  | t :: ts => by
    intro c hc
    have hrest := dirLists_files ts (c.add (dirList o t).2) (Nat.mod_lt _ (by norm_num))
    rw [dirLists, numbers]
    refine hrest.trans ?_
    simp only [Counts.add]
    rw [dirList_files t, Nat.mod_add_mod, Nat.add_assoc]

end

theorem Tree.number_lt (t : Tree) : t.number o < 2 ^ 32 := by
  cases t with
  | node found subs =>
    rw [Tree.number]
    exact Nat.mod_lt _ (by norm_num)

mutual

theorem mem_sums {p : ℕ × ℕ} : ∀ {t : Tree}, p ∈ t.sums o → p.1 < 2 ^ 32 ∧ p.2 ≤ t.total o
  | .node found subs, h => by
    rw [Tree.sums, List.mem_append] at h
    rw [Tree.total]
    rcases h with h | h
    · split at h
      next =>
        rw [List.mem_singleton.1 h]
        exact ⟨Nat.mod_lt _ (by norm_num), Nat.le_add_right _ _⟩
      next => cases h
    · split at h
      next hs =>
        obtain ⟨hlt, hle⟩ := mem_sumsOf h
        rw [if_pos hs]
        exact ⟨hlt, by omega⟩
      next => cases h

theorem mem_sumsOf {p : ℕ × ℕ} : ∀ {ts : List Tree},
    p ∈ sumsOf o ts → p.1 < 2 ^ 32 ∧ p.2 ≤ totals o ts
  | t :: ts, h => by
    rw [sumsOf, List.mem_append] at h
    rw [totals]
    rcases h with h | h
    · obtain ⟨hlt, hle⟩ := mem_sums h
      exact ⟨hlt, by omega⟩
    · obtain ⟨hlt, hle⟩ := mem_sumsOf h
      exact ⟨hlt, by omega⟩

end

theorem mem_printed {t : Tree} {p : ℕ × ℕ} (h : p ∈ t.printed o) :
    p.1 < 2 ^ 32 ∧ p.2 ≤ t.total o := by
  rw [Tree.printed] at h
  split at h
  next => cases h
  next =>
    rcases List.mem_append.1 h with h | h
    · exact mem_sums h
    · split at h
      next =>
        rw [List.mem_singleton.1 h]
        exact ⟨t.number_lt, le_rfl⟩
      next => cases h

/-! ## What is printed -/

/-- The texts of the numbers. -/
def texts (lines : List Line) : List (Option Str × Option Str) := lines.filterMap Line.numbers

/-- The texts of a number of files and a number of bytes. -/
def textOf (o : Options) (p : ℕ × ℕ) : Option Str × Option Str :=
  (convert o.sep p.1 0, convert o.sep (p.2 % 10 ^ 9) (p.2 / 10 ^ 9))

theorem texts_append (l m : List Line) : texts (l ++ m) = texts l ++ texts m :=
  List.filterMap_append

theorem textOf_eq {n : ℕ} {b : Bignum} (hb : b.Ok) :
    textOf o (n, b.value) = (convert o.sep n 0, convert o.sep b.low b.billions) := by
  have hlow := hb.1
  have hmod : b.value % 10 ^ 9 = b.low := by
    rw [Bignum.value]
    omega
  have hdiv : b.value / 10 ^ 9 = b.billions := by
    rw [Bignum.value]
    omega
  rw [textOf, hmod, hdiv]

theorem texts_flushOrder (fs : List Ffblk) : texts (flushOrder o fs) = [] := by
  simp [texts, flushOrder, Line.numbers]

theorem texts_display (array fs : List Ffblk) : texts (display o array fs) = [] := by
  induction fs generalizing array with
  | nil => exact texts_flushOrder array
  | cons f fs ih =>
    rw [display]
    split
    · rw [texts_append, texts_flushOrder, ih]
      rfl
    · exact ih _

theorem texts_entries (fs : List Ffblk) : texts (entries o fs) = [] := by
  rw [entries]
  split
  · exact texts_display [] fs
  · simp [texts, Line.numbers]

theorem texts_listed (found : List Ffblk) (h : o.bytes found < 65536 * 10 ^ 9) :
    texts (listed o (found.filter o.listed) (o.counts found)) =
      if o.optB then []
      else (if o.any found then [(o.number found, o.bytes found)] else []).map (textOf o) := by
  obtain ⟨hok, hvalue⟩ := counts_bytes found h
  rw [listed, texts_append, texts_entries, List.nil_append]
  simp only [counts_any]
  split
  next hany =>
    rw [printSummary]
    split
    · rfl
    · rw [← hvalue, List.map_singleton, textOf_eq hok, ← counts_files]
      rfl
  next hnone => split <;> split <;> rfl

mutual

theorem texts_dirList : ∀ t : Tree, t.total o < 65536 * 10 ^ 9 →
    texts (dirList o t).1 = if o.optB then [] else (t.sums o).map (textOf o)
  | .node found subs => by
    intro h
    rw [Tree.total] at h
    have hown := @counts_bytes o found (by omega)
    have hlisted := @texts_listed o found (by omega)
    rw [dirList, Tree.sums, List.map_append]
    by_cases hs : o.optS = true
    · rw [if_pos hs] at h
      have hsubs := texts_dirLists subs (o.counts found) hown.1 (by rw [hown.2]; exact h)
      simp only [if_pos hs, texts_append]
      rw [← Options.counts, hlisted, hsubs]
      split <;> rfl
    · simp only [if_neg hs, List.map_nil, List.append_nil]
      exact hlisted

theorem texts_dirLists : ∀ (ts : List Tree) (c : Counts), c.bytes.Ok →
    c.bytes.value + totals o ts < 65536 * 10 ^ 9 →
    texts (dirLists o ts c).1 = if o.optB then [] else (sumsOf o ts).map (textOf o)
  | [] => by
    intro c hc h
    rw [dirLists, sumsOf]
    split <;> rfl
  | t :: ts => by
    intro c hc h
    rw [totals] at h
    obtain ⟨hok, hvalue⟩ := @dirList_bytes o t (by omega)
    obtain ⟨hsum, hsumvalue⟩ := bignumAdd_spec hc hok (by omega)
    rw [hvalue] at hsumvalue
    have hrest := texts_dirLists ts (c.add (dirList o t).2) hsum
      (by simp only [Counts.add]; omega)
    rw [dirLists, texts_append, texts_dirList t (by omega), hrest, sumsOf, List.map_append]
    split <;> rfl

end

/-- The counts that the total is printed of. -/
theorem total_spec {t : Tree} (h : t.total o < 65536 * 10 ^ 9) :
    (Counts.add .zero (dirList o t).2).files = t.number o ∧
      (Counts.add .zero (dirList o t).2).bytes.Ok ∧
      (Counts.add .zero (dirList o t).2).bytes.value = t.total o := by
  obtain ⟨hok, hvalue⟩ := dirList_bytes t h
  obtain ⟨hsum, hsumvalue⟩ := bignumAdd_spec zero_ok hok (by rw [hvalue, zero_value]; omega)
  rw [hvalue, zero_value, Nat.zero_add] at hsumvalue
  refine ⟨?_, hsum, hsumvalue⟩
  simp only [Counts.add, Counts.zero, dirList_files, Nat.zero_add]
  exact Nat.mod_eq_of_lt t.number_lt

theorem texts_dirPrintBody {t : Tree} (h : t.total o < 65536 * 10 ^ 9) :
    texts (dirPrintBody o t) = (t.printed o).map (textOf o) := by
  obtain ⟨hfiles, hok, hvalue⟩ := total_spec h
  have hlist := texts_dirList t h
  rw [dirPrintBody, texts_append, hlist, Tree.printed]
  simp only [hfiles, printTotal, ← hvalue]
  cases hb : o.optB with
  | true =>
    simp only [if_true, List.map_nil, List.nil_append]
    split
    · split <;> rfl
    · rfl
  | false =>
    simp only [Bool.false_eq_true, if_false, List.map_append]
    by_cases hs : o.optS = true
    · by_cases hnumber : t.number o ≠ 0
      · rw [if_pos hs, if_pos hnumber, if_pos ⟨hs, hnumber⟩, List.map_singleton, textOf_eq hok]
        rfl
      · rw [if_pos hs, if_neg hnumber, if_neg fun h => hnumber h.2]
        rfl
    · rw [if_neg hs, if_neg fun h => hs h.1]
      rfl

/-- What is to be printed for a number of files and a number of bytes. -/
def Options.exact (o : Options) (p : ℕ × ℕ) : Option Str × Option Str :=
  (some (grouped o.sep p.1), some (grouped o.sep p.2))

theorem parts_spec (s : ℕ) (hs : s < 65536 * 10 ^ 9) :
    Bignum.Ok ⟨s % 10 ^ 9, s / 10 ^ 9⟩ ∧ Bignum.value ⟨s % 10 ^ 9, s / 10 ^ 9⟩ = s := by
  refine ⟨⟨Nat.mod_lt _ (by norm_num), ?_⟩, ?_⟩
  · simp only
    omega
  · simp only [Bignum.value]
    omega

theorem textOf_iff (hsep : o.sep ≠ 0) {p : ℕ × ℕ} (hfiles : p.1 < 2 ^ 32)
    (hbytes : p.2 < 65536 * 10 ^ 9) :
    textOf o p = o.exact p ↔ ¬ (0 < p.2 ∧ 10 ^ 9 ∣ p.2) := by
  obtain ⟨hok, hvalue⟩ := parts_spec p.2 hbytes
  have hiff := convert_iff hsep hok
  rw [hvalue] at hiff
  rw [textOf, Options.exact, convert_number hsep hfiles, Prod.mk.injEq]
  exact (and_iff_right rfl).trans hiff

theorem textOf_ne_none (hsep : o.sep ≠ 0) {p : ℕ × ℕ} (hfiles : p.1 < 2 ^ 32)
    (hbytes : p.2 < 65536 * 10 ^ 9) : (textOf o p).1 ≠ none ∧ (textOf o p).2 ≠ none := by
  refine ⟨?_, convert_ne_none hsep (parts_spec p.2 hbytes).1⟩
  rw [textOf, convert_number hsep hfiles]
  exact Option.some_ne_none _

/-- **The numbers of bytes are right if and only if none of them is a multiple of 10⁹ other than
0**: `convert` then prints "0".  The sums themselves are right, and the texts fit. -/
theorem dirPrintBody_iff (o : Options) (hsep : o.sep ≠ 0) (t : Tree)
    (ht : t.total o < 65536 * 10 ^ 9) :
    ((dirList o t).2.bytes.Ok ∧ (dirList o t).2.bytes.value = t.total o) ∧
    (∀ p ∈ texts (dirPrintBody o t), p.1 ≠ none ∧ p.2 ≠ none) ∧
    (texts (dirPrintBody o t) = (t.printed o).map o.exact ↔
      ∀ p ∈ t.printed o, ¬ (0 < p.2 ∧ 10 ^ 9 ∣ p.2)) := by
  have hbounds : ∀ p ∈ t.printed o, p.1 < 2 ^ 32 ∧ p.2 < 65536 * 10 ^ 9 := fun p hp =>
    ⟨(mem_printed hp).1, (mem_printed hp).2.trans_lt ht⟩
  rw [texts_dirPrintBody ht]
  refine ⟨dirList_bytes t ht, ?_, ?_⟩
  · intro q hq
    obtain ⟨p, hp, rfl⟩ := List.mem_map.1 hq
    exact textOf_ne_none hsep (hbounds p hp).1 (hbounds p hp).2
  · rw [List.map_inj_left]
    refine forall₂_congr fun p hp => ?_
    exact textOf_iff hsep (hbounds p hp).1 (hbounds p hp).2

theorem dirPrintBody_iff_gigabytes :
    let o : Options := ⟨.none, true, false, 0, 0, 16, fun _ is => is, 44⟩
    let t : Tree := .node [⟨0, 0, 0, 700000000, [65]⟩, ⟨0, 0, 0, 700000000, [66]⟩]
      [.node [⟨0x10, 0, 0, 0, [46]⟩, ⟨0, 0, 0, 1234567, [67]⟩] []]
    ((dirList o t).2.bytes.Ok ∧ (dirList o t).2.bytes.value = t.total o) ∧
    (∀ p ∈ texts (dirPrintBody o t), p.1 ≠ none ∧ p.2 ≠ none) ∧
    (texts (dirPrintBody o t) = (t.printed o).map o.exact ↔
      ∀ p ∈ t.printed o, ¬ (0 < p.2 ∧ 10 ^ 9 ∣ p.2)) :=
  dirPrintBody_iff _ (by decide) _ (by decide)

/-- A file of 10⁹ bytes: 1 file, 0 bytes. -/
theorem dirPrintBody_zero :
    let o : Options := ⟨.none, false, false, 0, 0, 16, fun _ is => is, 44⟩
    let t : Tree := .node [⟨0, 0, 0, 1000000000, [65]⟩] []
    t.total o = 10 ^ 9 ∧ texts (dirPrintBody o t) = [(some [49], some [48])] ∧
      texts (dirPrintBody o t) ≠ (t.printed o).map o.exact := by
  intro o t
  have htexts : texts (dirPrintBody o t) = [(some [49], some [48])] := by decide
  have hprinted : t.printed o = [(1, 10 ^ 9)] := by decide
  refine ⟨by decide, htexts, fun h => ?_⟩
  rw [htexts, hprinted, List.map_singleton, Options.exact, List.singleton_inj, Prod.mk.injEq] at h
  exact grouped_ne (by norm_num) (Option.some.inj h.2).symm

end Listing
end BurdahDos
