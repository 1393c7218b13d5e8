import BurdahDos.Listing.Keys
import Mathlib

/-!
# The comparison of DIR

* `Wanted.compare` is the order that a text asks for, as a comparison of entries.
* `Wanted.Told` says of two entries that `orderFunction` can tell them apart: there is a key in
  which they differ, and the difference in the first of these fits, or they have the same name.
* `orderFunction_compare` says that it then compares as it should, and `orderFunction_wrong` that
  it puts two entries in the wrong order otherwise.
-/

set_option autoImplicit false

namespace BurdahDos
namespace Listing

/-! ## The order that is asked for -/

/-- Entries compared by a key.  An entry without an extension is in front of the others. -/
def Key.compare : Key → Ffblk → Ffblk → Ordering
  | .size => compareOn fun f => f.fsize.toNat
  | .date => compareLex (compareOn fun f => f.fdate.toNat) (compareOn fun f => f.ftime.toNat)
  | .name => compareOn Ffblk.name
  | .ext => compareOn Ffblk.ext

/-- With a minus, the other way round. -/
def keyCompare (k : Bool × Key) (f g : Ffblk) : Ordering :=
  if k.1 then k.2.compare g f else k.2.compare f g

/-- By the keys, and then by name. -/
def keysCompare : List (Bool × Key) → Ffblk → Ffblk → Ordering
  | [] => Key.compare .name
  | k :: ks => compareLex (keyCompare k) (keysCompare ks)

/-- By the grouping. -/
def groupCompare : Option Bool → Ffblk → Ffblk → Ordering
  | none => fun _ _ => .eq
  | some true => compareOn Ffblk.isDir
  | some false => compareOn fun f => !f.isDir

def Wanted.compare (w : Wanted) : Ffblk → Ffblk → Ordering :=
  compareLex (groupCompare w.group) (keysCompare w.keys)

instance (k : Key) : Std.TransCmp k.compare := by
  cases k <;> rw [Key.compare] <;> infer_instance

instance (k : Bool × Key) : Std.TransCmp (keyCompare k) := by
  obtain ⟨inverse, k⟩ := k
  cases inverse
  · exact inferInstanceAs (Std.TransCmp k.compare)
  · exact inferInstanceAs (Std.TransCmp fun f g => k.compare g f)

instance (ks : List (Bool × Key)) : Std.TransCmp (keysCompare ks) := by
  induction ks with
  | nil => exact inferInstanceAs (Std.TransCmp (Key.compare .name))
  | cons k ks ih =>
    exact inferInstanceAs (Std.TransCmp (compareLex (keyCompare k) (keysCompare ks)))

instance (g : Option Bool) : Std.TransCmp (groupCompare g) := by
  match g with
  | none => exact { eq_swap := rfl, isLE_trans := fun _ _ => rfl }
  | some true => exact inferInstanceAs (Std.TransCmp (compareOn Ffblk.isDir))
  | some false => exact inferInstanceAs (Std.TransCmp (compareOn fun f : Ffblk => !f.isDir))

instance (w : Wanted) : Std.TransCmp w.compare :=
  inferInstanceAs (Std.TransCmp (compareLex (groupCompare w.group) (keysCompare w.keys)))

/-! ## Where the comparison for a key agrees -/

/-- The difference fits in 16 bits. -/
def Near (m n : ℕ) : Prop := m < n + 2 ^ 15 ∧ n < m + 2 ^ 15

instance (m n : ℕ) : Decidable (Near m n) := inferInstanceAs (Decidable (_ ∧ _))

/-- The difference in the key can be computed. -/
def Key.Told : Key → Ffblk → Ffblk → Prop
  | .size, f, g => f.fsize.toNat < 2 ^ 31 ↔ g.fsize.toNat < 2 ^ 31
  | .date, f, g => if f.fdate = g.fdate then Near f.ftime.toNat g.ftime.toNat
      else Near f.fdate.toNat g.fdate.toNat
  | .name, _, _ => True
  | .ext, _, _ => True

instance (k : Key) (f g : Ffblk) : Decidable (k.Told f g) := by
  cases k <;> rw [Key.Told] <;> infer_instance

theorem compare_zero {z : ℤ} {m n : ℕ} (hl : z < 0 ↔ m < n) (hg : 0 < z ↔ n < m) :
    compare z 0 = compare m n := by
  rcases Nat.lt_trichotomy m n with h | h | h
  · rw [compare_lt_iff_lt.2 h, compare_lt_iff_lt.2 (hl.2 h)]
  · have hz : z = 0 := by omega
    rw [compare_eq_iff_eq.2 h, compare_eq_iff_eq.2 hz]
  · rw [compare_gt_iff_gt.2 h, compare_gt_iff_gt.2 (hg.2 h)]

theorem strcmp_compare (s t : Str) : compare (strcmp s t) 0 = compare s t := by
  induction s generalizing t with
  | nil => cases t <;> rfl
  | cons a s ih =>
    cases t with
    | nil => rfl
    | cons b t =>
      have hc : compare a b = if a < b then .lt else if a = b then .eq else .gt := rfl
      rw [strcmp, List.compare_cons_cons, hc]
      by_cases hab : a < b
      · rw [if_pos hab, if_pos hab]
        rfl
      · by_cases he : a = b
        · rw [if_neg hab, if_neg hab, if_neg (he ▸ hab), if_pos he, ih]
          rfl
        · have hba : b < a := UInt8.lt_of_le_of_ne (UInt8.not_lt.1 hab) (Ne.symm he)
          rw [if_neg hab, if_neg hab, if_pos hba, if_neg he]
          rfl

theorem strcmp_swap (s t : Str) : int16 (-strcmp s t) = strcmp t s := by
  induction s generalizing t with
  | nil => cases t <;> rfl
  | cons a s ih =>
    cases t with
    | nil => rfl
    | cons b t =>
      rw [strcmp, strcmp]
      by_cases hab : a < b
      · rw [if_pos hab, if_neg (UInt8.lt_asymm hab), if_pos hab]
        rfl
      · by_cases hba : b < a
        · rw [if_neg hab, if_pos hba, if_pos hba]
          rfl
        · rw [if_neg hab, if_neg hba, if_neg hba, if_neg hab, ih]

/-- What `orderFunction` has after a key; a `continue` leaves the 0. -/
def keyValue (k : Bool × Key) (f g : Ffblk) : ℤ :=
  match compareBy k.2.option f g with
  | none => 0
  | some rv => if k.1 then int16 (-rv) else rv

theorem orderLoop_cons (f g : Ffblk) (k : Bool × Key) (orderby : List UInt8) :
    orderLoop f g (element k :: orderby)
      = if keyValue k f g = 0 then orderLoop f g orderby else keyValue k f g := by
  have hk : k.2.option ≠ 0 := by cases k.2 <;> decide
  rw [orderLoop, element_mask, if_neg hk, keyValue]
  cases compareBy k.2.option f g with
  | none => rw [if_pos rfl]
  | some rv =>
    by_cases hi : k.1 = true
    · simp only [if_pos hi, if_pos ((element_inverse k).2 hi)]
    · simp only [if_neg hi, if_neg (mt (element_inverse k).1 hi)]

/-- The difference in a key, without the minus. -/
def keyDiff (k : Key) (f g : Ffblk) : ℤ := (compareBy k.option f g).getD 0

theorem long_eq (n : UInt32) :
    long n = if n.toNat < 2 ^ 31 then (n.toNat : ℤ) else n.toNat - 2 ^ 32 := by
  have hn := n.toNat_lt
  unfold long
  simp only [Int.bmod_def]
  split_ifs <;> omega

theorem keyDiff_size (f g : Ffblk) :
    keyDiff .size f g = if long g.fsize < long f.fsize then 1
      else if long f.fsize < long g.fsize then -1 else 0 := by
  rw [keyDiff, Key.option, compareBy, if_pos rfl, Option.getD_some]

theorem keyDiff_date (f g : Ffblk) :
    keyDiff .date f g = if int16 (f.fdate.toNat - g.fdate.toNat) = 0
      then int16 (f.ftime.toNat - g.ftime.toNat) else int16 (f.fdate.toNat - g.fdate.toNat) := by
  rw [keyDiff, Key.option, compareBy, if_neg (by decide), if_pos rfl, Option.getD_some]

theorem keyDiff_name (f g : Ffblk) : keyDiff .name f g = strcmp f.name g.name := by
  rw [keyDiff, Key.option, compareBy, if_neg (by decide), if_neg (by decide), if_neg (by decide),
    if_pos rfl, Option.getD_some]

theorem keyDiff_ext (f g : Ffblk) :
    keyDiff .ext f g = match f.ext, g.ext with
      | none, none => 0
      | some x, some y => strcmp x y
      | none, some _ => -1
      | some _, none => 1 := by
  rw [keyDiff, Key.option, compareBy, if_neg (by decide), if_neg (by decide), if_pos rfl]
  cases f.ext <;> cases g.ext <;> rfl

theorem int16_near {m n : ℕ} (h : Near m n) : int16 ((m : ℤ) - n) = m - n := by
  unfold Near at h
  exact int16_eq (by omega) (by omega)

theorem int16_neg (n : ℤ) : int16 (-int16 n) = int16 (-n) := by
  rw [int16, int16, int16, Int.bmod_def, Int.bmod_def, Int.bmod_def]
  split_ifs <;> omega

theorem int16_eq_zero (n : ℤ) : int16 n = 0 ↔ int16 (-n) = 0 := by
  rw [int16, int16, Int.bmod_def, Int.bmod_def]
  split_ifs <;> omega

/-- A difference that is negated is that of the entries in the other order. -/
theorem keyDiff_swap (k : Key) (f g : Ffblk) : int16 (-keyDiff k f g) = keyDiff k g f := by
  cases k with
  | size =>
    rw [keyDiff_size, keyDiff_size]
    by_cases hl : long g.fsize < long f.fsize
    · rw [if_pos hl, if_neg (by omega), if_pos hl]
      rfl
    · rw [if_neg hl, if_neg hl]
      split_ifs <;> rfl
  | date =>
    have hd := int16_eq_zero ((f.fdate.toNat : ℤ) - g.fdate.toNat)
    rw [neg_sub] at hd
    rw [keyDiff_date, keyDiff_date]
    by_cases hz : int16 ((f.fdate.toNat : ℤ) - g.fdate.toNat) = 0
    · rw [if_pos hz, if_pos (hd.1 hz), int16_neg, neg_sub]
    · rw [if_neg hz, if_neg (mt hd.2 hz), int16_neg, neg_sub]
  | name => rw [keyDiff_name, keyDiff_name, strcmp_swap]
  | ext =>
    rw [keyDiff_ext, keyDiff_ext]
    cases f.ext <;> cases g.ext
    · rfl
    · rfl
    · rfl
    · exact strcmp_swap _ _

theorem keyValue_eq (k : Bool × Key) (f g : Ffblk) :
    keyValue k f g = if k.1 then keyDiff k.2 g f else keyDiff k.2 f g := by
  rw [← keyDiff_swap k.2 f g, keyValue, keyDiff]
  cases compareBy k.2.option f g with
  | none => cases k.1 <;> rfl
  | some rv => rfl

/-- A difference that can be computed says how the keys compare. -/
theorem keyDiff_compare (k : Key) {f g : Ffblk} (h : k.Told f g) :
    compare (keyDiff k f g) 0 = k.compare f g := by
  cases k with
  | size =>
    rw [keyDiff_size, long_eq, long_eq]
    have hf := f.fsize.toNat_lt
    have hg := g.fsize.toNat_lt
    simp only [Key.Told] at h
    change compare _ _ = compare f.fsize.toNat g.fsize.toNat
    apply compare_zero <;> split_ifs <;> omega
  | date =>
    have hd : f.fdate = g.fdate ↔ f.fdate.toNat = g.fdate.toNat := UInt16.toNat_inj.symm
    rw [keyDiff_date]
    simp only [Key.Told] at h
    by_cases he : f.fdate = g.fdate
    · rw [if_pos he] at h
      rw [he, sub_self, int16_zero, if_pos rfl, int16_near h]
      rw [Key.compare, compareLex, compareOn, he, Std.compare_self]
      change _ = compare f.ftime.toNat g.ftime.toNat
      exact compare_zero (by omega) (by omega)
    · rw [if_neg he] at h
      have hn : f.fdate.toNat ≠ g.fdate.toNat := mt hd.2 he
      rw [int16_near h, if_neg (by omega), Key.compare, compareLex, compareOn]
      have hc : compare ((f.fdate.toNat : ℤ) - g.fdate.toNat) 0
          = compare f.fdate.toNat g.fdate.toNat := compare_zero (by omega) (by omega)
      rw [hc]
      cases hc' : compare f.fdate.toNat g.fdate.toNat with
      | lt => rfl
      | eq => exact absurd (hd.2 (compare_eq_iff_eq.1 hc')) he
      | gt => rfl
  | name => exact (congrArg (compare · 0) (keyDiff_name f g)).trans (strcmp_compare f.name g.name)
  | ext =>
    rw [keyDiff_ext, Key.compare, compareOn]
    cases f.ext with
    | none => cases g.ext <;> rfl
    | some x =>
      cases g.ext with
      | none => rfl
      | some y => exact strcmp_compare x y

theorem Key.Told.symm {k : Key} {f g : Ffblk} (h : k.Told f g) : k.Told g f := by
  cases k with
  | size => exact Iff.symm h
  | date =>
    simp only [Key.Told, Near] at h ⊢
    by_cases he : f.fdate = g.fdate
    · rw [if_pos he] at h
      rw [if_pos he.symm]
      exact And.symm h
    · rw [if_neg he] at h
      rw [if_neg (Ne.symm he)]
      exact And.symm h
  | name => trivial
  | ext => trivial

/-- Entries that are equal in a key have no difference that could not be computed. -/
theorem Key.told_of_eq {k : Key} {f g : Ffblk} (h : k.compare f g = .eq) : k.Told f g := by
  cases k with
  | size =>
    have hs : f.fsize.toNat = g.fsize.toNat := compare_eq_iff_eq.1 h
    rw [Key.Told, hs]
  | date =>
    have hd := compareLex_eq_eq.1 h
    have he : f.fdate.toNat = g.fdate.toNat := compare_eq_iff_eq.1 hd.1
    have ht : f.ftime.toNat = g.ftime.toNat := compare_eq_iff_eq.1 hd.2
    rw [Key.Told, if_pos (UInt16.toNat_inj.1 he), Near]
    omega
  | name => trivial
  | ext => trivial

theorem int16_far {m n : ℕ} (h : n + 2 ^ 15 ≤ m) (hm : m < 2 ^ 16) :
    int16 ((m : ℤ) - n) = m - n - 2 ^ 16 := by
  rw [int16, Int.bmod_def]
  split_ifs <;> omega

/-- A difference that cannot be computed comes out with the wrong sign. -/
theorem keyDiff_wrong (k : Key) {f g : Ffblk} (h : ¬k.Told f g) (hc : k.compare f g = .gt) :
    keyDiff k f g < 0 := by
  cases k with
  | size =>
    have hs : g.fsize.toNat < f.fsize.toNat := compare_gt_iff_gt.1 hc
    rw [Key.Told] at h
    rw [keyDiff_size, long_eq, long_eq]
    have hf := f.fsize.toNat_lt
    have hg := g.fsize.toNat_lt
    split_ifs <;> omega
  | date =>
    have hdf := f.fdate.toNat_lt
    have htf := f.ftime.toNat_lt
    simp only [Key.Told, Near] at h
    rw [Key.compare, compareLex, compareOn] at hc
    rw [keyDiff_date]
    by_cases he : f.fdate = g.fdate
    · rw [he, Std.compare_self] at hc
      have ht : g.ftime.toNat < f.ftime.toNat := compare_gt_iff_gt.1 hc
      rw [if_pos he] at h
      rw [he, sub_self, int16_zero, if_pos rfl, int16_far (by omega) htf]
      omega
    · have hn : f.fdate.toNat ≠ g.fdate.toNat := mt UInt16.toNat_inj.1 he
      have hd : g.fdate.toNat < f.fdate.toNat := by
        rcases Nat.lt_or_gt_of_ne hn with hl | hl
        · rw [compare_lt_iff_lt.2 hl] at hc
          cases hc
        · exact hl
      rw [if_neg he] at h
      rw [int16_far (by omega) hdf, if_neg (by omega)]
      omega
  | name => exact absurd trivial h
  | ext => exact absurd trivial h

/-- **A key is compared as it should be**, when the difference can be computed. -/
theorem keyValue_compare (k : Bool × Key) {f g : Ffblk} (h : k.2.Told f g) :
    compare (keyValue k f g) 0 = keyCompare k f g := by
  rw [keyValue_eq, keyCompare]
  by_cases hi : k.1 = true
  · rw [if_pos hi, if_pos hi, keyDiff_compare k.2 h.symm]
  · rw [if_neg hi, if_neg hi, keyDiff_compare k.2 h]

theorem keyValue_wrong (k : Bool × Key) {f g : Ffblk} (h : ¬k.2.Told f g)
    (hc : keyCompare k f g = .gt) : keyValue k f g < 0 := by
  rw [keyCompare] at hc
  rw [keyValue_eq]
  by_cases hi : k.1 = true
  · rw [if_pos hi] at hc ⊢
    exact keyDiff_wrong k.2 (mt Key.Told.symm h) hc
  · rw [if_neg hi] at hc ⊢
    exact keyDiff_wrong k.2 h hc

theorem keyCompare_eq {k : Bool × Key} {f g : Ffblk} (h : keyCompare k f g = .eq) :
    k.2.Told f g := by
  rw [keyCompare] at h
  by_cases hi : k.1 = true
  · rw [if_pos hi] at h
    exact (Key.told_of_eq h).symm
  · rw [if_neg hi] at h
    exact Key.told_of_eq h

/-! ## The whole comparison -/

/-- The first key in which the entries differ tells them apart. -/
def ToldBy : List (Bool × Key) → Ffblk → Ffblk → Prop
  | [], f, g => f.name = g.name
  | k :: ks, f, g => if keyCompare k f g = .eq then ToldBy ks f g else k.2.Told f g

/-- `orderFunction` can tell two entries apart. -/
def Wanted.Told (w : Wanted) (f g : Ffblk) : Prop :=
  groupCompare w.group f g = .eq → ToldBy w.keys f g

instance (ks : List (Bool × Key)) (f g : Ffblk) : Decidable (ToldBy ks f g) := by
  induction ks with
  | nil => exact inferInstanceAs (Decidable (f.name = g.name))
  | cons k ks ih =>
    exact inferInstanceAs
      (Decidable (if keyCompare k f g = .eq then ToldBy ks f g else k.2.Told f g))

instance (w : Wanted) (f g : Ffblk) : Decidable (w.Told f g) :=
  inferInstanceAs (Decidable (_ → _))

theorem orderLoop_end (f g : Ffblk) (n : ℕ) : orderLoop f g (List.replicate n 0) = 0 := by
  cases n <;> rfl

/-- **The loop compares as it should**, when it can tell the entries apart. -/
theorem orderLoop_compare (ks : List (Bool × Key)) (n : ℕ) {f g : Ffblk} (h : ToldBy ks f g) :
    compare (orderLoop f g (ks.map element ++ List.replicate n 0)) 0 = keysCompare ks f g := by
  induction ks with
  | nil =>
    rw [List.map_nil, List.nil_append, orderLoop_end]
    change _ = compare f.name g.name
    rw [show f.name = g.name from h, Std.compare_self, Std.compare_self]
  | cons k ks ih =>
    have ht : k.2.Told f g := by
      rw [ToldBy] at h
      split at h
      · exact keyCompare_eq ‹_›
      · exact h
    have hv := keyValue_compare k ht
    rw [List.map_cons, List.cons_append, orderLoop_cons, keysCompare, compareLex, ← hv]
    by_cases hz : keyValue k f g = 0
    · rw [ToldBy, ← hv, hz, Std.compare_self, if_pos rfl] at h
      rw [if_pos hz, ih h, hz]
      rfl
    · rw [if_neg hz]
      rcases lt_or_gt_of_ne hz with hl | hl
      · rw [compare_lt_iff_lt.2 hl]
        rfl
      · rw [compare_gt_iff_gt.2 hl]
        rfl

/-- Otherwise it puts two entries in the wrong order. -/
theorem orderLoop_wrong (ks : List (Bool × Key)) (n : ℕ) {f g : Ffblk} (h : ¬ToldBy ks f g)
    (hc : keysCompare ks f g = .gt) :
    orderLoop f g (ks.map element ++ List.replicate n 0) ≤ 0 := by
  induction ks with
  | nil => rw [List.map_nil, List.nil_append, orderLoop_end]
  | cons k ks ih =>
    rw [List.map_cons, List.cons_append, orderLoop_cons]
    rw [ToldBy] at h
    rw [keysCompare, compareLex] at hc
    by_cases he : keyCompare k f g = .eq
    · have hz : keyValue k f g = 0 := by
        have hv := keyValue_compare k (keyCompare_eq he)
        exact compare_eq_iff_eq.1 (hv.trans he)
      rw [if_pos he] at h
      rw [he] at hc
      rw [if_pos hz]
      exact ih h hc
    · rw [if_neg he] at h
      have hg : keyCompare k f g = .gt := by
        cases hk : keyCompare k f g with
        | lt => rw [hk] at hc; cases hc
        | eq => exact absurd hk he
        | gt => rfl
      have hw := keyValue_wrong k h hg
      rw [if_neg hw.ne]
      exact hw.le

theorem toldBy_of_eq {ks : List (Bool × Key)} {f g : Ffblk} (h : keysCompare ks f g = .eq) :
    ToldBy ks f g := by
  induction ks with
  | nil => exact Std.LawfulEqOrd.eq_of_compare h
  | cons k ks ih =>
    have hk := compareLex_eq_eq.1 h
    rw [ToldBy, if_pos hk.1]
    exact ih hk.2

theorem ToldBy.symm {ks : List (Bool × Key)} {f g : Ffblk} (h : ToldBy ks f g) : ToldBy ks g f := by
  induction ks with
  | nil => exact Eq.symm h
  | cons k ks ih =>
    rw [ToldBy] at h ⊢
    by_cases he : keyCompare k f g = .eq
    · rw [if_pos he] at h
      rw [if_pos (Std.OrientedCmp.eq_symm he)]
      exact ih h
    · rw [if_neg he] at h
      rw [if_neg fun hg => he (Std.OrientedCmp.eq_symm hg)]
      exact h.symm

theorem Wanted.Told.symm {w : Wanted} {f g : Ffblk} (h : w.Told f g) : w.Told g f :=
  fun he => ToldBy.symm (h (Std.OrientedCmp.eq_symm he))

/-- `orderFunction` by the order that is wanted. -/
theorem orderFunction_eq {o : Order} {w : Wanted} (h : Holds o w) (f g : Ffblk) :
    orderFunction o f g = match groupCompare w.group f g with
      | .lt => -1
      | .eq => orderLoop f g (orderbyOf w.keys)
      | .gt => 1 := by
  obtain ⟨group, keys⟩ := w
  rw [orderFunction, h.dir, h.orderby]
  match group with
  | none => rfl
  | some true =>
    have hl : dirOf (some true) ≠ 0 ∧ dirOf (some true) &&& orderDirsFirst = 0 := by decide
    cases hf : f.isDir <;> cases hg : g.isDir <;> simp [groupCompare, compareOn, hf, hg, hl] <;> rfl
  | some false =>
    have hl : dirOf (some false) ≠ 0 ∧ dirOf (some false) &&& orderDirsFirst ≠ 0 := by decide
    cases hf : f.isDir <;> cases hg : g.isDir <;> simp [groupCompare, compareOn, hf, hg, hl] <;> rfl

/-- **`orderFunction` compares as the text asks for**, when it can tell the entries apart. -/
theorem orderFunction_compare {o : Order} {w : Wanted} (h : Holds o w) {f g : Ffblk}
    (ht : w.Told f g) : compare (orderFunction o f g) 0 = w.compare f g := by
  rw [orderFunction_eq h, Wanted.compare, compareLex]
  rw [Wanted.Told] at ht
  cases hg : groupCompare w.group f g with
  | lt => rfl
  | eq => exact orderLoop_compare w.keys _ (ht hg)
  | gt => rfl

/-- **Otherwise it puts them in the wrong order.** -/
theorem orderFunction_wrong {o : Order} {w : Wanted} (h : Holds o w) {f g : Ffblk}
    (ht : ¬w.Told f g) (hc : w.compare f g = .gt) : orderFunction o f g ≤ 0 := by
  rw [Wanted.Told, Classical.not_imp] at ht
  rw [Wanted.compare, compareLex, ht.1] at hc
  rw [orderFunction_eq h, ht.1]
  exact orderLoop_wrong w.keys _ ht.2 hc

end Listing
end BurdahDos
