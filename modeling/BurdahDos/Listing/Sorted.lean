import BurdahDos.Listing.Compared
import Mathlib

/-!
# The order of DIR

* `Sorts` is what is known of `qsort`.
* `flushed_perm` and `flushed_sorted` are about one `flushOrder`, and `flushed_told` is the converse
  of the second.
* `dirList_iff` is the main result.
-/

set_option autoImplicit false

namespace BurdahDos
namespace Listing

/-! ## Sorting -/

/-- The comparison is a total preorder of the indices. -/
structure Preorders (cmp : ℕ → ℕ → ℤ) (is : List ℕ) : Prop where
  swap : ∀ i ∈ is, ∀ j ∈ is, (cmp i j ≤ 0 ↔ 0 ≤ cmp j i)
  trans : ∀ i ∈ is, ∀ j ∈ is, ∀ k ∈ is, cmp i j ≤ 0 → cmp j k ≤ 0 → cmp i k ≤ 0

/-- What `qsort` does: it moves the elements, and sorts them when the comparison is an order. -/
structure Sorts (qsort : (ℕ → ℕ → ℤ) → List ℕ → List ℕ) : Prop where
  perm : ∀ cmp is, (qsort cmp is).Perm is
  sorted : ∀ cmp is, Preorders cmp is → (qsort cmp is).Pairwise fun i j => cmp i j ≤ 0

/-- An entry of the array, by its index. -/
def entryAt (fs : List Ffblk) (i : ℕ) : Ffblk := fs.getD i ⟨0, 0, 0, 0, []⟩

theorem entryAt_mem {fs : List Ffblk} {i : ℕ} (h : i ∈ List.range fs.length) :
    entryAt fs i ∈ fs := by
  have hi := List.mem_range.1 h
  rw [entryAt, List.getD_eq_getElem _ _ hi]
  exact List.getElem_mem hi

theorem map_entryAt (fs : List Ffblk) : (List.range fs.length).map (entryAt fs) = fs := by
  apply List.ext_getElem
  · simp
  · intro i _ hi
    rw [List.getElem_map, List.getElem_range, entryAt, List.getD_eq_getElem _ _ hi]

/-- The entries in the order of `flushOrder`. -/
def flushed (o : Options) (fs : List Ffblk) : List Ffblk :=
  (o.qsort (fun i j => orderFunction o.order (entryAt fs i) (entryAt fs j))
    (List.range fs.length)).map (entryAt fs)

theorem flushOrder_eq (o : Options) (fs : List Ffblk) :
    flushOrder o fs = (flushed o fs).map .entry := by
  rw [flushed, List.map_map]
  rfl

theorem flushed_perm {o : Options} (hq : Sorts o.qsort) (fs : List Ffblk) :
    (flushed o fs).Perm fs := by
  have hp := (hq.perm (fun i j => orderFunction o.order (entryAt fs i) (entryAt fs j))
    (List.range fs.length)).map (entryAt fs)
  rwa [map_entryAt] at hp

/-- The comparison of entries that can be told apart is a total preorder. -/
theorem preorders {o : Order} {w : Wanted} (h : Holds o w) {fs : List Ffblk}
    (ht : ∀ f ∈ fs, ∀ g ∈ fs, w.Told f g) :
    Preorders (fun i j => orderFunction o (entryAt fs i) (entryAt fs j))
      (List.range fs.length) := by
  have hc : ∀ i ∈ List.range fs.length, ∀ j ∈ List.range fs.length,
      (orderFunction o (entryAt fs i) (entryAt fs j) ≤ 0
        ↔ (w.compare (entryAt fs i) (entryAt fs j)).isLE) := by
    intro i hi j hj
    have he := orderFunction_compare h (ht _ (entryAt_mem hi) _ (entryAt_mem hj))
    rw [← he, Int.isLE_compare]
  have hc' : ∀ i ∈ List.range fs.length, ∀ j ∈ List.range fs.length,
      (0 ≤ orderFunction o (entryAt fs i) (entryAt fs j)
        ↔ (w.compare (entryAt fs i) (entryAt fs j)).isGE) := by
    intro i hi j hj
    have he := orderFunction_compare h (ht _ (entryAt_mem hi) _ (entryAt_mem hj))
    rw [← he, Int.isGE_compare]
  refine ⟨?_, ?_⟩
  · intro i hi j hj
    rw [hc i hi j hj, hc' j hj i hi, Std.OrientedCmp.isGE_iff_isLE]
  · intro i hi j hj k hk
    rw [hc i hi j hj, hc j hj k hk, hc i hi k hk]
    exact Std.TransCmp.isLE_trans

/-- **The entries are sorted as the text asks for**, when they can be told apart. -/
theorem flushed_sorted {o : Options} (hq : Sorts o.qsort) {w : Wanted} (h : Holds o.order w)
    {fs : List Ffblk} (ht : ∀ f ∈ fs, ∀ g ∈ fs, w.Told f g) :
    (flushed o fs).Pairwise fun f g => (w.compare f g).isLE := by
  have hs := hq.sorted _ _ (preorders h ht)
  rw [flushed, List.pairwise_map]
  refine hs.imp_of_mem fun {i j} hi hj hij => ?_
  have he := orderFunction_compare h
    (ht _ (entryAt_mem ((hq.perm _ _).mem_iff.1 hi)) _ (entryAt_mem ((hq.perm _ _).mem_iff.1 hj)))
  rw [← he]
  exact Int.isLE_compare.2 hij

/-! ## A sort that puts one element in front -/

/-- The order of a comparison on a list, with `i` in front of what is equal to it. -/
def Before (cmp : ℕ → ℕ → ℤ) (is : List ℕ) (i x y : ℕ) : Prop :=
  y ∉ is ∨ x ∈ is ∧ (cmp x y < 0 ∨ cmp x y = 0 ∧ (x = i ∨ y ≠ i))

instance (cmp : ℕ → ℕ → ℤ) (is : List ℕ) (i : ℕ) : DecidableRel (Before cmp is i) := fun _ _ =>
  inferInstanceAs (Decidable (_ ∨ _ ∧ (_ ∨ _ ∧ (_ ∨ _))))

instance (cmp : ℕ → ℕ → ℤ) (is : List ℕ) : Decidable (Preorders cmp is) :=
  decidable_of_iff
    ((∀ i ∈ is, ∀ j ∈ is, (cmp i j ≤ 0 ↔ 0 ≤ cmp j i))
      ∧ ∀ i ∈ is, ∀ j ∈ is, ∀ k ∈ is, cmp i j ≤ 0 → cmp j k ≤ 0 → cmp i k ≤ 0)
    ⟨fun h => ⟨h.1, h.2⟩, fun h => ⟨h.swap, h.trans⟩⟩

/-- A `qsort`: of equal elements, and of all when there is no order, `i` comes first. -/
def frontSort (i : ℕ) (cmp : ℕ → ℕ → ℤ) (is : List ℕ) : List ℕ :=
  if Preorders cmp is then is.insertionSort (Before cmp is i)
  else is.filter (· = i) ++ is.filter (· ≠ i)

theorem before_total {cmp : ℕ → ℕ → ℤ} {is : List ℕ} (h : Preorders cmp is) (i x y : ℕ) :
    Before cmp is i x y ∨ Before cmp is i y x := by
  unfold Before
  by_cases hx : x ∈ is
  · by_cases hy : y ∈ is
    · have hxy := h.swap x hx y hy
      have hyx := h.swap y hy x hx
      by_cases hi : x = i ∨ y ≠ i
      · by_cases hc : cmp x y ≤ 0
        · exact Or.inl (Or.inr ⟨hx, by omega⟩)
        · exact Or.inr (Or.inr ⟨hy, by omega⟩)
      · by_cases hc : cmp y x ≤ 0
        · exact Or.inr (Or.inr ⟨hy, by omega⟩)
        · exact Or.inl (Or.inr ⟨hx, by omega⟩)
    · exact Or.inl (Or.inl hy)
  · exact Or.inr (Or.inl hx)

theorem before_trans {cmp : ℕ → ℕ → ℤ} {is : List ℕ} (h : Preorders cmp is) {i x y z : ℕ}
    (hxy : Before cmp is i x y) (hyz : Before cmp is i y z) : Before cmp is i x z := by
  unfold Before at *
  by_cases hz : z ∈ is
  · obtain ⟨hy, hc⟩ := hyz.resolve_left (not_not.2 hz)
    obtain ⟨hx, hc'⟩ := hxy.resolve_left (not_not.2 hy)
    have ht := h.trans x hx y hy z hz (by omega) (by omega)
    have hzx := h.swap z hz x hx
    have hxz := h.swap x hx z hz
    have hyx := h.swap y hy x hx
    have hzy := h.swap z hz y hy
    have ht' := h.trans z hz x hx y hy
    have ht'' := h.trans y hy z hz x hx
    exact Or.inr ⟨hx, by omega⟩
  · exact Or.inl hz

theorem frontSort_pairwise {cmp : ℕ → ℕ → ℤ} {is : List ℕ} (h : Preorders cmp is) (i : ℕ) :
    (frontSort i cmp is).Pairwise (Before cmp is i) := by
  have : Std.Total (Before cmp is i) := ⟨before_total h i⟩
  have : IsTrans ℕ (Before cmp is i) := ⟨fun _ _ _ => before_trans h⟩
  rw [frontSort, if_pos h]
  exact List.pairwise_insertionSort _ is

theorem frontSort_sorts (i : ℕ) : Sorts (frontSort i) := by
  have hp : ∀ cmp is, (frontSort i cmp is).Perm is := by
    intro cmp is
    rw [frontSort]
    split
    · exact List.perm_insertionSort _ is
    · simpa using List.filter_append_perm (fun x => decide (x = i)) is
  refine ⟨hp, ?_⟩
  intro cmp is h
  refine (frontSort_pairwise h i).imp_of_mem fun {x y} _ hy hb => ?_
  have hc := hb.resolve_left (not_not.2 ((hp cmp is).mem_iff.1 hy))
  omega

/-- `i` comes before `j`, when the comparison does not forbid it. -/
theorem frontSort_front {cmp : ℕ → ℕ → ℤ} {is : List ℕ} {i j : ℕ} (hi : i ∈ is) (hj : j ∈ is)
    (hij : i ≠ j) (hc : cmp i j ≤ 0) {R : ℕ → ℕ → Prop} (hR : (frontSort i cmp is).Pairwise R) :
    R i j := by
  by_cases hp : Preorders cmp is
  · have hmem : ∀ x, x ∈ frontSort i cmp is ↔ x ∈ is := fun _ =>
      ((frontSort_sorts i).perm cmp is).mem_iff
    have hsym : Std.Symm fun x y =>
        (Before cmp is i x y ∧ R x y) ∨ (Before cmp is i y x ∧ R y x) := ⟨fun _ _ => Or.symm⟩
    have hs : (frontSort i cmp is).Pairwise fun x y =>
        (Before cmp is i x y ∧ R x y) ∨ (Before cmp is i y x ∧ R y x) :=
      ((frontSort_pairwise hp i).and hR).imp Or.inl
    rcases hs.forall ((hmem i).2 hi) ((hmem j).2 hj) hij with h | h
    · exact h.2
    · have hb := h.1.resolve_left (not_not.2 hi)
      have hsw := hp.swap i hi j hj
      have hji : j ≠ i := Ne.symm hij
      omega
  · rw [frontSort, if_neg hp, List.pairwise_append] at hR
    exact hR.2.2 i (by simpa using hi) j (by simpa using ⟨hj, Ne.symm hij⟩)

/-- **Entries that cannot be told apart are not sorted**, with some `qsort`. -/
theorem flushed_told {o : Options} {w : Wanted} (h : Holds o.order w) {fs : List Ffblk}
    (hs : ∀ q, Sorts q → (flushed { o with qsort := q } fs).Pairwise fun f g =>
      (w.compare f g).isLE) : ∀ f ∈ fs, ∀ g ∈ fs, w.Told f g := by
  -- of the two, the one that belongs behind the other comes first
  have key : ∀ f ∈ fs, ∀ g ∈ fs, w.compare f g = .gt → w.Told f g := by
    intro f hf g hg hc
    by_contra ht
    obtain ⟨i, hi, rfl⟩ := List.mem_iff_getElem.1 hf
    obtain ⟨j, hj, rfl⟩ := List.mem_iff_getElem.1 hg
    have hij : i ≠ j := by
      rintro rfl
      have hself : w.compare fs[i] fs[i] = .eq := Std.ReflCmp.compare_self
      rw [hself] at hc
      cases hc
    have hw := orderFunction_wrong h ht hc
    rw [← List.getD_eq_getElem fs ⟨0, 0, 0, 0, []⟩ hi,
      ← List.getD_eq_getElem fs ⟨0, 0, 0, 0, []⟩ hj] at hw hc
    have hp := hs (frontSort i) (frontSort_sorts i)
    rw [flushed, List.pairwise_map] at hp
    have hle := frontSort_front (List.mem_range.2 hi) (List.mem_range.2 hj) hij hw hp
    rw [entryAt, entryAt, hc] at hle
    cases hle
  intro f hf g hg
  cases hc : w.compare f g with
  | lt => exact (key g hg f hf (Std.OrientedCmp.gt_of_lt hc)).symm
  | eq => exact fun _ => toldBy_of_eq (compareLex_eq_eq.1 hc).2
  | gt => exact key f hf g hg hc

/-! ## What dir_list displays -/

theorem display_perm {o : Options} (hq : Sorts o.qsort) (acc fs : List Ffblk) :
    ∃ ls : List Ffblk, display o acc fs = ls.map .entry ∧ ls.Perm (acc ++ fs) := by
  induction fs generalizing acc with
  | nil => exact ⟨flushed o acc, flushOrder_eq o acc, by simpa using flushed_perm hq acc⟩
  | cons f fs ih =>
    rw [display]
    split
    · obtain ⟨ls, hd, hp⟩ := ih []
      refine ⟨flushed o (acc ++ [f]) ++ ls, ?_, ?_⟩
      · rw [flushOrder_eq, hd, List.map_append]
      · have ha := (flushed_perm hq (acc ++ [f])).append hp
        simpa using ha
    · obtain ⟨ls, hd, hp⟩ := ih (acc ++ [f])
      exact ⟨ls, hd, by simpa using hp⟩

/-- Entries that fit into the array are sorted together. -/
theorem display_short {o : Options} (hq : Sorts o.qsort) (acc fs : List Ffblk)
    (hl : acc.length + fs.length ≤ o.maxOrder) :
    display o acc fs = (flushed o (acc ++ fs)).map .entry := by
  induction fs generalizing acc with
  | nil => rw [display, flushOrder_eq, List.append_nil]
  | cons f fs ih =>
    rw [List.length_cons] at hl
    rw [display]
    split
    · have hf : fs = [] := List.length_eq_zero_iff.1 (by omega)
      have hn : flushed o [] = [] := List.perm_nil.1 (flushed_perm hq [])
      rw [hf, display, flushOrder_eq, flushOrder_eq, hn, List.map_nil, List.append_nil]
    · have hi := ih (acc ++ [f]) (by rw [List.length_append, List.length_singleton]; omega)
      rw [hi, List.append_assoc, List.singleton_append]

theorem entries_perm {o : Options} (hq : Sorts o.qsort) (fs : List Ffblk) :
    ∃ ls : List Ffblk, entries o fs = ls.map .entry ∧ ls.Perm fs := by
  rw [entries]
  split
  · exact display_perm hq [] fs
  · exact ⟨fs, rfl, List.Perm.refl fs⟩

/-- `optO` is set when an order is wanted. -/
theorem isSome_of_holds {o : Order} {w : Wanted} (h : Holds o w) (hw : w ≠ ⟨none, []⟩) :
    o.isSome = true := by
  obtain ⟨group, keys⟩ := w
  rw [Order.isSome, h.dir, h.orderby]
  cases keys with
  | nil =>
    cases group with
    | none => exact absurd rfl hw
    | some g => cases g <;> decide
  | cons k ks =>
    change (element k ||| dirOf group != 0) = true
    obtain ⟨inverse, k⟩ := k
    match group with
    | none => cases inverse <;> cases k <;> decide
    | some g => cases g <;> cases inverse <;> cases k <;> decide

/-- What the directories in a directory add. -/
def below (o : Options) (found : List Ffblk) (subs : List Tree) : List Line :=
  if o.optS then (dirLists o subs ((found.filter o.listed).foldl Counts.count .zero)).1 else []

/-- The entries of a directory are displayed once each, and in the order that is wanted when there
are not too many. -/
def InOrder (o : Options) (w : Wanted) (found : List Ffblk) (subs : List Tree) : Prop :=
  ∃ (fs : List Ffblk) (tail : List Line),
    (dirList o (.node found subs)).1 = fs.map .entry ++ tail ++ below o found subs
      ∧ (∀ f, .entry f ∉ tail)
      ∧ fs.Perm (found.filter o.listed)
      ∧ (fs.length ≤ o.maxOrder → w ≠ ⟨none, []⟩ → fs.Pairwise fun f g => (w.compare f g).isLE)

/-- The lines of a directory: the entries, and others. -/
theorem dirList_entries (o : Options) (found : List Ffblk) (subs : List Tree) :
    ∃ tail : List Line, (dirList o (.node found subs)).1
        = entries o (found.filter o.listed) ++ tail ++ below o found subs
      ∧ ∀ f, .entry f ∉ tail := by
  refine ⟨if ((found.filter o.listed).foldl Counts.count .zero).files ≠ 0
      ∨ ((found.filter o.listed).foldl Counts.count .zero).dirs ≠ 0
    then printSummary o ((found.filter o.listed).foldl Counts.count .zero)
    else if o.optS then [] else [.fileNotFound], ?_, ?_⟩
  · rw [dirList, below]
    by_cases hs : o.optS = true
    · simp only [hs, if_true, listed]
    · simp only [hs, Bool.false_eq_true, if_false, List.append_nil, listed]
  · intro f
    rw [printSummary]
    split_ifs <;> simp

/-- The entry of a line. -/
def Line.entry? : Line → Option Ffblk
  | .entry f => some f
  | _ => none

theorem entries_inj {fs ls : List Ffblk} {tail rest : List Line} (hf : ∀ f, .entry f ∉ tail)
    (hl : ∀ f, .entry f ∉ rest) (h : fs.map Line.entry ++ tail = ls.map Line.entry ++ rest) :
    fs = ls := by
  have hnone : ∀ ms : List Line, (∀ f, .entry f ∉ ms) → ms.filterMap Line.entry? = [] := by
    intro ms hm
    refine List.filterMap_eq_nil_iff.2 fun l hl => ?_
    cases l with
    | entry f => exact absurd hl (hm f)
    | _ => rfl
  have hsome : ∀ fs : List Ffblk, (fs.map Line.entry).filterMap Line.entry? = fs := by
    intro fs
    rw [List.filterMap_map]
    exact List.filterMap_some
  have he := congrArg (List.filterMap Line.entry?) h
  rwa [List.filterMap_append, List.filterMap_append, hnone tail hf, hnone rest hl, hsome, hsome,
    List.append_nil, List.append_nil] at he

/-- **DIR /O shows the entries in the order that was asked for** as far as it can tell them
apart.  Nothing is stored outside of `optOorderby` if no key follows itself in front of a `U`
either. -/
theorem dirList_iff {before beforeDefault : UInt8} {p : Str} {ms : List (Bool × Mark)}
    (o : Options) (found : List Ffblk) (subs : List Tree) (hm : marks before p = some ms)
    (ho : scanOrder before beforeDefault p = some o.order) (hd : NoDouble ms) :
    (NoDoubles ms → o.order.outside = false) ∧
      ((∀ q, Sorts q → InOrder { o with qsort := q } (wanted ms) found subs)
        ↔ ((found.filter o.listed).length ≤ o.maxOrder → wanted ms ≠ ⟨none, []⟩ →
            ∀ f ∈ found.filter o.listed, ∀ g ∈ found.filter o.listed, (wanted ms).Told f g)) := by
  refine ⟨scanOrder_inside hm ho, ?_⟩
  have hh : wanted ms ≠ ⟨none, []⟩ → Holds o.order (wanted ms) := by
    intro hw
    have hp : p ≠ [] := by
      rintro rfl
      rw [marks, Option.some.injEq] at hm
      exact hw (hm ▸ rfl)
    exact scanOrder_holds hp hm ho hd
  -- what is displayed when an order is wanted and the array is large enough
  have he : ∀ q, Sorts q → (found.filter o.listed).length ≤ o.maxOrder → wanted ms ≠ ⟨none, []⟩ →
      entries { o with qsort := q } (found.filter o.listed)
        = (flushed { o with qsort := q } (found.filter o.listed)).map .entry := by
    intro q hq hl hw
    rw [entries, if_pos (isSome_of_holds (hh hw) hw)]
    exact display_short hq [] _ (by simpa using hl)
  constructor
  · intro h hl hw
    refine flushed_told (hh hw) fun q hq => ?_
    obtain ⟨fs, tail, hf, ht, hp, hs⟩ := h q hq
    obtain ⟨rest, hr, ht'⟩ := dirList_entries { o with qsort := q } found subs
    have hfs : fs = flushed { o with qsort := q } (found.filter o.listed) := by
      refine entries_inj ht ht' ?_
      rw [← he q hq hl hw]
      exact List.append_cancel_right (hf.symm.trans hr)
    exact hfs ▸ hs (hp.length_eq ▸ hl) hw
  · intro h q hq
    obtain ⟨tail, hr, ht⟩ := dirList_entries { o with qsort := q } found subs
    by_cases hc : (found.filter o.listed).length ≤ o.maxOrder ∧ wanted ms ≠ ⟨none, []⟩
    · refine ⟨flushed { o with qsort := q } (found.filter o.listed), tail, ?_, ht,
        flushed_perm (o := { o with qsort := q }) hq _, fun _ _ => ?_⟩
      · rw [hr]
        exact congrArg (· ++ tail ++ _) (he q hq hc.1 hc.2)
      · exact flushed_sorted (o := { o with qsort := q }) hq (hh hc.2) (h hc.1 hc.2)
    · obtain ⟨fs, hf, hp⟩ := entries_perm (o := { o with qsort := q }) hq (found.filter o.listed)
      refine ⟨fs, tail, ?_, ht, hp, fun hl hw => absurd ⟨?_, hw⟩ hc⟩
      · rw [hr]
        exact congrArg (· ++ tail ++ _) hf
      · exact hp.length_eq ▸ hl

/-- Options for an order. -/
def ordered (o : Order) : Options := ⟨o, false, false, 0, 0, 1524, frontSort 0, 44⟩

/-- Two files, by their names and sizes. -/
def twoFiles (b a : UInt32) : List Ffblk := [⟨0x20, 0, 0, b, [66]⟩, ⟨0x20, 0, 0, a, [65]⟩]

theorem dirList_iff_size :
    InOrder (ordered ⟨0, [orderBySize, 0, 0, 0, 0], false⟩) ⟨none, [(false, .size)]⟩
      (twoFiles 7 5) [] :=
  (dirList_iff (ordered ⟨0, [orderBySize, 0, 0, 0, 0], false⟩) (twoFiles 7 5) []
    (by decide : marks 58 [83] = some [(false, .key .size)])
    (by decide : scanOrder 58 0 [83] = _) (by decide)).2.2 (by decide) (frontSort 0)
    (frontSort_sorts 0)

/-- /OS leaves files of one size in the order in which they were found. -/
theorem dirList_ties :
    scanOrder 58 0 [83] = some ⟨0, [orderBySize, 0, 0, 0, 0], false⟩
      ∧ Sorts (frontSort 0)
      ∧ ¬InOrder (ordered ⟨0, [orderBySize, 0, 0, 0, 0], false⟩) ⟨none, [(false, .size)]⟩
        (twoFiles 5 5) [] := by
  refine ⟨by decide, frontSort_sorts 0, ?_⟩
  rintro ⟨fs, tail, h, ht, hp, hs⟩
  have hd : (dirList (ordered ⟨0, [orderBySize, 0, 0, 0, 0], false⟩) (.node (twoFiles 5 5) [])).1
      = (twoFiles 5 5).map Line.entry ++ [.summary (some [50]) (some [49, 48])] := by
    decide
  rw [hd, below, if_neg (by decide), List.append_nil] at h
  have hf : twoFiles 5 5 = fs := entries_inj (by simp) ht h
  rw [← hf] at hs
  exact absurd (hs (by decide) (by decide)) (by decide)

end Listing
end BurdahDos
