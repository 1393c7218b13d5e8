import Mathlib

/-!
# Fronts of lists

What is in front of the last element of a kind, and what several lists have in common at the front.

* `upToLast`: a list up to the last of its elements of a kind, that element included.
* `LongestCommonPrefix`: the longest list that all of some lists begin with; it is built up one
  list at a time by `LongestCommonPrefix.keep` and `LongestCommonPrefix.cut`.
-/

set_option autoImplicit false

namespace BurdahDos
namespace Words

variable {α : Type} {p : α → Bool} {s t q : List α} {c d : α} {names : List (List α)}

/-! ## Up to the last element of a kind -/

/-- A list up to its last element of a kind. -/
def upToLast (p : α → Bool) (s : List α) : List α := (s.reverse.dropWhile (!p ·)).reverse

/-- What is behind the last element of a kind. -/
def afterLast (p : α → Bool) (s : List α) : List α := (s.reverse.takeWhile (!p ·)).reverse

@[simp] theorem upToLast_nil : upToLast p ([] : List α) = [] := rfl

theorem upToLast_concat_of_pos (h : p c = true) : upToLast p (s ++ [c]) = s ++ [c] := by
  rw [upToLast, List.reverse_append, List.reverse_singleton, List.singleton_append,
    List.dropWhile_cons_of_neg (by simp [h]), List.reverse_cons, List.reverse_reverse]

theorem upToLast_concat_of_neg (h : p c = false) : upToLast p (s ++ [c]) = upToLast p s := by
  rw [upToLast, List.reverse_append, List.reverse_singleton, List.singleton_append,
    List.dropWhile_cons_of_pos (by simp [h]), upToLast]

@[simp] theorem afterLast_nil : afterLast p ([] : List α) = [] := rfl

theorem afterLast_concat_of_pos (h : p c = true) : afterLast p (s ++ [c]) = [] := by
  rw [afterLast, List.reverse_append, List.reverse_singleton, List.singleton_append,
    List.takeWhile_cons_of_neg (by simp [h]), List.reverse_nil]

theorem afterLast_concat_of_neg (h : p c = false) :
    afterLast p (s ++ [c]) = afterLast p s ++ [c] := by
  rw [afterLast, List.reverse_append, List.reverse_singleton, List.singleton_append,
    List.takeWhile_cons_of_pos (by simp [h]), List.reverse_cons, afterLast]

theorem of_mem_afterLast (h : c ∈ afterLast p s) : p c = false := by
  have hmem := List.mem_takeWhile_imp (List.mem_reverse.mp h)
  simpa using hmem

/-- An element of the kind stands at the end. -/
theorem upToLast_eq_concat (h : ∃ c ∈ s, p c = true) : ∃ t c, upToLast p s = t ++ [c] ∧ p c = true := by
  induction s using List.reverseRecOn with
  | nil => exact absurd h (by simp)
  | append_singleton s d ih =>
    rcases hd : p d with _ | _
    · rw [upToLast_concat_of_neg hd]
      obtain ⟨c, hc, hpc⟩ := h
      rcases List.mem_append.mp hc with hold | hnew
      · exact ih ⟨c, hold, hpc⟩
      · rw [List.mem_singleton.mp hnew, hd] at hpc
        exact Bool.noConfusion hpc
    · exact ⟨s, d, upToLast_concat_of_pos hd, hd⟩

/-- What is not of the kind is not looked at. -/
theorem upToLast_append (h : ∀ c ∈ t, p c = false) : upToLast p (s ++ t) = upToLast p s := by
  induction t using List.reverseRecOn with
  | nil => rw [List.append_nil]
  | append_singleton t d ih =>
    rw [← List.append_assoc, upToLast_concat_of_neg (h d (by simp))]
    exact ih fun c hc => h c (List.mem_append_left _ hc)

theorem upToLast_append_afterLast (p : α → Bool) (s : List α) :
    upToLast p s ++ afterLast p s = s := by
  rw [upToLast, afterLast, ← List.reverse_append, List.takeWhile_append_dropWhile,
    List.reverse_reverse]

theorem drop_upToLast (p : α → Bool) (s : List α) :
    s.drop (upToLast p s).length = afterLast p s := by
  have happ := congrArg (List.drop (upToLast p s).length) (upToLast_append_afterLast p s)
  rwa [List.drop_left, eq_comm] at happ

theorem upToLast_self (p : α → Bool) (s : List α) : upToLast p (upToLast p s) = upToLast p s := by
  have happ := upToLast_append_afterLast p s
  rw [← @upToLast_append _ _ (upToLast p s) (afterLast p s) fun c hc => of_mem_afterLast hc, happ]

/-! ## The longest common prefix -/

/-- `p` is the longest list that all of these lists begin with. -/
structure LongestCommonPrefix (names : List (List α)) (s : List α) : Prop where
  common : ∀ n ∈ names, s <+: n
  longest : ∀ q, (∀ n ∈ names, q <+: n) → q <+: s

theorem LongestCommonPrefix.singleton (s : List α) : LongestCommonPrefix [s] s where
  common n hn := by rw [List.mem_singleton.mp hn]
  longest q hq := hq s (List.mem_singleton_self s)

theorem LongestCommonPrefix.unique (hs : LongestCommonPrefix names s)
    (ht : LongestCommonPrefix names t) : s = t :=
  (ht.longest s hs.common).eq_of_length_le (hs.longest t ht.common).length_le

/-- One more list that has the prefix. -/
theorem LongestCommonPrefix.keep (h : LongestCommonPrefix names s) (ht : s <+: t) :
    LongestCommonPrefix (names ++ [t]) s where
  common n hn := by
    rcases List.mem_append.mp hn with hold | hnew
    · exact h.common n hold
    · rwa [List.mem_singleton.mp hnew]
  longest q hq := h.longest q fun n hn => hq n (List.mem_append_left _ hn)

theorem prefix_of_prefix_both (hne : c ≠ d) {x y : List α} (hx : q <+: s ++ c :: x)
    (hy : q <+: s ++ d :: y) : q <+: s := by
  rcases List.prefix_or_prefix_of_prefix hx (List.prefix_append s (c :: x)) with hshort | ⟨r, rfl⟩
  · exact hshort
  · rw [List.prefix_append_right_inj] at hx hy
    cases r with
    | nil => rw [List.append_nil]
    | cons a r =>
      rw [List.cons_prefix_cons] at hx hy
      exact absurd (hx.1.symm.trans hy.1) hne

/-- One more list that differs from the others behind `q`. -/
theorem LongestCommonPrefix.cut {x y : List α} (h : LongestCommonPrefix names (q ++ c :: x))
    (hne : c ≠ d) : LongestCommonPrefix (names ++ [q ++ d :: y]) q where
  common n hn := by
    rcases List.mem_append.mp hn with hold | hnew
    · exact (List.prefix_append q _).trans (h.common n hold)
    · rw [List.mem_singleton.mp hnew]
      exact List.prefix_append q _
  longest r hr := by
    have hnew : r <+: q ++ d :: y :=
      hr _ (List.mem_append_right _ (List.mem_singleton_self _))
    exact prefix_of_prefix_both hne (h.longest r fun n hn => hr n (List.mem_append_left _ hn)) hnew

/-- The prefixes that lists have in common decide what their longest one is. -/
theorem longestCommonPrefix_congr {names' : List (List α)}
    (h : ∀ q, (∀ n ∈ names, q <+: n) ↔ ∀ n ∈ names', q <+: n) :
    LongestCommonPrefix names s ↔ LongestCommonPrefix names' s :=
  ⟨fun hs => ⟨(h s).mp hs.common, fun q hq => hs.longest q ((h q).mpr hq)⟩,
    fun hs => ⟨(h s).mpr hs.common, fun q hq => hs.longest q ((h q).mp hq)⟩⟩

/-! ## Computing it -/

variable [DecidableEq α]

/-- What two lists have in common at the front. -/
def commonPrefix : List α → List α → List α
  | a :: s, b :: t => if a = b then a :: commonPrefix s t else []
  | _, _ => []

/-- The longest common prefix of some lists. -/
def longestPrefix : List (List α) → List α
  | [] => []
  | s :: names => names.foldl commonPrefix s

theorem nil_commonPrefix (t : List α) : commonPrefix [] t = [] := by cases t <;> rfl

theorem commonPrefix_nil (s : List α) : commonPrefix s [] = [] := by cases s <;> rfl

theorem prefix_commonPrefix : ∀ {q s t : List α}, q <+: commonPrefix s t ↔ q <+: s ∧ q <+: t := by
  intro q s t
  induction s generalizing q t with
  | nil =>
    rw [nil_commonPrefix]
    exact ⟨fun h => ⟨h, List.prefix_nil.mp h ▸ List.nil_prefix⟩, And.left⟩
  | cons a s ih =>
    cases t with
    | nil =>
      rw [commonPrefix_nil]
      exact ⟨fun h => ⟨List.prefix_nil.mp h ▸ List.nil_prefix, h⟩, And.right⟩
    | cons b t =>
      rw [commonPrefix]
      cases q with
      | nil => simp
      | cons c q =>
        split
        · rename_i hab
          subst hab
          rw [List.cons_prefix_cons, List.cons_prefix_cons, List.cons_prefix_cons, ih]
          exact ⟨fun h => ⟨⟨h.1, h.2.1⟩, h.1, h.2.2⟩, fun h => ⟨h.1.1, h.1.2, h.2.2⟩⟩
        · rename_i hab
          rw [List.cons_prefix_cons, List.cons_prefix_cons]
          exact ⟨fun h => absurd (List.prefix_nil.mp h) (List.cons_ne_nil c q),
            fun h => absurd (h.1.1.symm.trans h.2.1) hab⟩

theorem prefix_foldl_commonPrefix : ∀ {names : List (List α)} {s q : List α},
    q <+: names.foldl commonPrefix s ↔ q <+: s ∧ ∀ n ∈ names, q <+: n := by
  intro names
  induction names with
  | nil => simp
  | cons n names ih =>
    intro s q
    rw [List.foldl_cons, ih, prefix_commonPrefix, List.forall_mem_cons, and_assoc]

theorem longestPrefix_spec {names : List (List α)} (hne : names ≠ []) :
    LongestCommonPrefix names (longestPrefix names) := by
  cases names with
  | nil => exact absurd rfl hne
  | cons s names =>
    have hiff : ∀ {q}, q <+: longestPrefix (s :: names) ↔ ∀ n ∈ s :: names, q <+: n := by
      intro q
      rw [longestPrefix, prefix_foldl_commonPrefix, List.forall_mem_cons]
    exact ⟨hiff.mp List.prefix_rfl, fun q hq => hiff.mpr hq⟩

end Words
end BurdahDos
