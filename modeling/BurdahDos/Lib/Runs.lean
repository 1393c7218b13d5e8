import BurdahDos.Lib.Tiling
import Mathlib

/-!
# Runs of free blocks

Some of the blocks that tile a region are *free*.  Adjacent free blocks are as good as one block,
which `merge` makes of two of them; `joined` merges all of them, from left to right.  What is then
free are the maximal runs of free blocks there were before (`mem_frees_joined`).
-/

set_option autoImplicit false

namespace BurdahDos
namespace Tiling

open Header

variable {η : Type*} [Header η]

/-- A maximal run of free blocks: it begins at `x`, and has `n` cells besides its first header. -/
def MaxRun (free : η → Prop) (a : ℕ) (bs : List η) (x n : ℕ) : Prop :=
  ∃ pre run suf, bs = pre ++ (run ++ suf) ∧ run ≠ [] ∧ (∀ b ∈ run, free b) ∧
    (∀ b ∈ pre.getLast?, ¬ free b) ∧ (∀ b ∈ suf.head?, ¬ free b) ∧
    x = a + total pre ∧ n + 1 = total run

/-- Where free blocks are and how large, in order. -/
def frees (free : η → Prop) [DecidablePred free] (a : ℕ) : List η → List (ℕ × ℕ)
  | [] => []
  | b :: bs =>
    if free b then (a, size b) :: frees free (a + (size b + 1)) bs
    else frees free (a + (size b + 1)) bs

/-- The blocks `b :: bs` with adjacent free ones merged. -/
def joinFrom (free : η → Prop) [DecidablePred free] (merge : η → η → η) : η → List η → List η
  | b, [] => [b]
  | b, c :: cs =>
    if free b ∧ free c then joinFrom free merge (merge b c) cs
    else b :: joinFrom free merge c cs

/-- The blocks with adjacent free ones merged. -/
def joined (free : η → Prop) [DecidablePred free] (merge : η → η → η) : List η → List η
  | [] => []
  | b :: bs => joinFrom free merge b bs

/-- The free blocks that follow `b` at once are merged into it. -/
def absorb (free : η → Prop) [DecidablePred free] (merge : η → η → η) : η → List η → η × List η
  | b, [] => (b, [])
  | b, c :: cs => if free c then absorb free merge (merge b c) cs else (b, c :: cs)

variable {free : η → Prop} [DecidablePred free] {merge : η → η → η} {a x n : ℕ} {b c : η}
  {bs cs pre suf : List η}

/-! ## Free blocks -/

@[simp] theorem frees_nil : frees free a ([] : List η) = [] := rfl

theorem frees_append (a : ℕ) (bs cs : List η) :
    frees free a (bs ++ cs) = frees free a bs ++ frees free (a + total bs) cs := by
  induction bs generalizing a with
  | nil => simp [total]
  | cons b bs ih =>
    simp only [List.cons_append, frees, ih, total, Nat.add_assoc]
    split <;> simp

theorem frees_singleton (hb : free b) : frees free a [b] = [(a, size b)] := by simp [frees, hb]

theorem mem_frees {r : ℕ × ℕ} :
    r ∈ frees free a bs ↔ ∃ b, At a bs r.1 b ∧ free b ∧ size b = r.2 := by
  obtain ⟨x, n⟩ := r
  induction bs generalizing a with
  | nil =>
    refine ⟨fun h => by simp at h, ?_⟩
    rintro ⟨b, ⟨pre, suf, h, -⟩, -⟩
    simp at h
  | cons c cs ih =>
    rw [frees]
    split
    · rename_i hc
      rw [List.mem_cons, ih, Prod.mk.injEq]
      constructor
      · rintro (⟨rfl, rfl⟩ | ⟨b, hat, hb⟩)
        · exact ⟨c, at_cons.mpr (Or.inl ⟨rfl, rfl⟩), hc, rfl⟩
        · exact ⟨b, at_cons.mpr (Or.inr hat), hb⟩
      · rintro ⟨b, hat, hb, hn⟩
        rcases at_cons.mp hat with ⟨rfl, rfl⟩ | hat
        · exact Or.inl ⟨rfl, hn.symm⟩
        · exact Or.inr ⟨b, hat, hb, hn⟩
    · rename_i hc
      rw [ih]
      constructor
      · rintro ⟨b, hat, hb⟩
        exact ⟨b, at_cons.mpr (Or.inr hat), hb⟩
      · rintro ⟨b, hat, hb, hn⟩
        rcases at_cons.mp hat with ⟨rfl, rfl⟩ | hat
        · exact absurd hb hc
        · exact ⟨b, hat, hb, hn⟩

theorem frees_bounds {r : ℕ × ℕ} (h : r ∈ frees free a bs) :
    a ≤ r.1 ∧ r.1 + (r.2 + 1) ≤ a + total bs := by
  obtain ⟨b, hat, -, hn⟩ := mem_frees.mp h
  rw [← hn]
  exact hat.bounds

/-! ## Merging one run after another -/

omit [Header η] in
theorem joinFrom_of_not_free (hb : ¬ free b) (cs : List η) :
    joinFrom free merge b cs = b :: joined free merge cs := by
  cases cs with
  | nil => rfl
  | cons c cs => rw [joinFrom, if_neg fun h => hb h.1, joined]

omit [Header η] in
/-- What is left of a list is not longer, and does not begin with a free block. -/
theorem absorb_snd (b : η) (cs : List η) : (absorb free merge b cs).2.length ≤ cs.length ∧
    ∀ c ∈ (absorb free merge b cs).2.head?, ¬ free c := by
  induction cs generalizing b with
  | nil => exact ⟨Nat.le_refl _, fun c hc => by simp [absorb] at hc⟩
  | cons c cs ih =>
    rw [absorb]
    split
    · exact ⟨(ih _).1.trans (Nat.le_succ _), (ih _).2⟩
    · rename_i hc
      exact ⟨Nat.le_refl _, fun d hd => by
        obtain rfl : c = d := by simpa using hd
        exact hc⟩

omit [Header η] in
/-- Where two adjacent blocks are not both free, the lists on both sides are merged by
themselves. -/
theorem joined_append (h : ∀ b ∈ pre.getLast?, ¬ (free b ∧ free c)) :
    joined free merge (pre ++ c :: cs) = joined free merge pre ++ joined free merge (c :: cs) := by
  cases pre with
  | nil => rfl
  | cons b pre =>
    rw [List.cons_append, joined, joined]
    induction pre generalizing b with
    | nil =>
      rw [List.nil_append, joinFrom, joinFrom, if_neg (h b rfl)]
      rfl
    | cons d pre ih =>
      rw [List.cons_append, joinFrom, joinFrom]
      split
      · rename_i hbd
        refine ih (merge b d) fun f hf => ?_
        cases pre with
        | nil =>
          obtain rfl : merge b d = f := by simpa using hf
          exact fun hfc => h d rfl ⟨hbd.2, hfc.2⟩
        | cons g pre => exact h f hf
      · rw [ih d h, List.cons_append]

/-! ## Maximal runs -/

omit [DecidablePred free] in
/-- A block and the next one, which are not both free. -/
theorem maxRun_cons (h : ¬ (free b ∧ free c)) :
    MaxRun free a (b :: c :: cs) x n ↔
      (free b ∧ x = a ∧ n = size b) ∨ MaxRun free (a + (size b + 1)) (c :: cs) x n := by
  constructor
  · rintro ⟨pre, run, suf, heq, hne, hrun, hpre, hsuf, rfl, hn⟩
    cases pre with
    | nil =>
      cases run with
      | nil => exact absurd rfl hne
      | cons d run =>
        rw [List.nil_append, List.cons_append] at heq
        obtain ⟨rfl, htail⟩ := List.cons.inj heq
        have hb := hrun b List.mem_cons_self
        cases run with
        | nil =>
          refine Or.inl ⟨hb, rfl, ?_⟩
          simp only [total] at hn
          omega
        | cons e run =>
          obtain ⟨rfl, -⟩ := List.cons.inj htail
          exact absurd ⟨hb, hrun c (by simp)⟩ h
    | cons d pre =>
      rw [List.cons_append] at heq
      obtain ⟨rfl, htail⟩ := List.cons.inj heq
      refine Or.inr ⟨pre, run, suf, htail, hne, hrun, fun e he => ?_, hsuf, ?_, hn⟩
      · cases pre with
        | nil => simp at he
        | cons f pre => exact hpre e (by simpa using he)
      · simp only [total]
        omega
  · rintro (⟨hb, rfl, rfl⟩ | ⟨pre, run, suf, heq, hne, hrun, hpre, hsuf, rfl, hn⟩)
    · refine ⟨[], [b], c :: cs, rfl, by simp, by simpa using hb, by simp, ?_, by simp [total],
        by simp [total]⟩
      simpa using fun hc => h ⟨hb, hc⟩
    · refine ⟨b :: pre, run, suf, by rw [List.cons_append, heq], hne, hrun, fun e he => ?_, hsuf, ?_,
        hn⟩
      · cases pre with
        | nil =>
          obtain rfl : e = b := by simpa using he.symm
          cases run with
          | nil => exact absurd rfl hne
          | cons d run =>
            obtain ⟨rfl, -⟩ := List.cons.inj heq
            exact fun hb => h ⟨hb, hrun c List.mem_cons_self⟩
        | cons d pre => exact hpre e (by simpa using he)
      · simp only [total]
        omega

/-- How blocks are merged: sizes add up, with the header that is no longer needed. -/
structure Merges (free : η → Prop) (merge : η → η → η) : Prop where
  size : ∀ b c, size (merge b c) = size b + size c + 1
  free : ∀ b c, free (merge b c) ↔ free b
  assoc : ∀ b c d, merge (merge b c) d = merge b (merge c d)

variable (hm : Merges free merge)
include hm

theorem absorb_free (b : η) (cs : List η) : free (absorb free merge b cs).1 ↔ free b := by
  induction cs generalizing b with
  | nil => rfl
  | cons c cs ih =>
    rw [absorb]
    split
    · rw [ih, hm.free]
    · rfl

/-- A free block takes in the run it begins, and what follows is merged by itself. -/
theorem joinFrom_absorb (hb : free b) (cs : List η) : joinFrom free merge b cs =
    (absorb free merge b cs).1 :: joined free merge (absorb free merge b cs).2 := by
  induction cs generalizing b with
  | nil => rfl
  | cons c cs ih =>
    rw [joinFrom, absorb]
    by_cases hc : free c
    · rw [if_pos ⟨hb, hc⟩, if_pos hc, ih ((hm.free b c).mpr hb)]
    · rw [if_neg fun h => hc h.2, if_neg hc, joined]

/-- Merging does not change whether the first block is free. -/
theorem joinFrom_head (b : η) (cs : List η) :
    ∃ d ds, joinFrom free merge b cs = d :: ds ∧ (free d ↔ free b) := by
  induction cs generalizing b with
  | nil => exact ⟨b, [], rfl, Iff.rfl⟩
  | cons c cs ih =>
    rw [joinFrom]
    split
    · obtain ⟨d, ds, heq, hfree⟩ := ih (merge b c)
      exact ⟨d, ds, heq, hfree.trans (hm.free b c)⟩
    · exact ⟨b, _, rfl, Iff.rfl⟩

/-- A block put in front of merged ones. -/
theorem joinFrom_eq (b : η) (cs : List η) : joinFrom free merge b cs =
    match joined free merge cs with
    | [] => [b]
    | d :: ds => if free b ∧ free d then merge b d :: ds else b :: d :: ds := by
  induction cs generalizing b with
  | nil => rfl
  | cons c cs ih =>
    rw [joinFrom, joined]
    by_cases hbc : free b ∧ free c
    · rw [if_pos hbc, ih (merge b c), ih c]
      cases joined free merge cs with
      | nil => simp [hbc]
      | cons d ds =>
        by_cases hd : free d
        · simp [hm.free, hbc, hd, hm.assoc]
        · simp [hbc, hd]
    · rw [if_neg hbc]
      obtain ⟨d, ds, hd, hfree⟩ := joinFrom_head hm c cs
      rw [hd]
      simp only [hfree, if_neg hbc]

/-- Merging depends only on what the rest is merged to. -/
theorem joined_append_congr (pre : List η) (h : joined free merge bs = joined free merge cs) :
    joined free merge (pre ++ bs) = joined free merge (pre ++ cs) := by
  cases pre with
  | nil => exact h
  | cons b pre =>
    rw [List.cons_append, List.cons_append, joined, joined]
    induction pre generalizing b with
    | nil => rw [List.nil_append, List.nil_append, joinFrom_eq hm, joinFrom_eq hm, h]
    | cons c pre ih =>
      rw [List.cons_append, List.cons_append, joinFrom, joinFrom, ih, ih]

theorem joined_joined (bs : List η) :
    joined free merge (joined free merge bs) = joined free merge bs := by
  cases bs with
  | nil => rfl
  | cons b bs =>
    rw [joined]
    induction bs generalizing b with
    | nil => rfl
    | cons c cs ih =>
      rw [joinFrom]
      split
      · exact ih _
      · rename_i hbc
        obtain ⟨d, ds, hd, hfree⟩ := joinFrom_head hm c cs
        rw [joined, joinFrom_eq hm, ih, hd]
        simp only [hfree, if_neg hbc]

/-- Merged blocks take the same room. -/
theorem total_joined (bs : List η) : total (joined free merge bs) = total bs := by
  cases bs with
  | nil => rfl
  | cons b bs =>
    rw [joined]
    induction bs generalizing b with
    | nil => rfl
    | cons c cs ih =>
      rw [joinFrom]
      split
      · rw [ih]
        simp only [total, hm.size]
        omega
      · rw [total, ih]
        simp only [total]

/-- A free block is in a merged one. -/
theorem exists_le_joined (hb : b ∈ bs) (hfree : free b) :
    ∃ d ∈ joined free merge bs, free d ∧ size b ≤ size d := by
  cases bs with
  | nil => simp at hb
  | cons e bs =>
    rw [joined]
    induction bs generalizing e b with
    | nil =>
      obtain rfl := List.mem_singleton.mp hb
      exact ⟨b, List.mem_singleton_self b, hfree, Nat.le_refl _⟩
    | cons c cs ih =>
      rw [joinFrom]
      split
      · rename_i hec
        have hsize := hm.size e c
        rcases List.mem_cons.mp hb with rfl | hb
        · obtain ⟨d, hd, hdf, hle⟩ := ih ((hm.free b c).mpr hfree) (merge b c) List.mem_cons_self
          exact ⟨d, hd, hdf, by omega⟩
        · rcases List.mem_cons.mp hb with rfl | hb
          · obtain ⟨d, hd, hdf, hle⟩ := ih ((hm.free e b).mpr hec.1) (merge e b) List.mem_cons_self
            exact ⟨d, hd, hdf, by omega⟩
          · exact ih hfree (merge e c) (List.mem_cons_of_mem _ hb)
      · rcases List.mem_cons.mp hb with rfl | hb
        · exact ⟨b, List.mem_cons_self, hfree, Nat.le_refl _⟩
        · obtain ⟨d, hd, h⟩ := ih hfree c hb
          exact ⟨d, List.mem_cons_of_mem _ hd, h⟩

/-- A merged block begins where one began. -/
theorem starts_joined (h : ∃ d, At a (joined free merge bs) x d) : ∃ d, At a bs x d := by
  cases bs with
  | nil => exact h
  | cons b bs =>
    rw [joined] at h
    induction bs generalizing a b with
    | nil => exact h
    | cons c cs ih =>
      rw [joinFrom] at h
      split at h
      · obtain ⟨d, hd⟩ := ih (merge b c) h
        rcases at_cons.mp hd with ⟨rfl, -⟩ | hd
        · exact ⟨b, at_cons.mpr (Or.inl ⟨rfl, rfl⟩)⟩
        · refine ⟨d, at_cons.mpr (Or.inr (at_cons.mpr (Or.inr ?_)))⟩
          rwa [hm.size, show a + (size b + size c + 1 + 1) = a + (size b + 1) + (size c + 1) by omega]
            at hd
      · obtain ⟨d, hd⟩ := h
        rcases at_cons.mp hd with hd | hd
        · exact ⟨b, at_cons.mpr (Or.inl ⟨hd.1, rfl⟩)⟩
        · obtain ⟨k, hk⟩ := ih c ⟨d, hd⟩
          exact ⟨k, at_cons.mpr (Or.inr hk)⟩

omit [DecidablePred free] in
/-- Two free blocks, and the one they are merged to. -/
theorem maxRun_merge (hb : free b) (hc : free c) :
    MaxRun free a (merge b c :: cs) x n ↔ MaxRun free a (b :: c :: cs) x n := by
  have htotal (ds : List η) : total (merge b c :: ds) = total (b :: c :: ds) := by
    simp only [total, hm.size]
    omega
  constructor
  · rintro ⟨pre, run, suf, heq, hne, hrun, hpre, hsuf, rfl, hn⟩
    cases pre with
    | nil =>
      cases run with
      | nil => exact absurd rfl hne
      | cons d run =>
        rw [List.nil_append, List.cons_append] at heq
        obtain ⟨rfl, rfl⟩ := List.cons.inj heq
        refine ⟨[], b :: c :: run, suf, rfl, by simp, ?_, by simp, hsuf, rfl, hn.trans (htotal run)⟩
        intro e he
        rcases List.mem_cons.mp he with rfl | he
        · exact hb
        · rcases List.mem_cons.mp he with rfl | he
          · exact hc
          · exact hrun e (List.mem_cons_of_mem _ he)
    | cons d pre =>
      rw [List.cons_append] at heq
      obtain ⟨rfl, rfl⟩ := List.cons.inj heq
      cases pre with
      | nil => exact absurd ((hm.free b c).mpr hb) (hpre _ (by simp))
      | cons f pre =>
        refine ⟨b :: c :: f :: pre, run, suf, rfl, hne, hrun, fun e he => hpre e ?_, hsuf, ?_, hn⟩
        · simpa using he
        · rw [htotal]
  · rintro ⟨pre, run, suf, heq, hne, hrun, hpre, hsuf, rfl, hn⟩
    cases pre with
    | nil =>
      cases run with
      | nil => exact absurd rfl hne
      | cons d run =>
        rw [List.nil_append, List.cons_append] at heq
        obtain ⟨rfl, htail⟩ := List.cons.inj heq
        cases run with
        | nil =>
          rw [List.nil_append] at htail
          exact absurd hc (hsuf c (by rw [← htail]; simp))
        | cons e run =>
          obtain ⟨rfl, rfl⟩ := List.cons.inj htail
          refine ⟨[], merge b c :: run, suf, rfl, by simp, ?_, by simp, hsuf, rfl,
            hn.trans (htotal run).symm⟩
          intro e he
          rcases List.mem_cons.mp he with rfl | he
          · exact (hm.free b c).mpr hb
          · exact hrun e (by simp [he])
    | cons d pre =>
      rw [List.cons_append] at heq
      obtain ⟨rfl, htail⟩ := List.cons.inj heq
      cases pre with
      | nil => exact absurd hb (hpre b (by simp))
      | cons f pre =>
        rw [List.cons_append] at htail
        obtain ⟨rfl, rfl⟩ := List.cons.inj htail
        cases pre with
        | nil => exact absurd hc (hpre c (by simp))
        | cons g pre =>
          refine ⟨merge b c :: g :: pre, run, suf, rfl, hne, hrun, fun e he => hpre e ?_, hsuf, ?_,
            hn⟩
          · simpa using he
          · rw [htotal]

/-- **What is free after merging** are the maximal runs there were. -/
theorem mem_frees_joined : (x, n) ∈ frees free a (joined free merge bs) ↔ MaxRun free a bs x n := by
  cases bs with
  | nil =>
    refine ⟨fun h => by simp [joined] at h, ?_⟩
    rintro ⟨pre, run, suf, heq, hne, -⟩
    have := List.append_eq_nil_iff.mp (List.append_eq_nil_iff.mp heq.symm).2
    exact absurd this.1 hne
  | cons b bs =>
    rw [joined]
    induction bs generalizing a b with
    | nil =>
      rw [joinFrom, mem_frees]
      constructor
      · rintro ⟨c, hat, hc, hn⟩
        rcases at_cons.mp hat with ⟨rfl, rfl⟩ | ⟨pre, suf, h, -⟩
        · refine ⟨[], [c], [], rfl, by simp, by simpa using hc, by simp, by simp, by simp [total], ?_⟩
          simp only [total, hn]
        · simp at h
      · rintro ⟨pre, run, suf, heq, hne, hrun, -, -, rfl, hn⟩
        cases pre with
        | nil =>
          cases run with
          | nil => exact absurd rfl hne
          | cons d run =>
            rw [List.nil_append, List.cons_append] at heq
            obtain ⟨rfl, htail⟩ := List.cons.inj heq
            obtain ⟨rfl, rfl⟩ := List.append_eq_nil_iff.mp htail.symm
            refine ⟨b, ⟨[], [], rfl, rfl⟩, hrun b List.mem_cons_self, ?_⟩
            simp only [total] at hn
            omega
        | cons d pre =>
          rw [List.cons_append] at heq
          obtain ⟨-, htail⟩ := List.cons.inj heq
          have := (List.append_eq_nil_iff.mp (List.append_eq_nil_iff.mp htail.symm).2).1
          exact absurd this hne
    | cons c cs ih =>
      rw [joinFrom]
      split
      · rename_i hbc
        rw [ih, maxRun_merge hm hbc.1 hbc.2]
      · rename_i hbc
        rw [maxRun_cons hbc, ← ih, frees]
        split
        · rename_i hb
          simp [hb]
        · rename_i hb
          simp [hb]

end Tiling
end BurdahDos
