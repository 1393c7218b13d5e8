import Mathlib

/-!
# Regions tiled by blocks

A memory of headers, `mem : ℕ → η`, in which the header of a block says how many cells follow it
and whether another block comes next.  Reading headers from an address on gives a list of blocks,
each of which begins where the one before it ends; `Tiled` says that this list fills a region
exactly.

Everything that changes such a memory replaces some consecutive blocks by others that take the same
room.  `Tiled.replace` is the rule for that, and `At.replace` says which blocks stay where they are.
-/

set_option autoImplicit false

namespace BurdahDos
namespace Tiling

/-- A header: the number of cells after it, and whether another block follows or not. -/
class Header (η : Type*) where
  size : η → ℕ
  more : η → Prop
  last : η → Prop

open Header

variable {η : Type*} [Header η]

/-- The room that blocks take, headers included. -/
def total : List η → ℕ
  | [] => 0
  | b :: bs => size b + 1 + total bs

/-- The headers read from `a` on are `bs`. -/
def Linked (mem : ℕ → η) : ℕ → List η → Prop
  | _, [] => True
  | a, b :: bs => mem a = b ∧ Linked mem (a + (size b + 1)) bs

/-- Each header but the last announces another block, and the last one does not. -/
def Ended : List η → Prop
  | [] => False
  | [b] => last b
  | b :: c :: bs => more b ∧ Ended (c :: bs)

/-- The blocks `bs` fill the cells from `a` up to but not including `e`. -/
structure Tiled (mem : ℕ → η) (a : ℕ) (bs : List η) (e : ℕ) : Prop where
  linked : Linked mem a bs
  ended : Ended bs
  fills : a + total bs = e

/-- The header `b` is that of the block at `x`. -/
def At (a : ℕ) (bs : List η) (x : ℕ) (b : η) : Prop :=
  ∃ pre suf, bs = pre ++ b :: suf ∧ x = a + total pre

@[simp] theorem total_append (xs ys : List η) : total (xs ++ ys) = total xs + total ys := by
  induction xs with
  | nil => simp [total]
  | cons x xs ih => simp only [List.cons_append, total, ih]; omega

theorem length_le_total (bs : List η) : bs.length ≤ total bs := by
  induction bs with
  | nil => exact Nat.le_refl 0
  | cons b bs ih => simp only [List.length_cons, total]; omega

theorem linked_append {mem : ℕ → η} {a : ℕ} {xs ys : List η} :
    Linked mem a (xs ++ ys) ↔ Linked mem a xs ∧ Linked mem (a + total xs) ys := by
  induction xs generalizing a with
  | nil => simp [Linked, total]
  | cons x xs ih => simp only [List.cons_append, Linked, ih, total, and_assoc, Nat.add_assoc]

theorem Linked.congr {mem mem' : ℕ → η} {a : ℕ} {bs : List η} (h : Linked mem a bs)
    (hm : ∀ x, a ≤ x → x < a + total bs → mem' x = mem x) : Linked mem' a bs := by
  induction bs generalizing a with
  | nil => trivial
  | cons b bs ih =>
    simp only [total] at hm
    exact ⟨(hm a (by omega) (by omega)).trans h.1,
      ih h.2 fun x hx hx' => hm x (by omega) (by omega)⟩

theorem ended_append {xs ys : List η} (hy : ys ≠ []) :
    Ended (xs ++ ys) ↔ (∀ x ∈ xs, more x) ∧ Ended ys := by
  induction xs with
  | nil => simp
  | cons x xs ih =>
    have hne : xs ++ ys ≠ [] := List.append_ne_nil_of_right_ne_nil xs hy
    cases hc : xs ++ ys with
    | nil => exact absurd hc hne
    | cons z zs =>
      rw [List.cons_append, hc, Ended, ← hc, ih, List.forall_mem_cons, and_assoc]

theorem Ended.ne_nil {bs : List η} (h : Ended bs) : bs ≠ [] := by
  rintro rfl
  exact h

/-- What memory holds decides the blocks. -/
theorem Tiled.unique {mem : ℕ → η} (hexcl : ∀ b : η, more b → ¬ last b) {a e e' : ℕ}
    {bs bs' : List η} (h : Tiled mem a bs e) (h' : Tiled mem a bs' e') : bs = bs' ∧ e = e' := by
  have hbs : bs = bs' := by
    have hl := h.linked
    have hl' := h'.linked
    have he := h.ended
    have he' := h'.ended
    clear h h'
    induction bs generalizing a bs' with
    | nil => exact absurd he id
    | cons b bs ih =>
      cases bs' with
      | nil => exact absurd he' id
      | cons b' bs' =>
        obtain rfl : b = b' := hl.1.symm.trans hl'.1
        cases bs with
        | nil =>
          cases bs' with
          | nil => rfl
          | cons c cs => exact absurd he (hexcl b he'.1)
        | cons d ds =>
          cases bs' with
          | nil => exact absurd he' (hexcl b he.1)
          | cons c cs => rw [ih hl.2 hl'.2 he.2 he'.2]
  exact ⟨hbs, by rw [← h.fills, ← h'.fills, hbs]⟩

/-! ## Where blocks are -/

theorem at_append {a : ℕ} {xs ys : List η} {x : ℕ} {b : η} :
    At a (xs ++ ys) x b ↔ At a xs x b ∨ At (a + total xs) ys x b := by
  constructor
  · rintro ⟨pre, suf, h, rfl⟩
    rcases List.append_eq_append_iff.mp h with ⟨r, rfl, hr⟩ | ⟨r, rfl, hr⟩
    · exact Or.inr ⟨r, suf, hr, by rw [total_append, Nat.add_assoc]⟩
    · cases r with
      | nil => exact Or.inr ⟨[], suf, by simpa using hr.symm, by simp [total]⟩
      | cons c r =>
        obtain ⟨rfl, rfl⟩ := List.cons.inj hr
        exact Or.inl ⟨pre, r, rfl, rfl⟩
  · rintro (⟨pre, suf, rfl, rfl⟩ | ⟨pre, suf, rfl, rfl⟩)
    · exact ⟨pre, suf ++ ys, by simp, rfl⟩
    · exact ⟨xs ++ pre, suf, by simp, by rw [total_append, Nat.add_assoc]⟩

theorem at_cons {a : ℕ} {c : η} {bs : List η} {x : ℕ} {b : η} :
    At a (c :: bs) x b ↔ (x = a ∧ b = c) ∨ At (a + (size c + 1)) bs x b := by
  rw [← List.singleton_append, at_append]
  refine or_congr ⟨?_, ?_⟩ (by simp [total])
  · rintro ⟨pre, suf, h, rfl⟩
    cases pre with
    | nil => exact ⟨rfl, (List.cons.inj h).1.symm⟩
    | cons d pre => simp at h
  · rintro ⟨rfl, rfl⟩
    exact ⟨[], [], rfl, rfl⟩

theorem At.bounds {a : ℕ} {bs : List η} {x : ℕ} {b : η} (h : At a bs x b) :
    a ≤ x ∧ x + (size b + 1) ≤ a + total bs := by
  obtain ⟨pre, suf, rfl, rfl⟩ := h
  simp only [total_append, total]
  omega

theorem Linked.mem_eq {mem : ℕ → η} {a : ℕ} {bs : List η} (h : Linked mem a bs) {x : ℕ} {b : η}
    (hb : At a bs x b) : mem x = b := by
  obtain ⟨pre, suf, rfl, rfl⟩ := hb
  exact (linked_append.mp h).2.1

/-- Only the headers matter. -/
theorem Linked.congr_at {mem mem' : ℕ → η} {a : ℕ} {bs : List η} (h : Linked mem a bs)
    (hm : ∀ x b, At a bs x b → mem' x = mem x) : Linked mem' a bs := by
  induction bs generalizing a with
  | nil => trivial
  | cons b bs ih =>
    refine ⟨(hm a b (at_cons.2 (.inl ⟨rfl, rfl⟩))).trans h.1, ih h.2 fun x c hc => ?_⟩
    exact hm x c (at_cons.2 (.inr hc))

/-- The block after one that announces another. -/
theorem Tiled.next {mem : ℕ → η} (hexcl : ∀ b : η, more b → ¬ last b) {a e : ℕ} {bs : List η}
    (h : Tiled mem a bs e) {x : ℕ} (hx : ∃ b, At a bs x b) (hmore : more (mem x)) :
    ∃ c, At a bs (x + (size (mem x) + 1)) c := by
  obtain ⟨b, hb⟩ := hx
  rw [h.linked.mem_eq hb] at hmore ⊢
  obtain ⟨pre, suf, rfl, rfl⟩ := hb
  have hended := ((ended_append (List.cons_ne_nil b suf)).mp h.ended).2
  cases suf with
  | nil => exact absurd hended (hexcl b hmore)
  | cons c cs => exact ⟨c, pre ++ [b], cs, by simp, by simp [total, Nat.add_assoc]⟩

/-- The last block is the one that reaches the end. -/
theorem Tiled.last_of_end {mem : ℕ → η} {a e : ℕ} {bs : List η} (h : Tiled mem a bs e) {x : ℕ}
    (hx : ∃ b, At a bs x b) (hend : x + (size (mem x) + 1) = e) : last (mem x) := by
  obtain ⟨b, hb⟩ := hx
  rw [h.linked.mem_eq hb] at hend ⊢
  obtain ⟨pre, suf, rfl, rfl⟩ := hb
  have hfills := h.fills
  have hsuf := length_le_total suf
  simp only [total_append, total] at hfills
  obtain rfl : suf = [] := List.length_eq_zero_iff.mp (by omega)
  exact ((ended_append (List.cons_ne_nil b [])).mp h.ended).2

/-- Blocks at different places do not overlap. -/
theorem At.disjoint {a : ℕ} {bs : List η} {x y : ℕ} {b c : η} (hb : At a bs x b)
    (hc : At a bs y c) (hxy : x ≠ y) :
    Disjoint (Set.Ico x (x + (size b + 1))) (Set.Ico y (y + (size c + 1))) := by
  obtain ⟨pre, suf, rfl, rfl⟩ := hb
  rw [Set.Ico_disjoint_Ico]
  rcases at_append.mp hc with h | h
  · have := h.bounds
    omega
  · rcases at_cons.mp h with ⟨rfl, -⟩ | h
    · exact absurd rfl hxy
    · have := h.bounds
      omega

/-- **Rewriting headers without moving blocks**: the same cells are blocks, with their new
headers. -/
theorem Tiled.rewrite {mem mem' : ℕ → η} (hsize : ∀ x, size (mem' x) = size (mem x))
    (hmore : ∀ x, more (mem x) → more (mem' x)) (hlast : ∀ x, last (mem x) → last (mem' x))
    {a e : ℕ} {bs : List η} (h : Tiled mem a bs e) :
    ∃ bs', Tiled mem' a bs' e ∧ ∀ x b, At a bs x b → At a bs' x (mem' x) := by
  obtain ⟨hl, he, rfl⟩ := h
  induction bs generalizing a with
  | nil => exact absurd he id
  | cons b bs ih =>
    obtain ⟨rfl, hl⟩ := hl
    cases bs with
    | nil =>
      refine ⟨[mem' a], ⟨⟨rfl, trivial⟩, hlast a he, by simp [total, hsize]⟩, fun x c hc => ?_⟩
      rcases at_cons.mp hc with ⟨rfl, -⟩ | ⟨pre, suf, h, -⟩
      · exact at_cons.mpr (Or.inl ⟨rfl, rfl⟩)
      · simp at h
    | cons c cs =>
      obtain ⟨bs', hbs', hat⟩ := ih hl he.2
      refine ⟨mem' a :: bs', ⟨⟨rfl, ?_⟩, ?_, ?_⟩, fun x d hd => ?_⟩
      · rw [hsize]; exact hbs'.linked
      · cases hc : bs' with
        | nil => exact absurd hc hbs'.ended.ne_nil
        | cons d ds => exact ⟨hmore a he.1, hc ▸ hbs'.ended⟩
      · have := hbs'.fills
        simp only [total, hsize] at this ⊢
        omega
      · rcases at_cons.mp hd with ⟨rfl, -⟩ | hd
        · exact at_cons.mpr (Or.inl ⟨rfl, rfl⟩)
        · exact at_cons.mpr (Or.inr (by rw [hsize]; exact hat x d hd))

/-! ## Replacing blocks -/

section Replace

variable {mem mem' : ℕ → η} {a e : ℕ} {pre suf : List η} (mid mid' : List η)

/-- **Replacing blocks by others that take the same room**, by writing to their cells only. -/
theorem Tiled.replace (h : Tiled mem a (pre ++ (mid ++ suf)) e) (htotal : total mid' = total mid)
    (hended : Ended (mid ++ suf) → Ended (mid' ++ suf))
    (hlinked : Linked mem' (a + total pre) mid')
    (hmem : ∀ x, x < a + total pre ∨ a + total pre + total mid ≤ x → mem' x = mem x)
    (hmid : mid ++ suf ≠ []) : Tiled mem' a (pre ++ (mid' ++ suf)) e where
  linked := by
    obtain ⟨h1, h2⟩ := linked_append.mp h.linked
    obtain ⟨-, h3⟩ := linked_append.mp h2
    refine linked_append.mpr ⟨h1.congr fun x _ hx => hmem x (Or.inl hx), linked_append.mpr
      ⟨hlinked, ?_⟩⟩
    rw [htotal]
    exact h3.congr fun x hx _ => hmem x (Or.inr hx)
  ended := by
    obtain ⟨h1, h2⟩ := (ended_append hmid).mp h.ended
    have h3 := hended h2
    exact (ended_append h3.ne_nil).mpr ⟨h1, h3⟩
  fills := by
    rw [← h.fills]
    simp only [total_append, htotal]

/-- A block that is not among the replaced ones stays. -/
theorem At.replace {mid mid' : List η} (htotal : total mid' = total mid) {x : ℕ} {b : η}
    (h : At a (pre ++ (mid ++ suf)) x b) :
    At (a + total pre) mid x b ∨ At a (pre ++ (mid' ++ suf)) x b := by
  rcases at_append.mp h with h | h
  · exact Or.inr (at_append.mpr (Or.inl h))
  · rcases at_append.mp h with h | h
    · exact Or.inl h
    · refine Or.inr (at_append.mpr (Or.inr (at_append.mpr (Or.inr ?_))))
      rwa [htotal]

end Replace

end Tiling
end BurdahDos
