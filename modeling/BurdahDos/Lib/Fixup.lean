import Mathlib

/-!
# Fixups

Words in a memory of bytes, low byte first, to which a number is added.  The order does not matter
as long as the words are the same or do not overlap (`foldl_addWord_perm`), and neither does what
the memory holds elsewhere (`foldl_addWord_congr`) or where it begins (`foldl_addWord_shift`).
-/

set_option autoImplicit false

namespace BurdahDos

/-- The word at an address. -/
def wordAt (f : ℕ → UInt8) (a : ℕ) : ℕ := (f a).toNat + 256 * (f (a + 1)).toNat

/-- The memory after a word was stored. -/
def setWord (f : ℕ → UInt8) (a w : ℕ) : ℕ → UInt8 := fun i =>
  if i = a then UInt8.ofNat w else if i = a + 1 then UInt8.ofNat (w / 256) else f i

/-- The memory after a number was added to a word. -/
def addWord (k : ℕ) (f : ℕ → UInt8) (a : ℕ) : ℕ → UInt8 :=
  setWord f a ((wordAt f a + k) % 65536)

/-- Two words are the same or do not overlap. -/
def Apart (a b : ℕ) : Prop := a = b ∨ a + 2 ≤ b ∨ b + 2 ≤ a

instance (a b : ℕ) : Decidable (Apart a b) := inferInstanceAs (Decidable (_ ∨ _ ∨ _))

variable {k : ℕ} {f g : ℕ → UInt8}

theorem addWord_other {a i : ℕ} (h : i ≠ a) (h' : i ≠ a + 1) : addWord k f a i = f i := by
  rw [addWord, setWord, if_neg h, if_neg h']

/-- Only the word itself matters for what becomes of it. -/
theorem addWord_congr_at {a : ℕ} (h : f a = g a) (h' : f (a + 1) = g (a + 1)) {i : ℕ}
    (hi : f i = g i) : addWord k f a i = addWord k g a i := by
  rw [addWord, addWord, setWord, setWord, wordAt, wordAt, h, h', hi]

theorem addWord_comm {a b : ℕ} (h : Apart a b) :
    addWord k (addWord k f a) b = addWord k (addWord k f b) a := by
  rcases h with rfl | h | h
  · rfl
  all_goals
    funext i
    by_cases ha : i = a ∨ i = a + 1
    · rw [addWord_other (f := addWord k f a) (a := b) (by omega) (by omega)]
      exact addWord_congr_at (addWord_other (by omega) (by omega)).symm
        (addWord_other (by omega) (by omega)).symm (addWord_other (by omega) (by omega)).symm
    · rw [addWord_other (f := addWord k f b) (a := a) (by omega) (by omega)]
      exact addWord_congr_at (addWord_other (by omega) (by omega))
        (addWord_other (by omega) (by omega)) (addWord_other (by omega) (by omega))

/-- **Fixups can be made in any order.** -/
theorem foldl_addWord_perm {l l' : List ℕ} (hp : l.Perm l') (hc : ∀ a ∈ l, ∀ b ∈ l, Apart a b)
    (f : ℕ → UInt8) : l.foldl (addWord k) f = l'.foldl (addWord k) f :=
  hp.foldl_eq' (fun a ha b hb _ => addWord_comm (hc a ha b hb)) f

/-- Fixups in the first `n` bytes depend on these only. -/
theorem foldl_addWord_congr {n : ℕ} {l : List ℕ} (hl : ∀ a ∈ l, a + 1 < n)
    (h : ∀ i < n, f i = g i) : ∀ i < n, l.foldl (addWord k) f i = l.foldl (addWord k) g i := by
  induction l generalizing f g with
  | nil => exact h
  | cons a l ih =>
    have ha := hl a List.mem_cons_self
    exact ih (fun b hb => hl b (List.mem_cons_of_mem _ hb)) fun i hi =>
      addWord_congr_at (h a (by omega)) (h (a + 1) ha) (h i hi)

/-- Fixups from an address on. -/
theorem foldl_addWord_shift (s : ℕ) (l : List ℕ) (i : ℕ) :
    (l.map (s + ·)).foldl (addWord k) f (s + i) = l.foldl (addWord k) (fun i => f (s + i)) i := by
  induction l generalizing f with
  | nil => rfl
  | cons a l ih =>
    have hf : (fun i => addWord k f (s + a) (s + i)) = addWord k (fun i => f (s + i)) a := by
      funext i
      rw [addWord, addWord, setWord, setWord, wordAt, wordAt, Nat.add_assoc s a 1]
      simp only [Nat.add_right_inj]
    rw [List.map_cons, List.foldl_cons, List.foldl_cons, ih, hf]

end BurdahDos
