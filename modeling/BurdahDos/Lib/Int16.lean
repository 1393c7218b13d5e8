import Mathlib

/-!
# Integers of 16 bits

`int16` is what is left of an integer in a signed word of 16 bits.  Sums and products can be taken
first and cut back later.
-/

set_option autoImplicit false

namespace BurdahDos

/-- The value of the lower 16 bits, with a sign. -/
def int16 (n : ℤ) : ℤ := n.bmod 65536

theorem int16_eq {n : ℤ} (h : -32768 ≤ n) (h' : n ≤ 32767) : int16 n = n := by
  rw [int16, Int.bmod_def]
  split <;> omega

theorem int16_range (n : ℤ) : -32768 ≤ int16 n ∧ int16 n ≤ 32767 := by
  rw [int16, Int.bmod_def]
  split <;> omega

theorem int16_emod (n : ℤ) : int16 n % 65536 = n % 65536 := by
  rw [int16, Int.bmod_def]
  split <;> omega

theorem int16_add_mul (n d : ℤ) : int16 (int16 n * 10 + d) = int16 (n * 10 + d) := by
  rw [int16, int16, int16, Int.bmod_def, Int.bmod_def, Int.bmod_def]
  split <;> split <;> split <;> omega

theorem int16_zero : int16 0 = 0 := rfl

theorem int16_int16 (n : ℤ) : int16 (int16 n) = int16 n := by
  rw [int16, int16, Int.bmod_bmod]

end BurdahDos
