import Mathlib

/-!
# Loops

`loop done turn n` is the loop `while (!done) turn`, given `n` turns at the most.  It has no outcome
when these are not enough, and when a turn has none.

* `Turns`: what the loop comes through.
* `Turns.ends`: a state that it comes to, and in which it is done, is its outcome.
-/

set_option autoImplicit false

namespace BurdahDos

variable {σ : Type*} {done : σ → Bool} {turn : σ → Option σ} {s s' s'' : σ}

/-- `while (!done) turn`, by `n` turns at the most. -/
def loop (done : σ → Bool) (turn : σ → Option σ) : ℕ → σ → Option σ
  | 0, s => if done s then some s else none
  | n + 1, s => if done s then some s else (turn s).bind (loop done turn n)

/-- The loop comes from the first state to the second. -/
inductive Turns (done : σ → Bool) (turn : σ → Option σ) : σ → σ → Prop
  | refl (s : σ) : Turns done turn s s
  | step {s s' s'' : σ} (hd : done s = false) (ht : turn s = some s')
      (hs : Turns done turn s' s'') : Turns done turn s s''

theorem Turns.trans (h : Turns done turn s s') (h' : Turns done turn s' s'') :
    Turns done turn s s'' := by
  induction h with
  | refl => exact h'
  | step hd ht _ ih => exact .step hd ht (ih h')

theorem Turns.single (hd : done s = false) (ht : turn s = some s') : Turns done turn s s' :=
  .step hd ht (.refl s')

theorem loop_done (hd : done s = true) (n : ℕ) : loop done turn n s = some s := by
  cases n <;> exact if_pos hd

/-- **The outcome of a loop.** -/
theorem Turns.ends (h : Turns done turn s s') (hd : done s' = true) :
    ∃ fuel, ∀ n ≥ fuel, loop done turn n s = some s' := by
  induction h with
  | refl => exact ⟨0, fun n _ => loop_done hd n⟩
  | @step s t s' hs ht _ ih =>
    obtain ⟨fuel, hfuel⟩ := ih hd
    refine ⟨fuel + 1, fun n hn => ?_⟩
    cases n with
    | zero => exact absurd hn (Nat.not_succ_le_zero fuel)
    | succ n =>
      rw [loop, if_neg (by rw [hs]; exact Bool.false_ne_true), ht, Option.bind_some]
      exact hfuel n (Nat.le_of_succ_le_succ hn)

end BurdahDos
