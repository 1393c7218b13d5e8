import Mathlib

/-!
# Runs of a deterministic state machine

A machine is a function `step : σ → ρ → σ`, and a run is a list of requests fed to it.  Three
inductions over runs are all that the developments below need.

* `inv_run`: what every allowed step keeps holds at the end of every allowed run.
* `along_iff`: two conditions on a step that agree wherever an invariant holds agree along a run.
* `always_iff`: when a property survives a step exactly if the step meets a condition, it holds all
  along a run exactly if every step of the run meets that condition.
-/

set_option autoImplicit false

namespace BurdahDos

variable {σ ρ : Type*} (step : σ → ρ → σ)

/-- The state after the requests `reqs`. -/
def runSteps (s : σ) (reqs : List ρ) : σ := reqs.foldl step s

@[simp] theorem runSteps_nil (s : σ) : runSteps step s [] = s := rfl

@[simp] theorem runSteps_cons (s : σ) (r : ρ) (reqs : List ρ) :
    runSteps step s (r :: reqs) = runSteps step (step s r) reqs := rfl

/-- Every request of the run meets `ok` in the state in which it is made. -/
def Along (ok : σ → ρ → Prop) : σ → List ρ → Prop
  | _, [] => True
  | s, r :: reqs => ok s r ∧ Along ok (step s r) reqs

variable {step}

theorem Along.of_prefix {ok : σ → ρ → Prop} {s : σ} {pre reqs : List ρ}
    (h : Along step ok s reqs) (hp : pre <+: reqs) : Along step ok s pre := by
  induction reqs generalizing s pre with
  | nil => rw [List.prefix_nil.mp hp]; trivial
  | cons r reqs ih =>
    rcases List.prefix_cons_iff.mp hp with rfl | ⟨rest, rfl, hrest⟩
    · trivial
    · exact ⟨h.1, ih h.2 hrest⟩

theorem Along.and {ok ok' : σ → ρ → Prop} {s : σ} {reqs : List ρ} (h : Along step ok s reqs)
    (h' : Along step ok' s reqs) : Along step (fun s r => ok s r ∧ ok' s r) s reqs := by
  induction reqs generalizing s with
  | nil => trivial
  | cons r reqs ih => exact ⟨⟨h.1, h'.1⟩, ih h.2 h'.2⟩

/-- What every allowed step keeps, an allowed run keeps. -/
theorem inv_run {ok : σ → ρ → Prop} {I : σ → Prop}
    (hstep : ∀ s r, I s → ok s r → I (step s r)) {s : σ} {reqs : List ρ} (hs : I s)
    (h : Along step ok s reqs) : I (runSteps step s reqs) := by
  induction reqs generalizing s with
  | nil => exact hs
  | cons r reqs ih => exact ih (hstep s r hs h.1) h.2

instance Along.decidable {ok : σ → ρ → Prop} [hok : ∀ s r, Decidable (ok s r)] :
    ∀ (s : σ) (reqs : List ρ), Decidable (Along step ok s reqs)
  | _, [] => .isTrue trivial
  | s, r :: reqs => @instDecidableAnd _ _ (hok s r) (Along.decidable (step s r) reqs)

/-- **Two conditions on a step that agree under an invariant** which the steps meeting the second
one keep. -/
theorem along_iff (allowed : σ → ρ → Prop) {P ok : σ → ρ → Prop} {I : σ → Prop}
    (hI : ∀ s r, I s → allowed s r → ok s r → I (step s r))
    (hP : ∀ s r, I s → allowed s r → (P s r ↔ ok s r))
    {s : σ} {reqs : List ρ} (hs : I s) (h : Along step allowed s reqs) :
    Along step P s reqs ↔ Along step ok s reqs := by
  induction reqs generalizing s with
  | nil => exact Iff.rfl
  | cons r reqs ih =>
    have hiff := hP s r hs h.1
    refine ⟨fun hp => ?_, fun hp => ?_⟩
    · have hok := hiff.mp hp.1
      exact ⟨hok, (ih (hI s r hs h.1 hok) h.2).mp hp.2⟩
    · exact ⟨hiff.mpr hp.1, (ih (hI s r hs h.1 hp.1) h.2).mpr hp.2⟩

/-- A condition on a step that holds wherever an invariant of the allowed steps does. -/
theorem Along.of_inv {allowed P : σ → ρ → Prop} {I : σ → Prop}
    (hstep : ∀ s r, I s → allowed s r → I (step s r) ∧ P s r) {s : σ} {reqs : List ρ} (hs : I s)
    (h : Along step allowed s reqs) : Along step P s reqs := by
  induction reqs generalizing s with
  | nil => trivial
  | cons r reqs ih => exact ⟨(hstep s r hs h.1).2, ih (hstep s r hs h.1).1 h.2⟩

/-- **A property that survives exactly the steps meeting `ok`.**  `I` is an invariant of the allowed
steps which may be used to show that. -/
theorem always_iff {allowed ok : σ → ρ → Prop} {I P : σ → Prop}
    (hI : ∀ s r, I s → allowed s r → I (step s r))
    (hP : ∀ s r, I s → allowed s r → P s → (P (step s r) ↔ ok s r))
    {s : σ} {reqs : List ρ} (hs : I s) (hPs : P s) (h : Along step allowed s reqs) :
    (∀ pre, pre <+: reqs → P (runSteps step s pre)) ↔ Along step ok s reqs := by
  induction reqs generalizing s with
  | nil =>
    refine ⟨fun _ => trivial, fun _ pre hp => ?_⟩
    rwa [List.prefix_nil.mp hp]
  | cons r reqs ih =>
    have hiff := hP s r hs h.1 hPs
    constructor
    · intro hall
      have hr : P (step s r) := hall [r] (by simp)
      refine ⟨hiff.mp hr, (ih (hI s r hs h.1) hr h.2).mp fun pre hp => ?_⟩
      simpa using hall (r :: pre) (List.cons_prefix_cons.mpr ⟨rfl, hp⟩)
    · rintro ⟨hok, hall⟩ pre hp
      rcases List.prefix_cons_iff.mp hp with rfl | ⟨rest, rfl, hrest⟩
      · exact hPs
      · exact (ih (hI s r hs h.1) (hiff.mpr hok) h.2).mpr hall rest hrest

theorem along_true (s : σ) (reqs : List ρ) : Along step (fun _ _ => True) s reqs := by
  induction reqs generalizing s with
  | nil => trivial
  | cons r reqs ih => exact ⟨trivial, ih _⟩

end BurdahDos
