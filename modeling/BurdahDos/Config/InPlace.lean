import BurdahDos.Config.DoConfig
import BurdahDos.Lib.Lines
import Mathlib

/-!
# Files read in place

What the second pass is for: the pass-2 lines of the configuration file are executed in order, and
a file that is chained is read in place of the line that chains it.

* `inPlace`: the calls that there should be.
* `ended`: the calls for the lines that are ended, in a chained file and those that it chains.
* `ended_eq_iff`: these are the same exactly if the file is `Finished`.
-/

set_option autoImplicit false

namespace BurdahDos
namespace Config
namespace Chain

open CString

/-! ## Calls -/

/-- The handler of a pass-2 line, and its argument. -/
def handler (t : Str) : Option (Func × Bytes) :=
  let v := scan t
  let pEntry := lookUp commands v.szBuf
  if v.szBuf ≠ [] ∧ pEntry.pass = 2 then (argument pEntry.func v.pLine).map (pEntry.func, ·)
  else none

/-- What is stored of a line of a file. -/
def kept (l : Bytes) : Bytes := l.filter (· ≠ 13)

/-- The line, as it is in `szLine`. -/
def text (l : Bytes) : Str := cstr (kept l)

/-- A handler, and the line for which it is called. -/
abbrev Call := Func × Str

/-- The call that the journal tells of. -/
def Event.call? : Event → Option Call
  | .call func szLine _ => some (func, cstr szLine)
  | _ => none

/-- The calls of the journal. -/
def calls (journal : List Event) : List Call := journal.filterMap Event.call?

/-- The call for a line of a file. -/
def lineCall (l : Bytes) : Option Call := (handler (text l)).map fun h => (h.1, text l)

variable (files : Str → Option Bytes)

/-- The file that a line chains. -/
def chained (l : Bytes) : Option Bytes :=
  (handler (text l)).bind fun h => if h.1 = .cmdChain then files (cstr h.2) else none

/-- The call for a line, and those for the file that it chains. -/
def lineCalls (sub : Bytes → List Call) (l : Bytes) : List Call :=
  (lineCall l).toList ++ (chained files l).elim [] sub

/-! ## In place -/

/-- The calls for a file, where so many files may be open. -/
def inPlace : ℕ → Bytes → List Call
  | 0, _ => []
  | n + 1, f => (f.splitOn 10).flatMap (lineCalls files (inPlace n))

/-- The calls for the lines of a file that are ended. -/
def ended : ℕ → Bytes → List Call
  | 0, _ => []
  | n + 1, f => (f.splitOn 10).dropLast.flatMap (lineCalls files (ended n))

/-- There is no call for a last line that is not ended, of the file or of one that it chains. -/
def Finished : ℕ → Bytes → Prop
  | 0, _ => True
  | n + 1, f =>
    lineCall (lastLine 10 f) = none ∧ ∀ l ∈ f.splitOn 10, ∀ g ∈ chained files l, Finished n g

instance Finished.decidable : ∀ (n : ℕ) (f : Bytes), Decidable (Finished files n f)
  | 0, _ => .isTrue trivial
  | n + 1, _ =>
    have (g : Bytes) : Decidable (Finished files n g) := Finished.decidable n g
    inferInstanceAs (Decidable (_ ∧ _))

/-- The files that the main file chains are finished, and its last line, if that is not ended, does
not chain one. -/
def MainFinished (f : Bytes) : Prop :=
  chained files (lastLine 10 f) = none ∧
    ∀ l ∈ f.splitOn 10, ∀ g ∈ chained files l, Finished files maxChains g

instance (f : Bytes) : Decidable (MainFinished files f) := inferInstanceAs (Decidable (_ ∧ _))

/-! ## What is dropped -/

variable {files} {l f : Bytes} {n : ℕ}

theorem chained_none (h : lineCall l = none) : chained files l = none := by
  rw [lineCall, Option.map_eq_none_iff] at h
  rw [chained, h, Option.bind_none]

theorem lineCalls_eq_nil (sub : Bytes → List Call) :
    lineCalls files sub l = [] ↔ lineCall l = none := by
  rw [lineCalls]
  constructor
  · intro h
    rw [List.append_eq_nil_iff, Option.toList_eq_nil_iff] at h
    exact h.1
  · intro h
    rw [h, chained_none h]
    rfl

theorem lineCalls_sublist {sub sub' : Bytes → List Call}
    (h : ∀ g, List.Sublist (sub g) (sub' g)) (l : Bytes) :
    List.Sublist (lineCalls files sub l) (lineCalls files sub' l) := by
  refine List.Sublist.append_left ?_ _
  cases chained files l with
  | none => exact List.Sublist.refl _
  | some g => exact h g

theorem lineCalls_congr {sub sub' : Bytes → List Call} :
    lineCalls files sub l = lineCalls files sub' l ↔ ∀ g ∈ chained files l, sub g = sub' g := by
  rw [lineCalls, lineCalls, List.append_cancel_left_eq]
  cases chained files l with
  | none => simp
  | some g => simp

theorem ended_sublist (n : ℕ) (f : Bytes) : List.Sublist (ended files n f) (inPlace files n f) := by
  induction n generalizing f with
  | zero => exact List.Sublist.refl _
  | succ n ih =>
    rw [ended, inPlace, splitOn_eq_lastLine 10 f, List.dropLast_concat, List.flatMap_append]
    exact (List.Sublist.flatMap_right _ fun l _ => lineCalls_sublist ih l).trans
      (List.sublist_append_left _ _)

/-- The calls for lines that are all ended. -/
theorem flatMap_ended_iff (ih : ∀ g, ended files n g = inPlace files n g ↔ Finished files n g)
    (ls : List Bytes) :
    ls.flatMap (lineCalls files (ended files n)) = ls.flatMap (lineCalls files (inPlace files n)) ↔
      ∀ l ∈ ls, ∀ g ∈ chained files l, Finished files n g := by
  rw [flatMap_eq_iff fun l _ => lineCalls_sublist (ended_sublist n) l]
  simp only [lineCalls_congr, ih]

/-- **Nothing is dropped** of a file exactly if it is finished. -/
theorem ended_eq_iff (n : ℕ) (f : Bytes) :
    ended files n f = inPlace files n f ↔ Finished files n f := by
  induction n generalizing f with
  | zero => exact iff_of_true rfl trivial
  | succ n ih =>
    have hlast : (∀ l ∈ f.splitOn 10, ∀ g ∈ chained files l, Finished files n g) ↔
        (∀ l ∈ (f.splitOn 10).dropLast, ∀ g ∈ chained files l, Finished files n g) ∧
          ∀ g ∈ chained files (lastLine 10 f), Finished files n g := by
      conv_lhs => rw [splitOn_eq_lastLine 10 f]
      rw [List.forall_mem_append, List.forall_mem_singleton]
    rw [ended, inPlace, Finished, hlast, ← flatMap_ended_iff ih]
    conv_lhs => rw [splitOn_eq_lastLine 10 f, List.dropLast_concat, List.flatMap_append]
    rw [List.flatMap_singleton]
    have hsub : List.Sublist
        ((f.splitOn 10).dropLast.flatMap (lineCalls files (ended files n)))
        ((f.splitOn 10).dropLast.flatMap (lineCalls files (inPlace files n))) :=
      List.Sublist.flatMap_right _ fun l _ => lineCalls_sublist (ended_sublist n) l
    constructor
    · intro heq
      have hlen := congrArg List.length heq
      have hle := hsub.length_le
      rw [List.length_append] at hlen
      have hnil := List.length_eq_zero_iff.1
        (show (lineCalls files (inPlace files n) (lastLine 10 f)).length = 0 by omega)
      have hcall := (lineCalls_eq_nil _).1 hnil
      refine ⟨hcall, by rw [heq, hnil, List.append_nil], ?_⟩
      rw [chained_none hcall]
      exact fun g hg => absurd hg (by simp)
    · rintro ⟨hcall, heq, -⟩
      rw [heq, (lineCalls_eq_nil _).2 hcall, List.append_nil]

end Chain
end Config
end BurdahDos
