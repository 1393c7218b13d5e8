import BurdahDos.Dir.View
import Mathlib

/-!
# Calls that return

`alloc_find_free` walks the path a second time, and uses a null pointer if this fails.  It does not
fail if all accesses succeed, so that `dos_open` returns, and `dos_close` succeeds.
-/

set_option autoImplicit false

namespace BurdahDos
namespace Dir

open Fat File

variable {v : Volume} {path : Path}

/-! ## Opening -/

/-- Which name was compared last before does not matter for whether a path leads anywhere. -/
theorem Leads.of_name {split : Bool} {dirname : Path} {s s' t : ℕ × Name}
    (h : Leads v split dirname s s') (ht : t.1 = s.1) : ∃ t', Leads v split dirname t t' := by
  cases h with
  | nil => exact ⟨t, .nil t⟩
  | root c => exact ⟨t, .root c t⟩
  | last c dirname _ hne hsplit hnil => exact ⟨_, .last c dirname t hne hsplit hnil⟩
  | step c dirname _ s' n e hne hnot hfinds hdir hrest =>
    exact ⟨s', .step c dirname t s' n e hne hnot (ht ▸ hfinds) hdir hrest⟩

theorem Splits.of_name {pat : Name} {s : ℕ × Name} (h : Splits v path pat s) (pat' : Name) :
    ∃ s', Splits v path pat' s' :=
  (h.2.of_name (t := (startOf v.dpb 0, pat')) rfl).imp fun _ h' => ⟨h.1, h'⟩

/-- `split_path` does not fail where the path leads somewhere and all accesses succeed. -/
theorem splitPath_of_splits (hs : Sound v) {pat : Name} {s : ℕ × Name} (h : Splits v path pat s)
    (fnp : FNode) : (splitPath v fnp path).1 = true := by
  obtain ⟨s', hs'⟩ := h.of_name fnp.dmNamePat
  rcases (splitPath_spec v fnp path).result with ⟨hrc, -⟩ | ⟨-, hnone⟩
  · exact hrc
  · exact absurd hs' (hnone.resolve_left (not_not.mpr hs) s')

theorem allocFindFree_returns (hs : Sound v) {pat : Name} {s : ℕ × Name} (h : Splits v path pat s)
    (fnp : FNode) : (allocFindFree v fnp path).1 ≠ none := by
  rw [allocFindFree]
  simp only [splitPath_of_splits hs h fnp, Bool.not_true, Bool.false_eq_true, if_false]
  split
  · exact Option.some_ne_none _
  · split <;> exact Option.some_ne_none _

/-- `dos_open` returns, all accesses succeeding. -/
theorem dosOpen_returns {s : System} (hs : Sound s.vol) (path : Path) (flags : ℕ) (attrib : UInt8)
    (fd : ℕ) : (dosOpen s path flags attrib fd).1 ≠ none := by
  have hprepare : (prepareOpen s.vol (sftToFnode s fd) path flags attrib).1 ≠ none := by
    have hfound := findFname_spec s.vol (sftToFnode s fd) path (dAll ||| attrib)
    rw [prepareOpen]
    generalize findFname s.vol (sftToFnode s fd) path (dAll ||| attrib) = r at hfound ⊢
    have hvol := hfound.readOnly.eq_of_sound hs
    dsimp only
    split
    · split
      · split <;> exact Option.some_ne_none _
      · split
        · split <;> exact Option.some_ne_none _
        · exact Option.some_ne_none _
    · split
      · rename_i hcreat
        rcases hfound.result with ⟨-, -, t, ht, -⟩ | ⟨hrc, -⟩
        · dsimp only
          split
          · exact Option.some_ne_none _
          · rw [hvol]
            exact allocFindFree_returns hs ht _
        · rw [hrc] at hcreat
          exact absurd hcreat.1 (by decide)
      · exact Option.some_ne_none _
  rw [dosOpen]
  generalize prepareOpen s.vol (sftToFnode s fd) path flags attrib = p at hprepare ⊢
  dsimp only
  split
  · rename_i h
    exact absurd h hprepare
  · split
    · exact Option.some_ne_none _
    · split
      · exact Option.some_ne_none _
      · split <;> exact Option.some_ne_none _

/-! ## Closing -/

theorem flushSector_sound (hs : Sound v) (disk : ℕ → ℕ → UInt8) (sector : ℕ) :
    (flushSector v disk sector).1 = true := by
  rw [flushSector, access_of_sound hs]

theorem dirWriteUpdate_sound (hs : Sound v) (fnp : FNode) (update : Bool) :
    (dirWriteUpdate v fnp update).1 = true := by
  rw [dirWriteUpdate]
  split
  · dsimp only
    rw [access_of_sound hs]
    exact flushSector_sound ((access_readOnly v).sound hs) _ _
  · rw [Volume.flushBuffers]
    dsimp only
    rw [access_of_sound hs]
    rfl

theorem access_sound (hs : Sound v) : Sound v.access.2 := (access_readOnly v).sound hs

theorem dirWriteUpdate_vol (hs : Sound v) (fnp : FNode) (update : Bool) :
    Sound (dirWriteUpdate v fnp update).2 := by
  rw [dirWriteUpdate]
  split
  · dsimp only
    rw [access_of_sound hs, Option.isSome_none, if_neg Bool.false_ne_true, flushSector,
      access_of_sound (access_sound hs)]
    exact access_sound (access_sound hs)
  · exact access_sound hs

/-- `dos_close` succeeds, all accesses succeeding. -/
theorem dosClose_sound {s : System} (hs : Sound s.vol) (fd : ℕ) : (dosClose s fd).1 = success := by
  have hmerge (c : Prop) [Decidable c] (fnp : FNode) :
      (if c then s else mergeFileChanges s fnp).vol = s.vol := by split <;> rfl
  rw [dosClose]
  dsimp only
  rw [hmerge, dirWriteUpdate_sound hs, if_pos rfl]

theorem dosClose_vol {s : System} (hs : Sound s.vol) (fd : ℕ) : Sound (dosClose s fd).2.vol := by
  have hmerge (c : Prop) [Decidable c] (fnp : FNode) :
      (if c then s else mergeFileChanges s fnp).vol = s.vol := by split <;> rfl
  rw [dosClose]
  dsimp only
  rw [hmerge]
  exact dirWriteUpdate_vol hs _ true

end Dir
end BurdahDos
