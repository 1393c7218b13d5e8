import BurdahDos.Cache.Coherence
import Mathlib

/-!
# The pointers that `getblk` hands out

A caller works on the buffer that `getblk` returned last, and may still work on the one before.
`searchblock` sees to it: with two buffers or more it does not give up the first one, unless that
has been released.  A pointer stays good until something else is asked of the cache, whatever
transfers fail.
-/

set_option autoImplicit false

namespace BurdahDos
namespace Cache

variable {β : Type*} {bufs : List (Buffer β)} {b : Buffer β}

/-! ## Two pointers at a time -/

theorem kept_some {i j : ℕ} (h : b.kept i = some j) : j = i := by
  rw [Buffer.kept] at h
  split at h
  · exact nomatch h
  · exact (Option.some.inj h).symm

/-- The variables of `searchblock` say where a buffer of their kind is. -/
theorem scan_found {blkno : UInt32} {dsk i j : ℕ} {a a' : Scan}
    (h : scan blkno dsk bufs i a = .inr a') :
    (a'.uncacheBuf = some j → a.uncacheBuf = some j ∨
        i ≤ j ∧ ∃ b, bufs[j - i]? = some b ∧ b.bFlag.uncache = true) ∧
      (a'.lastNonFat = some j → a.lastNonFat = some j ∨
        i ≤ j ∧ ∃ b, bufs[j - i]? = some b ∧ b.bFlag.fat = false) := by
  induction bufs generalizing i a with
  | nil => cases h; exact ⟨Or.inl, Or.inl⟩
  | cons b bufs ih =>
    rw [scan] at h
    split at h
    · cases h
    · obtain ⟨hu, hf⟩ := ih h
      have hnext {P : Buffer β → Prop} (hj : i + 1 ≤ j ∧ ∃ c, bufs[j - (i + 1)]? = some c ∧ P c) :
          i ≤ j ∧ ∃ c, (b :: bufs)[j - i]? = some c ∧ P c := by
        obtain ⟨hle, c, hc, hP⟩ := hj
        refine ⟨by omega, c, ?_, hP⟩
        rwa [show j - i = (j - (i + 1)) + 1 by omega, List.getElem?_cons_succ]
      refine ⟨fun hj => ?_, fun hj => ?_⟩
      · rcases hu hj with hj | hj
        · dsimp only at hj
          split at hj
          · rename_i hb
            rw [kept_some hj]
            exact Or.inr ⟨Nat.le_refl _, b, by simp, hb⟩
          · exact Or.inl hj
        · exact Or.inr (hnext hj)
      · rcases hf hj with hj | hj
        · dsimp only at hj
          split at hj
          · exact Or.inl hj
          · rename_i hb
            rw [kept_some hj]
            exact Or.inr ⟨Nat.le_refl _, b, by simp, by simpa using hb⟩
        · exact Or.inr (hnext hj)

/-- **The buffer returned last is not taken for another block**, given a second one, unless its
caller has released it.  So a caller can work on two blocks at a time. -/
theorem searchblock_keeps_first {blkno : UInt32} {dsk i : ℕ} {bp : Buffer β}
    {rest : List (Buffer β)} (hlen : 1 < bufs.length) (hhead : bufs[0]? = some b)
    (hu : b.bFlag.uncache = false) (hother : b.holds blkno dsk = false)
    (h : searchblock blkno dsk bufs = some (i, bp, rest)) : i ≠ 0 := by
  rintro rfl
  rw [searchblock] at h
  obtain ⟨c, hc, heq⟩ := Option.map_eq_some_iff.mp h
  have hi := congrArg (·.1) heq
  dsimp only at hi
  split at hi
  · rename_i j hs
    obtain ⟨-, c, hc, hh⟩ := scan_inl hs
    rw [show j = 0 from hi, hhead] at hc
    cases hc
    rw [hother] at hh
    exact Bool.false_ne_true hh
  · rename_i a hs
    rw [replaced] at hi
    dsimp only at hi
    split at hi
    · rename_i j hj
      obtain h0 | ⟨-, c, hc, hcu⟩ := (scan_found hs).1 hj
      · cases h0
      · rw [hi, hhead] at hc
        cases hc
        rw [hu] at hcu
        exact Bool.false_ne_true hcu
    · split at hi
      · rename_i j hlow hj
        obtain h0 | ⟨-, c, hc, hcf⟩ := (scan_found hs).2 hj
        · cases h0
        · rw [hi, hhead] at hc
          cases hc
          rw [List.head?_eq_getElem?, hhead] at hlow
          simp [hcf] at hlow
      · omega

/-! ## The pointers, whatever fails -/

/-- The pointers in use point to the blocks they were returned for. -/
def State.HeldOk (s : State β) : Prop :=
  ∀ (i : ℕ) (k : Key), s.held[i]? = some k →
    ∃ b, s.bufs[i]? = some b ∧ b.bFlag.valid = true ∧ b.key = k

/-- **A block that `getblk` returns** is at the front, marked valid and not to be released, and the
other buffers have kept their order. -/
theorem getblk_some {s : State β} {blkno : UInt32} {dsk : ℕ} {overwrite : Bool} {read : Option β}
    {bp : Buffer β} (h : (getblk s blkno dsk overwrite read).1 = some bp) :
    ∃ i b, searchblock blkno dsk s.bufs = some (i, b, s.bufs.eraseIdx i) ∧
      (getblk s blkno dsk overwrite read).2.bufs = bp :: s.bufs.eraseIdx i ∧
      (getblk s blkno dsk overwrite read).2.held = s.holding (dsk, blkno) i ∧
      bp.bFlag.valid = true ∧ bp.key = (dsk, blkno) ∧ bp.bFlag.uncache = false := by
  have hf := getblk_fetched s blkno dsk overwrite read
  generalize getblk s blkno dsk overwrite read = r at h hf
  cases hf with
  | noBuffer => exact nomatch h
  | hit hs _ hholds =>
    cases h
    obtain ⟨hv, hkey⟩ := holds_iff.mp hholds
    exact ⟨_, _, hs, rfl, rfl, hv, hkey, rfl⟩
  | flushFailed => exact nomatch h
  | readFailed => exact nomatch h
  | filled hs _ _ _ _ hbp =>
    cases h
    exact ⟨_, _, hs, rfl, rfl, by rw [hbp], by rw [hbp]; rfl, by rw [hbp]; rfl⟩

theorem getblk_none {s : State β} {blkno : UInt32} {dsk : ℕ} {overwrite : Bool} {read : Option β}
    (h : (getblk s blkno dsk overwrite read).1 = none) :
    (getblk s blkno dsk overwrite read).2.held = [] := by
  have hf := getblk_fetched s blkno dsk overwrite read
  generalize getblk s blkno dsk overwrite read = r at h hf
  cases hf with
  | noBuffer => rfl
  | hit => exact nomatch h
  | flushFailed => rfl
  | readFailed => rfl
  | filled => exact nomatch h

/-- Every request keeps the pointers good. -/
theorem serve_heldOk {s : State β} (h : s.HeldOk) (r : Request β) : (serve s r).HeldOk := by
  cases r with
  | getblk blkno dsk overwrite read =>
    rw [serve]
    cases hres : (getblk s blkno dsk overwrite read).1 with
    | none =>
      intro i k hi
      rw [getblk_none hres] at hi
      cases hi
    | some bp =>
      obtain ⟨i, -, -, hbufs, hheld, hv, hk, -⟩ := getblk_some hres
      intro n k' hn
      rw [hheld] at hn
      rw [hbufs]
      exact held_holding h hv hk n k' hn
  | touch i m data uncache =>
    intro j k hj
    obtain ⟨b, hb, hv, hk⟩ := h j k hj
    obtain ⟨hkey, hvalid⟩ := touch_key b m data uncache
    simp only [serve, List.getElem?_modify, hb]
    split
    · exact ⟨_, rfl, hvalid, hkey.trans hk⟩
    · exact ⟨_, rfl, hv, hk⟩
  | flush1 i =>
    rw [serve]
    split
    · exact h
    · exact fun j k hj => held_nil _ j k hj
  | flushBuffers dsk => exact fun j k hj => held_nil _ j k hj
  | flush => exact fun j k hj => held_nil _ j k hj
  | transfer blknolow blknohigh dsk mode data ok =>
    cases mode with
    | read => exact fun j k hj => held_nil _ j k hj
    | write => cases ok <;> exact fun j k hj => held_nil _ j k hj

/-- **The pointers are good in every run**, whichever transfers fail. -/
theorem run_heldOk (n : ℕ) (buf : β) (disk : Key → β) (outcomes : List Bool)
    (reqs : List (Request β)) : (runSteps serve (.start n buf disk outcomes) reqs).HeldOk := by
  refine List.foldlRecOn (motive := State.HeldOk) reqs serve ?start fun s h r _ => ?step
  case start => exact fun i k hi => held_nil _ i k hi
  case step => exact serve_heldOk h r

end Cache
end BurdahDos
