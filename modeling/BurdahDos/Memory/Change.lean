import BurdahDos.Memory.Arena
import BurdahDos.Memory.Joined
import Mathlib

/-!
# Resizing a block

`DosMemChange` on a block of the chain can use the block and the free blocks that follow it at once,
headers included: that is the block's `room`.  It first joins these blocks if the block is to grow,
and what it does not need becomes a free block again, joined to the free ones behind it.  A request
for more leaves the block with all of its room.
-/

set_option autoImplicit false

namespace BurdahDos
namespace Memory

open Tiling

/-! ## Growing -/

/-- The free blocks at the front of a chain. -/
def freeRun (bs : List Mcb) : List Mcb := bs.takeWhile fun c => decide (Free c)

/-- The blocks behind these. -/
def afterRun (bs : List Mcb) : List Mcb := bs.dropWhile fun c => decide (Free c)

/-- How large the block `b` before the blocks `suf` can become. -/
def room (b : Mcb) (suf : List Mcb) : ℕ := b.mSize + total (freeRun suf)

variable {mem mem' : Mem} {a e : ℕ} {pre suf : List Mcb} {b c : Mcb}

theorem freeRun_append (bs : List Mcb) : freeRun bs ++ afterRun bs = bs :=
  List.takeWhile_append_dropWhile

theorem freeRun_cons (hc : Free c) : freeRun (c :: suf) = c :: freeRun suf :=
  List.takeWhile_cons_of_pos (decide_eq_true hc)

theorem afterRun_cons (hc : Free c) : afterRun (c :: suf) = afterRun suf :=
  List.dropWhile_cons_of_pos (decide_eq_true hc)

theorem freeRun_of_not_free (hc : ¬ Free c) : freeRun (c :: suf) = [] :=
  List.takeWhile_cons_of_neg (by simpa using hc)

theorem afterRun_of_not_free (hc : ¬ Free c) : afterRun (c :: suf) = c :: suf :=
  List.dropWhile_cons_of_neg (by simpa using hc)

theorem free_of_mem_freeRun {bs : List Mcb} (h : c ∈ freeRun bs) : Free c := by
  induction bs with
  | nil => cases h
  | cons b bs ih =>
    by_cases hb : Free b
    · rw [freeRun_cons hb] at h
      rcases List.mem_cons.mp h with rfl | h
      · exact hb
      · exact ih h
    · rw [freeRun_of_not_free hb] at h
      cases h

theorem freeRun_afterRun (bs : List Mcb) : freeRun (afterRun bs) = [] := by
  induction bs with
  | nil => rfl
  | cons c bs ih =>
    by_cases hc : Free c
    · rw [afterRun_cons hc, ih]
    · rw [afterRun_of_not_free hc, freeRun_of_not_free hc]

theorem afterRun_afterRun (bs : List Mcb) : afterRun (afterRun bs) = afterRun bs := by
  have := freeRun_append (afterRun bs)
  rwa [freeRun_afterRun, List.nil_append] at this

/-- What `joinMCBs` makes of a block `b` and the blocks behind it. -/
structure Grown (mem : Mem) (a e : ℕ) (pre : List Mcb) (b : Mcb) (suf : List Mcb) (mem' : Mem)
    (b' : Mcb) : Prop where
  tiled : Tiled mem' a (pre ++ b' :: afterRun suf) e
  size : b'.mSize = room b suf
  psp : b'.mPsp = b.mPsp
  name : b'.mName = b.mName
  frame : ∀ x, x < a + total pre ∨ e ≤ x → mem' x = mem x

theorem grown_nil (h : Tiled mem a (pre ++ b :: suf) e) (hs : freeRun suf = []) :
    Grown mem a e pre b suf mem b := by
  have hafter : afterRun suf = suf := by
    have := freeRun_append suf
    rwa [hs] at this
  exact ⟨by rwa [hafter], by rw [room, hs]; rfl, rfl, rfl, fun _ _ => rfl⟩

theorem joinLoop_grown (fuel : ℕ) (h : Tiled mem a (pre ++ b :: suf) e) (ha : 0 < a)
    (he : e ≤ 2 ^ 16) (hf : suf.length < fuel) :
    ∃ mem' b', joinLoop fuel mem (a + total pre) = some (success, mem') ∧
      Grown mem a e pre b suf mem' b' := by
  induction fuel generalizing mem b suf with
  | zero => exact absurd hf (Nat.not_lt_zero _)
  | succ fuel ih =>
    rw [joinLoop, mem_block h]
    rcases block_type h with ⟨rfl, ht⟩ | ⟨hs, ht⟩
    · rw [if_pos (by rw [ht]; decide)]
      exact ⟨mem, b, rfl, grown_nil h rfl⟩
    · rw [if_neg (by rw [ht]; decide), nxtMCB_eq h he hs]
      cases suf with
      | nil => exact absurd rfl hs
      | cons c suf =>
        have h' : Tiled mem a ((pre ++ [b]) ++ c :: suf) e := by simpa using h
        simp only [mem_block h']
        by_cases hc : Free c
        · have hvalid : mcbValid c = true := block_valid h' (block_small h' he (by omega))
          rw [if_neg (by simp [(mcbFree_iff c).mpr hc]), if_neg (by simp [hvalid])]
          have hend := block_end h
          have htot : a + total (pre ++ [b]) = a + total pre + (b.mSize + 1) := by
            simp only [total_append, total, size_mcb]; omega
          simp only [total, size_mcb] at hend
          obtain ⟨mem', b', heq, hg⟩ := ih (joinNext_tiled h he) (by simpa using hf)
          refine ⟨mem', b', heq, ?_, ?_, hg.psp, hg.name, fun x hx => ?_⟩
          · rw [afterRun_cons hc]
            exact hg.tiled
          · rw [hg.size, room, room, freeRun_cons hc, mergeMcb]
            simp only [total, size_mcb]
            omega
          · rw [hg.frame x hx, joinNext_apply h he, if_neg (by omega), if_neg (by omega)]
        · rw [if_pos (by simpa [mcbFree, Free] using hc)]
          exact ⟨mem, b, rfl, grown_nil h (freeRun_of_not_free hc)⟩

/-- **What `joinMCBs` does** to any block: the block gets all of its room. -/
theorem joinMCBs_grown (h : Tiled mem a (pre ++ b :: suf) e) (ha : 0 < a) (he : e ≤ 2 ^ 16) :
    ∃ mem' b', joinMCBs mem (a + total pre) = some (success, mem') ∧
      Grown mem a e pre b suf mem' b' :=
  joinLoop_grown chainFuel h ha he (suf_lt_fuel h he)

/-! ## Shrinking -/

variable {s s' : State} {size para : ℕ}

/-- The block has the size asked for and belongs to the current process.  The blocks before it and
those behind its room are the same; what lies between is free. -/
def Resized (s : State) (pre suf : List Mcb) (e size : ℕ) (s' : State) : Prop :=
  ∃ mem b' rest, s' = { s with mem := mem } ∧ Arena s' (pre ++ b' :: (rest ++ afterRun suf)) e ∧
    b'.mSize = size ∧ b'.mPsp = s.cuPsp ∧ (∀ c ∈ rest, Free c) ∧
    ∀ x, x < s.firstMcb + total pre ∨ e ≤ x → mem x = s.mem x

/-- The block gets a new owner. -/
theorem chown_resized {rest : List Mcb} (h : Arena s (pre ++ b :: (rest ++ afterRun suf)) e)
    (hsize : b.mSize = size) (hrest : ∀ c ∈ rest, Free c) :
    Resized s pre suf e size { s with
      mem := s.mem.modify (s.firstMcb + total pre) fun m => { m with mPsp := s.cuPsp } } := by
  have hend := block_end h.tiled
  have hmem := fun x => modify_apply s.mem (s.firstMcb + total pre) x
    fun m => { m with mPsp := s.cuPsp }
  obtain ⟨htiled, -⟩ := retag_spec h.tiled ((hmem _).trans (if_pos rfl))
    (by simp only [mem_block h.tiled]) (by simp only [mem_block h.tiled])
    fun x hx => (hmem x).trans (if_neg hx)
  exact ⟨_, _, rest, rfl, ⟨htiled, h.fits⟩, by simp only [mem_block h.tiled, hsize], rfl, hrest,
    fun x hx => (hmem x).trans (if_neg (by omega))⟩

theorem Resized.of_frame {mem : Mem} (h : Resized { s with mem := mem } pre suf e size s')
    (hframe : ∀ x, x < s.firstMcb + total pre ∨ e ≤ x → mem x = s.mem x) :
    Resized s pre suf e size s' := by
  obtain ⟨mem', b', rest, rfl, harena, hsize, hpsp, hrest, hframe'⟩ := h
  exact ⟨mem', b', rest, rfl, harena, hsize, hpsp, hrest,
    fun x hx => (hframe' x hx).trans (hframe x hx)⟩

/-- **What the shrinking of a block does**, exactly. -/
theorem shrinkTo_exact (h : Arena s (pre ++ b :: suf) e) (ha : 0 < s.firstMcb)
    (hle : size ≤ b.mSize) :
    ∃ answer s', shrinkTo s (s.firstMcb + total pre) size = some (answer, s') ∧
      answer.rc = success ∧ Resized s pre suf e size s' := by
  have hend := block_end h.tiled
  have hfits := h.fits
  rw [shrinkTo, mem_block h.tiled]
  by_cases hlt : size < b.mSize
  · rw [if_pos hlt]
    have hq : nxtMCBsize (s.firstMcb + total pre) size = s.firstMcb + total pre + (size + 1) :=
      Nat.mod_eq_of_lt (by omega)
    obtain ⟨b₁, b₂, ht, -, hsize, hfree⟩ := cutDown_spec h hlt
    have hcut := fun x => cutDown_apply (mem_block h.tiled) (by omega) hlt x
    -- the rest is the block after `pre` and the block that stays
    have hrest : s.firstMcb + total pre + (size + 1) = s.firstMcb + total (pre ++ [b₁]) := by
      simp only [total_append, total, size_mcb, hsize]; omega
    have ht' : Tiled (cutDown s.mem (s.firstMcb + total pre)
        (s.firstMcb + total pre + (size + 1)) size) s.firstMcb ((pre ++ [b₁]) ++ b₂ :: suf) e := by
      simpa using ht
    obtain ⟨mem', b₂', heq, hg⟩ := joinMCBs_grown ht' ha h.fits
    rw [← hrest] at heq
    simp only [hq, heq, ne_eq, not_true, if_false]
    have harena : Arena { s with mem := mem' } (pre ++ b₁ :: ([b₂'] ++ afterRun suf)) e :=
      ⟨by simpa using hg.tiled, h.fits⟩
    have hfree' : ∀ c ∈ [b₂'], Free c := by
      intro c hc
      rw [List.mem_singleton.mp hc]
      exact hg.psp.trans hfree
    refine ⟨_, _, rfl, rfl, (chown_resized harena hsize hfree').of_frame fun x hx => ?_⟩
    have hq' : s.firstMcb + total pre ≤ s.firstMcb + total (pre ++ [b₁]) := by
      rw [← hrest]
      omega
    rw [hg.frame x (by omega), hcut, if_neg (by omega), if_neg (by omega)]
  · rw [if_neg hlt]
    have h' : Arena s (pre ++ b :: (freeRun suf ++ afterRun suf)) e := by
      rwa [freeRun_append]
    exact ⟨_, _, rfl, rfl, chown_resized h' (by omega) fun c hc => free_of_mem_freeRun hc⟩

/-! ## `DosMemChange` -/

/-- The block has all of its room, and its owner; nothing else has changed. -/
def Stretched (s : State) (pre : List Mcb) (b : Mcb) (suf : List Mcb) (e : ℕ) (s' : State) : Prop :=
  ∃ mem b', s' = { s with mem := mem } ∧ Arena s' (pre ++ b' :: afterRun suf) e ∧
    b'.mPsp = b.mPsp ∧ b'.mName = b.mName ∧ b.mSize ≤ b'.mSize ∧ b'.mSize = room b suf ∧
    ∀ x, x < s.firstMcb + total pre ∨ e ≤ x → mem x = s.mem x

/-- What `DosMemChange` does to the block `b` of the chain. -/
theorem dosMemChange_cases (h : Arena s (pre ++ b :: suf) e) (ha : 0 < s.firstMcb)
    (hpara : sub16 para 1 = s.firstMcb + total pre) (size : ℕ) :
    ∃ answer s', dosMemChange s para size = some (answer, s') ∧
      (size ≤ room b suf ∧ answer.rc = success ∧ Resized s pre suf e size s' ∨
        room b suf < size ∧ answer.rc = deNomem ∧ answer.asize = some (room b suf) ∧
          Stretched s pre b suf e s') := by
  have hvalid : mcbValid b = true := block_valid h.tiled (block_small h.tiled h.fits (by omega))
  rw [dosMemChange, hpara, mem_block h.tiled]
  simp only [hvalid, Bool.not_true, Bool.false_eq_true, if_false]
  by_cases hgrow : size > b.mSize
  · rw [if_pos hgrow]
    obtain ⟨mem', b', heq, hg⟩ := joinMCBs_grown h.tiled ha h.fits
    have harena : Arena { s with mem := mem' } (pre ++ b' :: afterRun suf) e := ⟨hg.tiled, h.fits⟩
    simp only [heq, ne_eq, not_true, if_false, mem_block hg.tiled, hg.size]
    by_cases hbig : size > room b suf
    · rw [if_pos hbig]
      refine ⟨_, _, rfl, Or.inr ⟨hbig, rfl, rfl, mem', b', rfl, harena, hg.psp, hg.name, ?_,
        hg.size, hg.frame⟩⟩
      rw [hg.size, room]
      exact Nat.le_add_right _ _
    · rw [if_neg hbig]
      have hle : size ≤ b'.mSize := by rw [hg.size]; omega
      obtain ⟨answer, s', hs', hrc, hres⟩ := shrinkTo_exact harena ha hle
      refine ⟨answer, s', hs', Or.inl ⟨by omega, hrc, Resized.of_frame ?_ hg.frame⟩⟩
      rw [Resized, afterRun_afterRun] at hres
      exact hres
  · rw [if_neg hgrow]
    have hle : size ≤ b.mSize := by omega
    obtain ⟨answer, s', hs', hrc, hres⟩ := shrinkTo_exact h ha hle
    refine ⟨answer, s', hs', Or.inl ⟨?_, hrc, hres⟩⟩
    rw [room]
    omega

/-- `DosMemChange` succeeds. -/
def Succeeds (s : State) (para size : ℕ) : Prop :=
  ∃ answer s', dosMemChange s para size = some (answer, s') ∧ answer.rc = success

end Memory
end BurdahDos
