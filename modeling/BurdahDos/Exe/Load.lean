import BurdahDos.Exe.Flat
import Mathlib

/-!
# What the loader leaves in memory

`loadLoop_spec` says where the bytes of the file go, and `fixup_eq` that a relocation is a fixup of
the image, as long as the image ends below 1 MB.  `exeflat_load` is the main result: `exeflat` and
the loader agree.
-/

set_option autoImplicit false

namespace BurdahDos
namespace Exe

/-! ## Reading the image -/

/-- Below 1 MB the A20 line does not matter. -/
theorem linear_eq (a20 : Bool) {seg off : ℕ} (h : seg * 16 + off < 2 ^ 20) :
    linear a20 seg off = seg * 16 + off := by
  cases a20
  · exact Nat.mod_eq_of_lt h
  · rfl

/-- The memory with bytes from an address on. -/
def withBytes (mem : ℕ → UInt8) (a : ℕ) (bs : Bytes) : ℕ → UInt8 := fun x =>
  if a ≤ x ∧ x < a + bs.length then img bs (x - a) else mem x

theorem img_cons (b : UInt8) (bs : Bytes) (i : ℕ) : img (b :: bs) (i + 1) = img bs i := rfl

theorem storeFar_eq (a20 : Bool) (seg : ℕ) (bs : Bytes) (off : ℕ) (mem : ℕ → UInt8)
    (h : seg * 16 + off + bs.length ≤ 2 ^ 20) :
    storeFar a20 seg off bs mem = withBytes mem (seg * 16 + off) bs := by
  induction bs generalizing off mem with
  | nil =>
    funext x
    rw [storeFar, withBytes, List.length_nil, if_neg (by omega)]
  | cons b bs ih =>
    rw [List.length_cons] at h
    rw [storeFar, ih _ _ (by omega), linear_eq a20 (by omega)]
    funext x
    rw [withBytes, withBytes, List.length_cons]
    by_cases hx : seg * 16 + (off + 1) ≤ x ∧ x < seg * 16 + (off + 1) + bs.length
    · rw [if_pos hx, if_pos (by omega),
        show x - (seg * 16 + off) = x - (seg * 16 + (off + 1)) + 1 by omega, img_cons]
    · rw [if_neg hx]
      by_cases ha : x = seg * 16 + off
      · rw [if_pos ha, if_pos (by omega), ha, Nat.sub_self]
        rfl
      · rw [if_neg ha, if_neg (by omega)]

theorem withBytes_withBytes (mem : ℕ → UInt8) (a n : ℕ) (bs cs : Bytes) (hn : n = bs.length) :
    withBytes (withBytes mem a bs) (a + n) cs = withBytes mem a (bs ++ cs) := by
  funext x
  rw [withBytes, withBytes, withBytes, List.length_append, hn]
  by_cases h2 : a + bs.length ≤ x ∧ x < a + bs.length + cs.length
  · rw [if_pos h2, if_pos (by omega), img, img, List.getD_append_right _ _ _ _ (by omega)]
    congr 1
    omega
  · rw [if_neg h2]
    by_cases h1 : a ≤ x ∧ x < a + bs.length
    · rw [if_pos h1, if_pos (by omega), img, img, List.getD_append _ _ _ _ (by omega)]
    · rw [if_neg h1, if_neg (by omega)]

/-- **The bytes of the file go to memory one after the other.** -/
theorem loadLoop_spec (a20 : Bool) (fuel exeSize sp : ℕ) (src : Bytes) (mem : ℕ → UInt8)
    (hf : exeSize < fuel) (hs : sp + exeSize ≤ 65536) :
    loadLoop a20 fuel exeSize sp src mem = withBytes mem (sp * 16) (src.take (exeSize * 16)) := by
  induction fuel generalizing exeSize sp src mem with
  | zero => omega
  | succ fuel ih =>
    have hchunk : chunk / 16 = 2016 := rfl
    obtain ⟨n, hn⟩ : ∃ n, (if exeSize < 2016 then exeSize * 16 else chunk) = n := ⟨_, rfl⟩
    have hn' : n = min (exeSize * 16) 32256 := by
      rw [← hn]
      split
      · omega
      · rw [chunk]
        omega
    have hlen : (src.take n).length = min n src.length := List.length_take
    have hstore := storeFar_eq a20 sp (src.take n) 0 mem (by omega)
    rw [loadLoop]
    simp only [hchunk, hn, hstore, Nat.add_zero]
    by_cases hend : src.length < n ∨ exeSize ≤ 2016
    · rw [if_pos hend]
      congr 1
      rcases hend with hend | hend
      · rw [List.take_of_length_le (by omega), List.take_of_length_le (by omega)]
      · rw [show n = exeSize * 16 by omega]
    · rw [not_or, Nat.not_lt, Nat.not_le] at hend
      rw [if_neg (by omega), Nat.mod_eq_of_lt (by omega), ih _ _ _ _ (by omega) (by omega),
        show (sp + 2016) * 16 = sp * 16 + n by omega, withBytes_withBytes _ _ _ _ _ (by omega),
        ← List.take_add, show n + (exeSize - 2016) * 16 = exeSize * 16 by omega]

/-! ## The relocations -/

/-- A relocation is a fixup of the image. -/
theorem fixup_eq (a20 : Bool) {startSeg : ℕ} (mem : ℕ → UInt8) {r : Farptr} (ho : r.off < 0xffff)
    (hs : startSeg * 16 + r.spot + 1 < 2 ^ 20) :
    fixup a20 startSeg mem r = addWord startSeg mem (startSeg * 16 + r.spot) := by
  rw [Farptr.spot] at hs ⊢
  have hseg : (r.seg + startSeg) % 65536 = r.seg + startSeg := Nat.mod_eq_of_lt (by omega)
  have hlo : linear a20 (r.seg + startSeg) r.off = startSeg * 16 + (r.seg * 16 + r.off) := by
    rw [linear_eq a20 (by omega)]
    omega
  have hhi : linear a20 (r.seg + startSeg) ((r.off + 1) % 65536)
      = startSeg * 16 + (r.seg * 16 + r.off) + 1 := by
    rw [Nat.mod_eq_of_lt (by omega), linear_eq a20 (by omega)]
    omega
  funext x
  simp only [fixup, hseg, hlo, hhi]
  rw [addWord, setWord, wordAt]
  by_cases hx : x = startSeg * 16 + (r.seg * 16 + r.off)
  · rw [if_neg (by omega), if_pos hx, if_pos hx]
  · rw [if_neg hx, if_neg hx]

theorem foldl_fixup (a20 : Bool) {startSeg n : ℕ} (rs : List Farptr)
    (ho : ∀ r ∈ rs, r.off < 0xffff ∧ r.spot + 1 < n) (hn : startSeg * 16 + n ≤ 2 ^ 20)
    (mem : ℕ → UInt8) :
    rs.foldl (fixup a20 startSeg) mem
      = ((rs.map Farptr.spot).map (startSeg * 16 + ·)).foldl (addWord startSeg) mem := by
  induction rs generalizing mem with
  | nil => rfl
  | cons r rs ih =>
    have hr := ho r List.mem_cons_self
    rw [List.foldl_cons, List.map_cons, List.map_cons, List.foldl_cons,
      ih fun s hs => ho s (List.mem_cons_of_mem _ hs), fixup_eq a20 mem hr.1 (by omega)]

/-! ## Both -/

/-- The paragraphs of an image, for the loader. -/
theorem Proper.imageSize_eq {f : Bytes} (h : Proper f)
    (he : (Header.ofBytes f).exExtraBytes ≤ 512)
    (hn : (Header.ofBytes f).exPages * 32 - (Header.ofBytes f).exHeaderSize < 65536) :
    (Header.ofBytes f).imageSize
        = (Header.ofBytes f).exPages * 32 - (Header.ofBytes f).exHeaderSize
      ∧ (Header.ofBytes f).size ≤ (Header.ofBytes f).imageSize * 16 := by
  have hle := h.headerLe
  have hp := h.pages
  have hs := h.size_eq
  have hx : (Header.ofBytes f).extra ≤ 512 := by
    rw [Header.extra]
    split
    · exact Nat.le_refl _
    · exact he
  have hi : (Header.ofBytes f).imageSize
      = (Header.ofBytes f).exPages * 32 - (Header.ofBytes f).exHeaderSize := by
    rw [Header.imageSize]
    omega
  refine ⟨hi, ?_⟩
  omega

/-- An image with its last page, of less than 1 MB, that does not go beyond 1 MB. -/
structure Below (f : Bytes) (startSeg : ℕ) : Prop where
  size : (Header.ofBytes f).exPages * 32 - (Header.ofBytes f).exHeaderSize < 65536
  fits : startSeg + ((Header.ofBytes f).exPages * 32 - (Header.ofBytes f).exHeaderSize) ≤ 65536

/-- What is in memory from the start segment on is the file that exeflat writes. -/
def Agree (a20 : Bool) (f : Bytes) (startSeg : ℕ) (mem : ℕ → UInt8) : Prop :=
  ∃ flat mem', exeflat f startSeg = some flat ∧ loadImage a20 f startSeg mem = some mem' ∧
    flat.length = (Header.ofBytes f).size ∧
    ∀ i < (Header.ofBytes f).size, mem' (startSeg * 16 + i) = img flat i

/-- **exeflat and the loader agree**, on an image that ends below 1 MB. -/
theorem exeflat_load {f : Bytes} (h : Proper f) (he : (Header.ofBytes f).exExtraBytes ≤ 512)
    (hz : (Header.ofBytes f).exRelocTable ≠ 0 ∨ (Header.ofBytes f).exRelocItems = 0)
    {startSeg : ℕ} (hb : Below f startSeg) (a20 : Bool) (mem : ℕ → UInt8) :
    Agree a20 f startSeg mem := by
  obtain ⟨hi, hle⟩ := h.imageSize_eq he hb.size
  obtain ⟨flat, hflat, hlen, himg⟩ := exeflat_spec h hz startSeg
  have hfits := hb.fits
  have hload := loadLoop_spec a20 ((Header.ofBytes f).imageSize + 1) (Header.ofBytes f).imageSize
    startSeg (f.drop ((Header.ofBytes f).exHeaderSize * 16)) mem (by omega) (by omega)
  have hrelocs : readRelocs f (Header.ofBytes f) = some (relocs f) := by
    rw [readRelocs, if_neg (Nat.not_lt.2 h.table)]
    rfl
  refine ⟨flat, _, hflat, by rw [loadImage, hload, hrelocs]; rfl, hlen, fun i hin => ?_⟩
  simp only
  rw [foldl_fixup a20 (relocs f) h.inside (by omega), foldl_addWord_shift, himg]
  refine foldl_addWord_congr ?_ ?_ i hin
  · intro a ha
    obtain ⟨r, hr, rfl⟩ := List.mem_map.1 ha
    exact (h.inside r hr).2
  · -- the bytes of the image in memory
    intro j hj
    have hfile := h.file
    have hs := h.size_eq
    rw [withBytes, List.length_take, List.length_drop, if_pos (by omega), Nat.add_sub_cancel_left,
      image, img_take (by omega), img_take hj]

/-- A header of 28 bytes: `exExtraBytes`, one page, `exRelocItems`, and `exHeaderSize`. -/
def headerOf (extraLow extraHigh items size : UInt8) : Bytes :=
  [0x4d, 0x5a, extraLow, extraHigh, 1, 0, items, 0, size, 0] ++ List.replicate 14 0 ++ [28, 0, 0, 0]

/-- An image of two paragraphs, with a relocation in the second. -/
def twoParagraphs : Bytes := headerOf 64 0 1 2 ++ [0, 0, 1, 0] ++ List.replicate 32 0

/-- One in the second, one in the first, and the one in the second again. -/
def threeRelocs : Bytes :=
  headerOf 80 0 3 3 ++ [0, 0, 1, 0, 4, 0, 0, 0, 0, 0, 1, 0] ++ List.replicate 40 0

/-- An image of 8 bytes behind the page. -/
def behindPage : Bytes := headerOf 8 2 0 32 ++ List.replicate 484 0 ++ List.replicate 8 1

instance (f : Bytes) : Decidable (Proper f) :=
  decidable_of_iff
    (headerSize ≤ f.length ∧ (Header.ofBytes f).exSignature = magic
      ∧ 0 < (Header.ofBytes f).exPages
      ∧ (Header.ofBytes f).exHeaderSize * 16
        ≤ ((Header.ofBytes f).exPages - 1) * 512 + (Header.ofBytes f).extra
      ∧ ((Header.ofBytes f).exPages - 1) * 512 + (Header.ofBytes f).extra ≤ f.length
      ∧ (Header.ofBytes f).exRelocTable + (Header.ofBytes f).exRelocItems * 4 ≤ f.length
      ∧ (∀ r ∈ relocs f, r.off < 0xffff ∧ r.spot + 1 < (Header.ofBytes f).size)
      ∧ ∀ r ∈ relocs f, ∀ s ∈ relocs f, Apart r.spot s.spot)
    ⟨fun ⟨h1, h2, h3, h4, h5, h6, h7, h8⟩ => ⟨h1, h2, h3, h4, h5, h6, h7, h8⟩,
      fun h => ⟨h.1, h.2, h.3, h.4, h.5, h.6, h.7, h.8⟩⟩

/-- In 4 the start segment, and in 16 it is twice. -/
theorem exeflat_load_relocs : Agree true threeRelocs 0x123 (fun _ => 0) ∧
    (exeflat threeRelocs 0x123).map (fun flat => [img flat 4, img flat 5, img flat 16, img flat 17])
      = some [0x23, 0x01, 0x46, 0x02] :=
  ⟨exeflat_load (by decide) (by decide) (by decide) ⟨by decide, by decide⟩ true fun _ => 0,
    by decide⟩

/-- A byte in which the file and the memory differ. -/
theorem not_agree {a20 : Bool} {f : Bytes} {startSeg : ℕ} {mem : ℕ → UInt8} (i : ℕ) (b c : UInt8)
    (hi : i < (Header.ofBytes f).size)
    (hb : (exeflat f startSeg).map (fun flat => img flat i) = some b)
    (hc : (loadImage a20 f startSeg mem).map (fun mem' => mem' (startSeg * 16 + i)) = some c)
    (hne : c ≠ b) : ¬Agree a20 f startSeg mem := by
  rintro ⟨flat, mem', hflat, hmem, _, hall⟩
  rw [hflat, Option.map_some, Option.some.injEq] at hb
  rw [hmem, Option.map_some, Option.some.injEq] at hc
  exact hne (hc.symm.trans ((hall i hi).trans hb))

set_option maxRecDepth 8000 in
/-- Not beyond 1 MB, where the relocation goes to segment 0, nor with more bytes in the last page
than a page has, which the loader does not read. -/
theorem exeflat_differs :
    (Proper twoParagraphs ∧ ¬Agree true twoParagraphs 0xffff fun _ => 0) ∧
      Proper behindPage ∧ ¬Agree true behindPage 0x100 fun _ => 0 := by
  refine ⟨⟨by decide, ?_⟩, by decide, ?_⟩
  · exact not_agree 16 0xff 0 (by decide) (by decide) (by decide) (by decide)
  · exact not_agree 0 1 0 (by decide) (by decide) (by decide) (by decide)

end Exe
end BurdahDos
