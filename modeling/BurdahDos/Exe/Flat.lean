import BurdahDos.Exe.Defs
import Mathlib

/-!
# What exeflat writes

The chunks stand for the bytes of the image one after the other.  `relocate_spec` is about one
relocation; `exeflat_spec` is the result: what is written is the image with its relocations made, in
the order of the table.
-/

set_option autoImplicit false

namespace BurdahDos
namespace Exe

/-- The bytes of a list, by their positions. -/
def img (f : Bytes) : ℕ → UInt8 := fun i => f.getD i 0

theorem img_eq {f : Bytes} {i : ℕ} {b : UInt8} (h : f[i]? = some b) : img f i = b := by
  rw [img, List.getD_eq_getElem?_getD, h, Option.getD_some]

theorem img_set {f : Bytes} {a : ℕ} (h : a < f.length) (b : UInt8) (i : ℕ) :
    img (f.set a b) i = if i = a then b else img f i := by
  rw [img, img, List.getD_eq_getElem?_getD, List.getD_eq_getElem?_getD, List.getElem?_set]
  by_cases hi : a = i
  · rw [if_pos hi, if_pos (hi ▸ h), if_pos hi.symm, Option.getD_some]
  · rw [if_neg hi, if_neg (Ne.symm hi)]

theorem img_take {f : Bytes} {n i : ℕ} (h : i < n) : img (f.take n) i = img f i := by
  rw [img, img, List.getD_eq_getElem?_getD, List.getD_eq_getElem?_getD, List.getElem?_take_of_lt h]

/-! ## The relocations -/

/-- What the chunks have become: the image with fixups, in as many bytes. -/
structure Relocated (k : ℕ) (image : Bytes) (spots : List ℕ) (buffers : List Bytes) : Prop where
  chunked : Chunked bufSize buffers
  length : buffers.flatten.length = image.length
  img : img buffers.flatten = spots.foldl (addWord k) (img image)

/-- A relocation inside of the image adds the start segment to its word. -/
theorem relocate_spec {k : ℕ} {image : Bytes} {spots : List ℕ} {buffers : List Bytes}
    (h : Relocated k image spots buffers) {r : Farptr} (hr : r.spot + 1 < image.length) :
    ∃ buffers', relocate k buffers r = some buffers' ∧
      Relocated k image (spots ++ [r.spot]) buffers' := by
  have hsize : 0 < bufSize := by decide
  have hlen : r.spot + 1 < buffers.flatten.length := h.length ▸ hr
  have h0 := getAt_eq hsize h.chunked r.spot
  have h1 := getAt_eq hsize h.chunked (r.spot + 1)
  rw [List.getElem?_eq_getElem (by omega)] at h0
  rw [List.getElem?_eq_getElem hlen] at h1
  have hi0 : Exe.img buffers.flatten r.spot = buffers.flatten[r.spot] :=
    img_eq (List.getElem?_eq_getElem (by omega))
  have hi1 : Exe.img buffers.flatten (r.spot + 1) = buffers.flatten[r.spot + 1] :=
    img_eq (List.getElem?_eq_getElem hlen)
  obtain ⟨w, hw⟩ : ∃ w, (buffers.flatten[r.spot + 1].toNat * 256
      + buffers.flatten[r.spot].toNat + k) % 65536 = w := ⟨_, rfl⟩
  obtain ⟨hf, hc⟩ := setAt_flatten hsize h.chunked r.spot (UInt8.ofNat w)
  obtain ⟨hf', hc'⟩ := setAt_flatten hsize hc (r.spot + 1) (UInt8.ofNat (w / 256))
  refine ⟨_, by rw [relocate, h0, h1]; simp only [hw], hc', ?_, ?_⟩
  · rw [hf', hf, List.length_set, List.length_set, h.length]
  · funext i
    rw [hf', hf, img_set (by rw [List.length_set]; exact hlen), img_set (by omega),
      List.foldl_append, List.foldl_cons, List.foldl_nil, ← h.img, addWord, setWord, wordAt, hi0,
      hi1, Nat.mul_comm 256, Nat.add_comm (buffers.flatten[r.spot].toNat), hw]
    by_cases hi : i = r.spot
    · rw [if_neg (by omega), if_pos hi, if_pos hi]
    · rw [if_neg hi, if_neg hi]

theorem foldlM_relocate {k : ℕ} {image : Bytes} (rs : List Farptr) {spots : List ℕ}
    {buffers : List Bytes} (h : Relocated k image spots buffers)
    (hr : ∀ r ∈ rs, r.spot + 1 < image.length) :
    ∃ buffers', rs.foldlM (relocate k) buffers = some buffers' ∧
      Relocated k image (spots ++ rs.map Farptr.spot) buffers' := by
  induction rs generalizing spots buffers with
  | nil => exact ⟨buffers, rfl, by simpa using h⟩
  | cons r rs ih =>
    obtain ⟨b, hb, hrel⟩ := relocate_spec h (hr r List.mem_cons_self)
    obtain ⟨b', hb', hrel'⟩ := ih hrel fun s hs => hr s (List.mem_cons_of_mem _ hs)
    refine ⟨b', ?_, by simpa using hrel'⟩
    rw [List.foldlM_cons, hb]
    exact hb'

/-! ## The file -/

/-- The relocation table, when it is in the file. -/
def relocs (f : Bytes) : List Farptr :=
  (List.range (Header.ofBytes f).exRelocItems).map fun i =>
    .ofBytes f ((Header.ofBytes f).exRelocTable + i * 4)

/-- The image that a header describes. -/
def image (f : Bytes) : Bytes :=
  (f.drop ((Header.ofBytes f).exHeaderSize * 16)).take (Header.ofBytes f).size

/-- An EXE file with all that its header tells of: the image, and relocations inside of it that are
the same or do not overlap. -/
structure Proper (f : Bytes) : Prop where
  header : headerSize ≤ f.length
  magic : (Header.ofBytes f).exSignature = magic
  pages : 0 < (Header.ofBytes f).exPages
  headerLe : (Header.ofBytes f).exHeaderSize * 16
    ≤ ((Header.ofBytes f).exPages - 1) * 512 + (Header.ofBytes f).extra
  file : ((Header.ofBytes f).exPages - 1) * 512 + (Header.ofBytes f).extra ≤ f.length
  table : (Header.ofBytes f).exRelocTable + (Header.ofBytes f).exRelocItems * 4 ≤ f.length
  inside : ∀ r ∈ relocs f, r.off < 0xffff ∧ r.spot + 1 < (Header.ofBytes f).size
  apart : ∀ r ∈ relocs f, ∀ s ∈ relocs f, Apart r.spot s.spot

theorem wordOf_lt (f : Bytes) (i : ℕ) : wordOf f i < 65536 := by
  have h0 := (f.getD i 0).toNat_lt
  have h1 := (f.getD (i + 1) 0).toNat_lt
  rw [wordOf, wordAt]
  omega

theorem Header.extra_le (f : Bytes) : (Header.ofBytes f).extra ≤ 65535 := by
  have h := wordOf_lt f 2
  rw [Header.extra]
  split
  · omega
  · exact Nat.le_of_lt_succ h

/-- The size without wrapping around. -/
theorem Proper.size_eq {f : Bytes} (h : Proper f) : (Header.ofBytes f).size
    = ((Header.ofBytes f).exPages - 1) * 512 + (Header.ofBytes f).extra
      - (Header.ofBytes f).exHeaderSize * 16 := by
  have hp : (Header.ofBytes f).exPages < 65536 := wordOf_lt f 4
  have he := Header.extra_le f
  have h1 := h.pages
  have h2 := h.headerLe
  rw [Header.size]
  omega

theorem Proper.length_image {f : Bytes} (h : Proper f) :
    (image f).length = (Header.ofBytes f).size := by
  have hs := h.size_eq
  have hf := h.file
  rw [image, List.length_take, List.length_drop]
  omega

/-- **exeflat writes the image with its relocations made.** -/
theorem exeflat_spec {f : Bytes} (h : Proper f)
    (hz : (Header.ofBytes f).exRelocTable ≠ 0 ∨ (Header.ofBytes f).exRelocItems = 0) (k : ℕ) :
    ∃ flat, exeflat f k = some flat ∧ flat.length = (Header.ofBytes f).size ∧
      img flat = ((relocs f).map Farptr.spot).foldl (addWord k) (img (image f)) := by
  have hs := h.size_eq
  have hfile := h.file
  obtain ⟨buffers, hread, hflat, hchunked⟩ := chunksOf_spec
    (by decide : 0 < bufSize) (Header.ofBytes f).size (Header.ofBytes f).size
    (f.drop ((Header.ofBytes f).exHeaderSize * 16)) (Nat.le_refl _)
    (by rw [List.length_drop]; omega)
  have htable : (if (Header.ofBytes f).exRelocTable ≠ 0 ∧ (Header.ofBytes f).exRelocItems ≠ 0 then
      readRelocs f (Header.ofBytes f)
      else if (Header.ofBytes f).exRelocItems = 0 then some [] else none) = some (relocs f) := by
    by_cases h0 : (Header.ofBytes f).exRelocItems = 0
    · rw [if_neg (fun hc => hc.2 h0), if_pos h0, relocs, h0]
      rfl
    · rw [if_pos ⟨hz.resolve_right h0, h0⟩, readRelocs, if_neg (Nat.not_lt.2 h.table)]
      rfl
  have hperm := List.perm_insertionSort compReloc (relocs f)
  have hstart : Relocated k (image f) [] buffers :=
    ⟨hchunked, by rw [hflat]; rfl, by rw [hflat]; rfl⟩
  obtain ⟨out, hout, hrel⟩ := foldlM_relocate ((relocs f).insertionSort compReloc) hstart
    fun r hr => by
      rw [h.length_image]
      exact (h.inside r (hperm.mem_iff.1 hr)).2
  have hlen := hrel.length
  rw [h.length_image] at hlen
  have hwrite : writeChunks (Header.ofBytes f).size out = out.flatten := by
    rw [writeChunks, takeChunks_eq hrel.chunked, List.take_of_length_le (Nat.le_of_eq hlen)]
  refine ⟨out.flatten, ?_, hlen, ?_⟩
  · simp only [exeflat, readChunks, hread, htable, hout]
    rw [if_neg (not_or.2 ⟨Nat.not_lt.2 h.header, not_not.2 h.magic⟩), Option.map_some, hwrite]
  · rw [hrel.img, List.nil_append]
    refine foldl_addWord_perm (hperm.map Farptr.spot) ?_ _
    intro a ha b hb
    obtain ⟨r, hr, rfl⟩ := List.mem_map.1 ha
    obtain ⟨s, hs, rfl⟩ := List.mem_map.1 hb
    exact h.apart r (hperm.mem_iff.1 hr) s (hperm.mem_iff.1 hs)

end Exe
end BurdahDos
