import BurdahDos.Lib.Fixup
import BurdahDos.Lib.Paged
import Mathlib

/-!
# EXE files

`exeflat` of `utils/exeflat.c`, without UPX, and the part of `DosExeLoader` of `kernel/task.c` that
brings the image into memory.  A file is the list of its bytes, and memory is a function of the
linear address.

Left out are the memory that the loader allocates, and what it puts into the PSP in front of the
image.  No access to a file fails but behind its end.
-/

set_option autoImplicit false

namespace BurdahDos
namespace Exe

abbrev Bytes := List UInt8

/-- A word of a file. -/
def wordOf (f : Bytes) (i : ℕ) : ℕ := wordAt (fun i => f.getD i 0) i

/-- `sizeof(exe_header)` -/
def headerSize : ℕ := 28
/-- `MAGIC` -/
def magic : ℕ := 0x5a4d

/-- The fields of `exe_header` that matter. -/
structure Header where
  exSignature : ℕ
  exExtraBytes : ℕ
  exPages : ℕ
  exRelocItems : ℕ
  exHeaderSize : ℕ
  exRelocTable : ℕ
deriving DecidableEq

def Header.ofBytes (f : Bytes) : Header where
  exSignature := wordOf f 0
  exExtraBytes := wordOf f 2
  exPages := wordOf f 4
  exRelocItems := wordOf f 6
  exHeaderSize := wordOf f 8
  exRelocTable := wordOf f 24

/-- `farptr` -/
structure Farptr where
  off : ℕ
  seg : ℕ
deriving DecidableEq

/-- An entry of the relocation table. -/
def Farptr.ofBytes (f : Bytes) (i : ℕ) : Farptr := ⟨wordOf f i, wordOf f (i + 2)⟩

/-- `((ULONG) seg << 4) + off` -/
def Farptr.spot (r : Farptr) : ℕ := r.seg * 16 + r.off

/-! ## exeflat -/

/-- `BUFSIZE` -/
def bufSize : ℕ := 32768

/-- `exExtraBytes`, where 0 stands for a full page. -/
def Header.extra (h : Header) : ℕ := if h.exExtraBytes = 0 then 0x200 else h.exExtraBytes

/-- The image size, a `ULONG`. -/
def Header.size (h : Header) : ℕ :=
  ((((h.exPages : ℤ) - 1) * 512 + h.extra - h.exHeaderSize * 16) % 2 ^ 32).toNat

/-- "First read file into memory chunks"; `none` is an error. -/
def readChunks (size : ℕ) (src : Bytes) : Option (List Bytes) := chunksOf bufSize size size src

/-- `compReloc` does not say that the first is behind the second. -/
def compReloc (r s : Farptr) : Prop := r.seg < s.seg ∨ r.seg = s.seg ∧ r.off ≤ s.off

instance : DecidableRel compReloc := fun _ _ => inferInstanceAs (Decidable (_ ∨ _ ∧ _))

/-- The entries of the relocation table; `none` is an error. -/
def readRelocs (f : Bytes) (h : Header) : Option (List Farptr) :=
  if f.length < h.exRelocTable + h.exRelocItems * 4 then none
  else some ((List.range h.exRelocItems).map fun i => .ofBytes f (h.exRelocTable + i * 4))

/-- A word is relocated; `none` is an access outside of the chunks. -/
def relocate (startSeg : ℕ) (buffers : List Bytes) (r : Farptr) : Option (List Bytes) :=
  match getAt bufSize buffers r.spot, getAt bufSize buffers (r.spot + 1) with
  | some spot0, some spot1 =>
    let segment := (spot1.toNat * 256 + spot0.toNat + startSeg) % 65536
    let buffers := setAt bufSize buffers r.spot (UInt8.ofNat segment)
    some (setAt bufSize buffers (r.spot + 1) (UInt8.ofNat (segment / 256)))
  | _, _ => none

/-- "Write dest file from memory chunks" -/
def writeChunks (size : ℕ) (buffers : List Bytes) : Bytes := takeChunks bufSize size buffers

/-- `exeflat`, for the start segment: what is written.  `none` is an error, or an uninitialized
pointer used. -/
def exeflat (f : Bytes) (startSeg : ℕ) : Option Bytes :=
  let h := Header.ofBytes f
  if f.length < headerSize ∨ h.exSignature ≠ magic then none
  else
    match readChunks h.size (f.drop (h.exHeaderSize * 16)) with
    | none => none
    | some buffers =>
      -- `reloc` is not set otherwise
      let relocs :=
        if h.exRelocTable ≠ 0 ∧ h.exRelocItems ≠ 0 then readRelocs f h
        else if h.exRelocItems = 0 then some [] else none
      match relocs with
      | none => none
      | some reloc =>
        ((reloc.insertionSort compReloc).foldlM (relocate startSeg) buffers).map
          (writeChunks h.size)

/-! ## DosExeLoader -/

/-- `CHUNK` -/
def chunk : ℕ := 32256

/-- The linear address of `MK_FP(seg, off)`, with the A20 line on or off. -/
def linear (a20 : Bool) (seg off : ℕ) : ℕ :=
  if a20 then seg * 16 + off else (seg * 16 + off) % 2 ^ 20

/-- Store bytes from `MK_FP(seg, off)` on. -/
def storeFar (a20 : Bool) (seg : ℕ) : ℕ → Bytes → (ℕ → UInt8) → ℕ → UInt8
  | _, [], mem => mem
  | off, b :: bs, mem =>
    storeFar a20 seg (off + 1) bs fun a => if a = linear a20 seg off then b else mem a

/-- `image_size`, without the PSP. -/
def Header.imageSize (h : Header) : ℕ :=
  (((h.exPages : ℤ) * 32 - h.exHeaderSize) % 65536).toNat

/-- "Read in the image in 32256 chunks" -/
def loadLoop (a20 : Bool) : ℕ → ℕ → ℕ → Bytes → (ℕ → UInt8) → ℕ → UInt8
  | 0, _, _, _, mem => mem
  | fuel + 1, exeSize, sp, src, mem =>
    let toRead := if exeSize < chunk / 16 then exeSize * 16 else chunk
    let mem := storeFar a20 sp 0 (src.take toRead) mem
    if src.length < toRead ∨ exeSize ≤ chunk / 16 then mem
    else
      loadLoop a20 fuel (exeSize - chunk / 16) ((sp + chunk / 16) % 65536) (src.drop toRead) mem

/-- `*spot += start_seg` -/
def fixup (a20 : Bool) (startSeg : ℕ) (mem : ℕ → UInt8) (r : Farptr) : ℕ → UInt8 :=
  let seg := (r.seg + startSeg) % 65536
  let lo := linear a20 seg r.off
  let hi := linear a20 seg ((r.off + 1) % 65536)
  let w := ((mem lo).toNat + 256 * (mem hi).toNat + startSeg) % 65536
  fun a => if a = hi then UInt8.ofNat (w / 256) else if a = lo then UInt8.ofNat w else mem a

/-- `DosExeLoader` from the loop on that reads the image: the memory, or `DE_INVLDDATA`. -/
def loadImage (a20 : Bool) (f : Bytes) (startSeg : ℕ) (mem : ℕ → UInt8) : Option (ℕ → UInt8) :=
  let h := Header.ofBytes f
  let mem := loadLoop a20 (h.imageSize + 1) h.imageSize startSeg (f.drop (h.exHeaderSize * 16)) mem
  (readRelocs f h).map fun relocs => relocs.foldl (fixup a20 startSeg) mem

end Exe
end BurdahDos
