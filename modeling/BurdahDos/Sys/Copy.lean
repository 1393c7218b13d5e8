import Mathlib

/-!
# Copying a system file

`copy` of `sys/sys.c`, with `alloc_dos_mem`: the source is read into one block of memory and
written from there.  What DOS returns is given by an `Env`; a `read` or a `write` that fails
returns 0xffff, as an `unsigned`.  Memory is by linear addresses, and the contents of the block and
of what is behind `copybuffer` are arbitrary at first.  `outside` records a store outside the
block.
-/

set_option autoImplicit false

namespace BurdahDos
namespace Sys

abbrev Str := List UInt8

/-! ## Far pointers -/

/-- A far pointer. -/
structure Far where
  seg : ℕ
  off : ℕ

def Far.linear (p : Far) : ℕ := p.seg * 16 + p.off

/-- `bufptr++`, and the adjustment behind it. -/
def Far.advance (p : Far) : Far :=
  let off := (p.off + 1) % 65536
  if 0x7777 < off then ⟨(p.seg + 0x700) % 65536, off - 0x7000⟩ else ⟨p.seg, off⟩

/-! ## The environment -/

/-- `COPY_SIZE` -/
def copySize : ℕ := 0x4000

/-- The size of the next chunk. -/
def chunkSize (filesize copied : ℕ) : ℕ :=
  let rest := (filesize + 2 ^ 32 - copied) % 2 ^ 32
  if copySize < rest then copySize else rest

/-- The paragraphs that `alloc_dos_mem` asks for. -/
def paragraphs (memsize : ℕ) : ℕ := (memsize + 15) % 2 ^ 32 / 16 % 65536

/-- What `read` returns if it fails. -/
def readError : ℕ := 0xffff

/-- What the first reads have returned, in total. -/
def total (reads : ℕ → UInt16) : ℕ → ℕ
  | 0 => 0
  | n + 1 => total reads n + (reads n).toNat

/-- The position in the source after the first reads. -/
def position (reads : ℕ → UInt16) : ℕ → ℕ
  | 0 => 0
  | n + 1 => position reads n + if (reads n).toNat = readError then 0 else (reads n).toNat

/-- What DOS and the C library return. -/
structure Env where
  /-- `stricmp(src, dest) == 0` -/
  identical : Bool
  /-- The source could be opened. -/
  opened : Bool
  /-- `check_space` -/
  space : Bool
  /-- The destination could be created. -/
  created : Bool
  source : Str
  source_lt : source.length < 2 ^ 32
  /-- The segment of the block, if there is memory. -/
  block : Option UInt16
  /-- The block is below 1 MB. -/
  block_le : ∀ seg, block = some seg → seg.toNat + paragraphs source.length ≤ 65536
  /-- What the reads return. -/
  reads : ℕ → UInt16
  /-- A read returns what it is asked for at most, and what there is. -/
  reads_le : ∀ n, (reads n).toNat = readError ∨
    (reads n).toNat ≤ chunkSize source.length (total reads n % 2 ^ 32) ∧
      position reads n + (reads n).toNat ≤ source.length
  /-- What the writes return. -/
  writes : ℕ → UInt16

def Env.filesize (e : Env) : ℕ := e.source.length

/-- The size of the block in bytes. -/
def Env.blockBytes (e : Env) : ℕ := paragraphs e.filesize * 16

/-! ## Reading -/

structure Stored where
  bufptr : Far
  mem : ℕ → UInt8
  outside : Bool

/-- A byte is stored at `bufptr`; the block begins at `lo`. -/
def Stored.put (lo size : ℕ) (s : Stored) (c : UInt8) : Stored :=
  ⟨s.bufptr.advance, Function.update s.mem s.bufptr.linear c,
    s.outside || !(decide (lo ≤ s.bufptr.linear) && decide (s.bufptr.linear < lo + size))⟩

/-- The loop that stores the bytes of `copybuffer` from `offs` on. -/
def storeLoop (lo size : ℕ) (copybuffer : ℕ → UInt8) : ℕ → ℕ → Stored → Stored
  | 0, _, s => s
  | k + 1, offs, s => storeLoop lo size copybuffer k (offs + 1) (s.put lo size (copybuffer offs))

structure Reading where
  copybuffer : ℕ → UInt8
  pos : ℕ
  copied : ℕ
  chunkSize : ℕ
  stored : Stored

/-- `read`, with the number that it returns. -/
def Env.read (e : Env) (ret : ℕ) (r : Reading) : Reading :=
  if ret = readError then r
  else
    { r with
      copybuffer := fun i => if i < ret then e.source.getD (r.pos + i) 0 else r.copybuffer i
      pos := r.pos + ret }

/-- The loop that reads the source; `n` reads have been done. -/
def Env.readLoop (e : Env) (lo : ℕ) : ℕ → ℕ → Reading → Option Reading
  | 0, _, _ => none
  | fuel + 1, n, r =>
    let ret := (e.reads n).toNat
    let r := e.read ret r
    if ret = 0 then some r
    else
      let copied := (r.copied + ret) % 2 ^ 32
      e.readLoop lo fuel (n + 1)
        { r with
          copied := copied
          chunkSize := Sys.chunkSize e.filesize copied
          stored := storeLoop lo e.blockBytes r.copybuffer ret 0 r.stored }

/-! ## Writing -/

/-- The loop that loads bytes from `bufptr` into `copybuffer`. -/
def loadLoop (mem : ℕ → UInt8) : ℕ → Far → Str × Far
  | 0, p => ([], p)
  | k + 1, p =>
    let r := loadLoop mem k p.advance
    (mem p.linear :: r.1, r.2)

/-- The loop that writes the destination: whether all has been written, and what. -/
def Env.writeLoop (e : Env) (mem : ℕ → UInt8) : ℕ → ℕ → ℕ → Far → Str → Option (Bool × Str)
  | 0, _, _, _, _ => none
  | fuel + 1, n, copied, bufptr, out =>
    let chunk := chunkSize e.filesize copied
    let copied := (copied + chunk) % 2 ^ 32
    let r := loadLoop mem chunk bufptr
    if (e.writes n).toNat ≠ chunk then some (false, out)
    else if copied < e.filesize then e.writeLoop mem fuel (n + 1) copied r.2 (out ++ r.1)
    else some (true, out ++ r.1)

/-! ## The whole -/

/-- The destination file. -/
inductive Dest where
  | untouched
  | removed
  | written (s : Str)

structure Outcome where
  ret : Bool
  dest : Dest
  outside : Bool

/-- `copy`, where the files have been opened. -/
def Env.transfer (e : Env) (mem copybuffer : ℕ → UInt8) (fuel : ℕ) : Option Outcome :=
  match e.block with
  | none => some ⟨false, .written [], false⟩
  | some seg =>
    let buffer : Far := ⟨seg.toNat, 0⟩
    match e.readLoop buffer.linear fuel 0
        ⟨copybuffer, 0, 0, chunkSize e.filesize 0, ⟨buffer, mem, false⟩⟩ with
    | none => none
    | some r =>
      match e.writeLoop r.stored.mem fuel 0 0 buffer [] with
      | none => none
      | some (true, out) => some ⟨true, .written out, r.stored.outside⟩
      | some (false, _) => some ⟨false, .removed, r.stored.outside⟩

/-- `copy`; `none` if it has not come to an end. -/
def Env.copy (e : Env) (mem copybuffer : ℕ → UInt8) (fuel : ℕ) : Option Outcome :=
  if e.identical then some ⟨true, .untouched, false⟩
  else if !e.opened then some ⟨false, .untouched, false⟩
  else if !e.space then some ⟨false, .untouched, false⟩
  else if !e.created then some ⟨false, .untouched, false⟩
  else e.transfer mem copybuffer fuel

end Sys
end BurdahDos
