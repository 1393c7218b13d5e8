import BurdahDos.Lib.Run
import Mathlib

/-!
# The sector buffers

`kernel/blockio.c` keeps sectors in a ring of buffers ordered by their last use, `firstbuf` first.
A buffer is what it claims to be, sector `b_blkno` of drive `b_unit`, as long as its flag
`BFR_VALID` is set; with `BFR_DIRTY` it also has to be written back before it is used for another
sector.  A buffer with a sector of the FAT is written to each copy of the FAT.

The ring is the list of its buffers from `firstbuf` on, and the pointers that `getblk` hands out are
positions in it: the buffer returned last is the first one, and the one returned before it the
second.  What a sector holds is of any type `β`.

Device transfers are parameters.  A read that fails says what it leaves in the buffer it was given.
For writes the state holds the outcomes to come, and remembers whether one has failed.
-/

set_option autoImplicit false

namespace BurdahDos
namespace Cache

/-! ## Buffers -/

/-- `b_flag` -/
structure Flags where
  /-- `BFR_DIRTY`: buffer modified. -/
  dirty : Bool
  /-- `BFR_VALID`: buffer contains valid data. -/
  valid : Bool
  /-- `BFR_DATA`: buffer is from data area. -/
  data : Bool
  /-- `BFR_DIR`: buffer is from dir area. -/
  dir : Bool
  /-- `BFR_FAT`: buffer is from fat area. -/
  fat : Bool
  /-- `BFR_UNCACHE`: buffer to be released ASAP. -/
  uncache : Bool
  deriving DecidableEq

/-- `b_flag = 0` -/
def Flags.none : Flags := ⟨false, false, false, false, false, false⟩

/-- `sizeof(struct buffer)` -/
def bufferSize : Nat := 532

/-- `struct buffer`, without the links. -/
structure Buffer (β : Type*) where
  /-- Where the buffer is, as `FP_OFF` says. -/
  fpOff : Nat
  bUnit : Nat
  bBlkno : UInt32
  bFlag : Flags
  /-- Number of copies to write. -/
  bCopies : Nat
  /-- Offset in sectors between the copies. -/
  bOffset : UInt32
  /-- `dpb_xfatsize` of `b_dpbp`. -/
  dpbXfatsize : UInt32
  bBuffer : β

variable {β : Type*}

/-- The buffer holds sector `blkno` of drive `dsk`. -/
def Buffer.holds (bp : Buffer β) (blkno : UInt32) (dsk : Nat) : Bool :=
  bp.bBlkno == blkno && bp.bFlag.valid && bp.bUnit == dsk

/-- The drives, and what becomes of writes to them. -/
structure World (β : Type*) where
  /-- What the sectors of the drives hold. -/
  disk : Nat × UInt32 → β
  /-- The outcomes of the writes to come; once used up, writes succeed. -/
  outcomes : List Bool
  /-- A write has failed. -/
  writeFailed : Bool

/-- `dskxfer` with `DSKWRITE` on one sector. -/
def World.write (w : World β) (dsk : Nat) (blkno : UInt32) (buf : β) : Bool × World β :=
  match w.outcomes with
  | [] => (true, { w with disk := Function.update w.disk (dsk, blkno) buf })
  | true :: outcomes =>
    (true, { w with disk := Function.update w.disk (dsk, blkno) buf, outcomes := outcomes })
  | false :: outcomes => (false, { w with outcomes := outcomes, writeFailed := true })

/-- The loop of `flush1` over the copies. -/
def writeCopies (bp : Buffer β) (bOffset : UInt32) :
    (bCopies : Nat) → (blkno : UInt32) → World β → Bool × World β
  | 0, _, w => (true, w)
  | bCopies + 1, blkno, w =>
    let first := w.write bp.bUnit blkno bp.bBuffer
    let rest := writeCopies bp bOffset bCopies (blkno + bOffset) first.2
    (first.1 && rest.1, rest.2)

/-- The distance between the copies of a FAT sector; a FAT32 file system says it in its DPB. -/
def Buffer.copyOffset (bp : Buffer β) : UInt32 :=
  if bp.bOffset = 0 then bp.dpbXfatsize else bp.bOffset

/-- The writes of `flush1`: a dirty buffer, and each copy of it if it is a FAT sector. -/
def writeBack (bp : Buffer β) (w : World β) : Bool × World β :=
  if bp.bFlag.valid && bp.bFlag.dirty then
    if bp.bFlag.fat then writeCopies bp bp.copyOffset bp.bCopies bp.bBlkno w
    else writeCopies bp 0 1 bp.bBlkno w
  else (true, w)

/-- `flush1`: write one disk buffer.  Even on an error it is marked not dirty, "otherwise system has
trouble continuing". -/
def flush1 (bp : Buffer β) (w : World β) : Bool × Buffer β × World β :=
  let r := writeBack bp w
  let flag := { bp.bFlag with dirty := false }
  (r.1, { bp with bFlag := if r.1 then flag else { flag with valid := false } }, r.2)

/-! ## Searching -/

/-- The variables of `searchblock`, buffers given by their position from `firstbuf` on.  A variable
that is 0 is `none`, also when it is the offset of a buffer. -/
structure Scan where
  fatCount : Nat
  lastNonFat : Option Nat
  uncacheBuf : Option Nat

/-- What `searchblock` keeps of a buffer at position `i`, or nothing: the offset 0 says that there
is none. -/
def Buffer.kept (bp : Buffer β) (i : Nat) : Option Nat := if bp.fpOff = 0 then none else some i

/-- The loop of `searchblock` over the buffers from position `i` on: a hit, or the variables. -/
def scan (blkno : UInt32) (dsk : Nat) : List (Buffer β) → Nat → Scan → Nat ⊕ Scan
  | [], _, a => .inr a
  | bp :: bufs, i, a =>
    if bp.holds blkno dsk then .inl i
    else
      scan blkno dsk bufs (i + 1)
        { fatCount := if bp.bFlag.fat then a.fatCount + 1 else a.fatCount
          lastNonFat := if bp.bFlag.fat then a.lastNonFat else bp.kept i
          uncacheBuf := if bp.bFlag.uncache then bp.kept i else a.uncacheBuf }

/-- Which buffer `searchblock` gives up: one to be released, or if low on FAT buffers the last one
that is not of the FAT, or the last one. -/
def replaced (bufs : List (Buffer β)) (a : Scan) : Nat :=
  match a.uncacheBuf with
  | some i => i
  | none =>
    match bufs.head?.any (fun bp => bp.bFlag.fat) && decide (a.fatCount < 3), a.lastNonFat with
    | true, some i => i
    | _, _ => bufs.length - 1

/-- `searchblock`: the buffer with the block, or one to be used for it, as `BFR_UNCACHE` tells, and
where it was.  It becomes the first one, the others keep their order. -/
def searchblock (blkno : UInt32) (dsk : Nat) (bufs : List (Buffer β)) :
    Option (Nat × Buffer β × List (Buffer β)) :=
  let (i, uncache) :=
    match scan blkno dsk bufs 0 ⟨0, none, none⟩ with
    | .inl i => (i, false)
    | .inr a => (replaced bufs a, true)
  bufs[i]?.map fun bp =>
    (i, { bp with bFlag := { bp.bFlag with uncache := uncache } }, bufs.eraseIdx i)

/-! ## The cache -/

/-- The cache, and the pointers its caller may still use. -/
structure State (β : Type*) where
  bufs : List (Buffer β)
  world : World β
  /-- The blocks of the buffers that the last calls of `getblk` returned, the last one first; at
  most two of them are in use at a time. -/
  held : List (Nat × UInt32)

/-- The pointers in use after `getblk` has returned the buffer at position `i` for `k`: the one
returned before is still good unless it is the same. -/
def State.holding (s : State β) (k : Nat × UInt32) (i : Nat) : List (Nat × UInt32) :=
  k :: if i = 0 then [] else s.held.take 1

/-- `getblk`: the block in a buffer; `none` is a null pointer.  `read` is what a failing read of the
device leaves, `none` if it does not fail. -/
def getblk (s : State β) (blkno : UInt32) (dsk : Nat) (overwrite : Bool) (read : Option β) :
    Option (Buffer β) × State β :=
  match searchblock blkno dsk s.bufs with
  | none => (none, { s with held := [] })
  | some (i, bp, bufs) =>
    if !bp.bFlag.uncache then
      (some bp, { s with bufs := bp :: bufs, held := s.holding (dsk, blkno) i })
    else
      let r := flush1 bp s.world
      let bp := r.2.1
      let w := r.2.2
      if !r.1 then (none, ⟨bp :: bufs, w, []⟩)
      else
        match if overwrite then none else read with
        | some garbage => (none, ⟨{ bp with bBuffer := garbage } :: bufs, w, []⟩)
        | none =>
          let bp :=
            { bp with
              bBuffer := if overwrite then bp.bBuffer else w.disk (dsk, blkno)
              bFlag := { Flags.none with valid := true, data := true }
              bUnit := dsk
              bBlkno := blkno }
          (some bp, ⟨bp :: bufs, w, s.holding (dsk, blkno) i⟩)

/-- The loop that several functions make over the ring: `flush1` on the buffers that `which`
selects, and `after` on all of them. -/
def flushLoop (which : Buffer β → Bool) (after : Buffer β → Buffer β) :
    List (Buffer β) → World β → Bool × List (Buffer β) × World β
  | [], w => (true, [], w)
  | bp :: bufs, w =>
    let first := if which bp then flush1 bp w else (true, bp, w)
    let rest := flushLoop which after bufs first.2.2
    (first.1 && rest.1, after first.2.1 :: rest.2.1, rest.2.2)

/-- `flush_buffers` -/
def flushBuffers (s : State β) (dsk : Nat) : Bool × State β :=
  let r := flushLoop (fun bp => bp.bUnit == dsk) id s.bufs s.world
  (r.1, ⟨r.2.1, r.2.2, []⟩)

/-- `flush` -/
def flush (s : State β) : Bool × State β :=
  let r := flushLoop (fun _ => true)
    (fun bp => { bp with bFlag := { bp.bFlag with valid := false } }) s.bufs s.world
  (r.1, ⟨r.2.1, r.2.2, []⟩)

/-- `XFR_READ` and `XFR_WRITE` -/
inductive XfrMode where
  | read
  | write

/-- The buffer holds a sector between the two. -/
def Buffer.inRange (bp : Buffer β) (blknolow blknohigh : UInt32) (dsk : Nat) : Bool :=
  decide (blknolow ≤ bp.bBlkno) && decide (bp.bBlkno ≤ blknohigh) && bp.bFlag.valid &&
    bp.bUnit == dsk

/-- `DeleteBlockInBufferCache` -/
def deleteBlockInBufferCache (s : State β) (blknolow blknohigh : UInt32) (dsk : Nat) :
    XfrMode → State β
  | .read =>
    let r := flushLoop (fun bp => bp.inRange blknolow blknohigh dsk) id s.bufs s.world
    ⟨r.2.1, r.2.2, []⟩
  | .write =>
    { s with
      bufs := s.bufs.map fun bp =>
        if bp.inRange blknolow blknohigh dsk then { bp with bFlag := Flags.none } else bp
      held := [] }

/-- A direct transfer of the sectors between the two, as `rwblock` makes it: after
`DeleteBlockInBufferCache`.  `data` is what is written; a read leaves the drive alone. -/
def transfer (s : State β) (blknolow blknohigh : UInt32) (dsk : Nat) (mode : XfrMode)
    (data : UInt32 → β) (ok : Bool) : State β :=
  let s := deleteBlockInBufferCache s blknolow blknohigh dsk mode
  match mode, ok with
  | .read, _ => s
  | .write, true =>
    { s with
      world := { s.world with
        disk := fun k =>
          if k.1 = dsk ∧ blknolow ≤ k.2 ∧ k.2 ≤ blknohigh then data k.2 else s.world.disk k } }
  | .write, false => { s with world := { s.world with writeFailed := true } }

/-! ## What callers do with a buffer -/

/-- What a caller makes of the buffer it was given. -/
inductive Mark where
  /-- Leave its area flags alone. -/
  | keep
  /-- `getFATblock` -/
  | fat (copies : Nat) (offset xfatsize : UInt32)
  /-- `dir_read` and others: a directory sector. -/
  | dir
  /-- `write_fsinfo`: none of these. -/
  | other

/-- The flags set and cleared for a mark, `BFR_VALID` among the set ones. -/
def Buffer.mark (bp : Buffer β) : Mark → Buffer β
  | .keep => { bp with bFlag := { bp.bFlag with valid := true } }
  | .fat copies offset xfatsize =>
    { bp with
      bFlag := { bp.bFlag with data := false, dir := false, fat := true, valid := true }
      bCopies := copies
      bOffset := offset
      dpbXfatsize := xfatsize }
  | .dir =>
    { bp with bFlag := { bp.bFlag with data := false, fat := false, dir := true, valid := true } }
  | .other =>
    { bp with bFlag := { bp.bFlag with data := false, fat := false, dir := false, valid := true } }

/-- A caller marks a buffer, stores `data` in it (if any) and marks it dirty, and may set
`BFR_UNCACHE`. -/
def Buffer.touch (bp : Buffer β) (m : Mark) (data : Option β) (uncache : Bool) : Buffer β :=
  let bp := bp.mark m
  { bp with
    bBuffer := data.getD bp.bBuffer
    bFlag := { bp.bFlag with
      dirty := bp.bFlag.dirty || data.isSome
      uncache := bp.bFlag.uncache || uncache } }

/-! ## Requests -/

/-- What is done with the cache. -/
inductive Request (β : Type*) where
  | getblk (blkno : UInt32) (dsk : Nat) (overwrite : Bool) (read : Option β)
  /-- Work on the buffer returned last (`i = 0`) or before (`i = 1`). -/
  | touch (i : Nat) (m : Mark) (data : Option β) (uncache : Bool)
  | flush1 (i : Nat)
  | flushBuffers (dsk : Nat)
  | flush
  | transfer (blknolow blknohigh : UInt32) (dsk : Nat) (mode : XfrMode) (data : UInt32 → β)
      (ok : Bool)

/-- The state after a request. -/
def serve (s : State β) : Request β → State β
  | .getblk blkno dsk overwrite read => (getblk s blkno dsk overwrite read).2
  | .touch i m data uncache =>
    { s with bufs := s.bufs.modify i fun bp => bp.touch m data uncache }
  | .flush1 i =>
    match s.bufs[i]? with
    | none => s
    | some bp => ⟨s.bufs.set i (flush1 bp s.world).2.1, (flush1 bp s.world).2.2, []⟩
  | .flushBuffers dsk => (flushBuffers s dsk).2
  | .flush => (flush s).2
  | .transfer blknolow blknohigh dsk mode data ok =>
    transfer s blknolow blknohigh dsk mode data ok

end Cache
end BurdahDos
