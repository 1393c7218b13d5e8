import BurdahDos.Boot.Disk
import Mathlib

/-!
# Transfers

`LBA_Transfer` of `kernel/dsk.c`, which moves sectors between a disk and memory by calls of the
BIOS.  `Boot.Disk` has of it what can go wrong with the parameters of a drive; here is what it does
with the memory and the disk.

Memory is by linear addresses, and a far pointer is a segment and an offset.  A call of the BIOS
that fails may have moved anything by then, as far as it is in the range of the call.  The drive is
one whose geometry is not zero, and divisions are by that.
-/

set_option autoImplicit false

namespace BurdahDos
namespace Lba

open Boot

/-! ## Far pointers -/

/-- A far pointer. -/
structure FarPtr where
  seg : ℕ
  off : ℕ

/-- The linear address. -/
def FarPtr.linear (p : FarPtr) : ℕ := p.seg * 16 + p.off

/-- `adjust_far` -/
def adjustFar (p : FarPtr) : FarPtr :=
  if p.seg = 0xffff then p else ⟨(p.seg + p.off / 16) % 2 ^ 16, p.off % 16⟩

/-- The pointer some bytes further in its segment. -/
def FarPtr.add (p : FarPtr) (bytes : ℕ) : FarPtr := { p with off := (p.off + bytes) % 2 ^ 16 }

/-! ## The BIOS -/

/-- `LBA_READ`, `LBA_WRITE`, `LBA_VERIFY` or `LBA_WRITE_VERIFY` -/
inductive Mode where
  | read
  | write
  | verify
  | writeVerify
  deriving DecidableEq

/-- What the BIOS is asked to do. -/
inductive Cmd where
  | read
  | write
  | verify
  deriving DecidableEq

/-- What a mode asks for; the BIOS may verify what it writes. -/
def Mode.cmd : Mode → Cmd
  | .read => .read
  | .write => .write
  | .verify => .verify
  | .writeVerify => .write

/-- A call of the BIOS: its first sector, the number of sectors it is told, the number its caller
means, and the address.  By CHS, the number of the first sector in its track too. -/
structure Call where
  cmd : Cmd
  sector : ℕ
  blocks : ℕ
  count : ℕ
  address : ℕ
  inTrack : Option ℕ

/-- How a call ends: an error code, 0 for none, and what was moved if there is one. -/
structure Outcome where
  code : ℕ
  moved : ℕ → ℕ → UInt8

/-- Memory and disk, by sectors and bytes, and how the calls to come end (well once there are no
outcomes left).  `int1e` is the byte of the diskette parameter table that has the sectors of a
track.  `calls` and `pieces` note what a transfer does: the calls that it has made, the last one
first, and the ranges of sectors that were moved for good. -/
structure Machine where
  mem : ℕ → UInt8
  disk : ℕ → ℕ → UInt8
  outcomes : List Outcome
  int1e : UInt8
  calls : List Call
  pieces : List (ℕ × ℕ)

/-- Put sectors into memory. -/
def putMem (mem : ℕ → UInt8) (nbyte address count : ℕ) (content : ℕ → ℕ → UInt8) : ℕ → UInt8 :=
  fun x =>
    if address ≤ x ∧ x < address + count * nbyte then
      content ((x - address) / nbyte) ((x - address) % nbyte)
    else mem x

/-- Put sectors on the disk. -/
def putDisk (disk : ℕ → ℕ → UInt8) (nbyte sector count : ℕ) (content : ℕ → ℕ → UInt8) :
    ℕ → ℕ → UInt8 := fun s j =>
  if sector ≤ s ∧ s < sector + count ∧ j < nbyte then content (s - sector) j else disk s j

/-- What a call moves, or else `junk`. -/
def Machine.move (m : Machine) (nbyte : ℕ) (c : Call) (junk : Option (ℕ → ℕ → UInt8)) : Machine :=
  match c.cmd with
  | .read =>
    let content := junk.getD fun i j => m.disk (c.sector + i) j
    { m with mem := putMem m.mem nbyte c.address c.blocks content }
  | .write =>
    let content := junk.getD fun i j => m.mem (c.address + i * nbyte + j)
    { m with disk := putDisk m.disk nbyte c.sector c.blocks content }
  | .verify => m

/-- A call of the BIOS: the error code. -/
def Machine.bios (m : Machine) (nbyte : ℕ) (c : Call) : ℕ × Machine :=
  let m := { m with calls := c :: m.calls }
  match m.outcomes with
  | [] => (0, m.move nbyte c none)
  | o :: os =>
    let m := { m with outcomes := os }
    if o.code = 0 then (0, m.move nbyte c none) else (o.code, m.move nbyte c (some o.moved))

/-- `_bios_LBA_address_packet` -/
structure AddressPacket where
  numberOfBlocks : UInt8
  bufferAddress : ℕ
  blockAddress : ℕ

/-- `fl_lba_ReadWrite`, for a packet that is meant to be for `count` sectors. -/
def flLbaReadWrite (d : Ddt) (m : Machine) (cmd : Cmd) (dap : AddressPacket) (count : ℕ) :
    ℕ × Machine :=
  m.bios d.bpb.nbyte
    ⟨cmd, dap.blockAddress, dap.numberOfBlocks.toNat, count, dap.bufferAddress, none⟩

/-- `struct CHS` -/
structure Chs where
  cylinder : ℕ
  head : ℕ
  sector : ℕ

/-- `fl_read`, `fl_write` and `fl_verify`: the arguments go into `CH`, `CL`, `DH` and `AL`, by which
the BIOS finds the sector in the geometry of the drive.  "This code can't write above 3FFh". -/
def flCommon (d : Ddt) (m : Machine) (cmd : Cmd) (chs : Chs) (count address : ℕ) : ℕ × Machine :=
  if 3 < chs.cylinder / 2 ^ 8 then (1, m)
  else
    let ch := chs.cylinder % 2 ^ 8
    let cl := chs.cylinder / 2 ^ 8 * 2 ^ 6 ||| chs.sector % 2 ^ 8
    let dh := chs.head % 2 ^ 8
    let al := count % 2 ^ 8
    let cylinder := ch + cl / 2 ^ 6 * 2 ^ 8
    let first := (cylinder * d.geometry.nheads + dh) * d.geometry.nsecs + (cl % 2 ^ 6 - 1)
    m.bios d.bpb.nbyte ⟨cmd, first, al, count, address, some (cl % 2 ^ 6)⟩

/-! ## The code -/

/-- `LBA_to_CHS`: no address if the cylinder is too large. -/
def lbaToChs (d : Ddt) (addr : ℕ) : Option Chs :=
  let hs := d.geometry.nsecs * d.geometry.nheads % 2 ^ 16
  let hsrem := addr % hs
  if 1023 < addr / hs then none
  else
    some ⟨addr / hs % 2 ^ 16, hsrem / d.geometry.nsecs, hsrem % d.geometry.nsecs + 1⟩

/-- "Avoid overflow at end of track". -/
def inTrack (d : Ddt) (chs : Chs) (count : ℕ) : ℕ :=
  let nsecs := d.geometry.nsecs
  if (chs.sector + count) % 2 ^ 16 > (nsecs + 1) % 2 ^ 16 then
    (nsecs + 1 + 2 ^ 16 - chs.sector) % 2 ^ 16
  else count

/-- An attempt: the error code, and the number of sectors; nothing if there is no address. -/
def attempt (d : Ddt) (mode : Mode) (lba address count : ℕ) (m : Machine) :
    Option (ℕ × ℕ × Machine) :=
  if d.has dfLba then
    let dap : AddressPacket := ⟨UInt8.ofNat count, address, lba⟩
    if d.has dfWrtverify || mode != .writeVerify then
      let r := flLbaReadWrite d m mode.cmd dap count
      some (r.1, count, r.2)
    else
      -- "verify requested, but not supported"
      let r := flLbaReadWrite d m .write dap count
      let r := if r.1 = 0 then flLbaReadWrite d r.2 .verify dap count else r
      some (r.1, count, r.2)
  else
    match lbaToChs d lba with
    | none => none
    | some chs =>
      let count := inTrack d chs count
      let r := flCommon d m mode.cmd chs count address
      let r :=
        if r.1 = 0 ∧ mode = .writeVerify then flCommon d r.2 .verify chs count address else r
      some (r.1, count, r.2)

/-- The retries.  The count may become smaller in them. -/
def attempts (d : Ddt) (mode : Mode) (lba address : ℕ) : ℕ → ℕ → ℕ → Machine → ℕ × ℕ × Machine
  | 0, error, count, m => (error, count, m)
  | n + 1, _, count, m =>
    match attempt d mode lba address count m with
    | none => (1, count, m)
    | some (error, count, m) =>
      if error = 0 then (0, count, m) else attempts d mode lba address n error count m

/-- `fmemcpy` -/
def fmemcpy (mem : ℕ → UInt8) (dest src n : ℕ) : ℕ → UInt8 := fun x =>
  if dest ≤ x ∧ x < dest + n then mem (src + (x - dest)) else mem x

/-- The number of sectors of a turn before it is looked at the buffer. -/
def wantedCount (d : Ddt) (p : FarPtr) (totaltodo : ℕ) : ℕ :=
  if d.has dfDmaTransparent then totaltodo else dmaMaxTransfer p.linear totaltodo

/-- Whether a turn goes by `DiskTransferBuffer`. -/
def bounces (d : Ddt) (p : FarPtr) (totaltodo : ℕ) : Bool :=
  decide (0xa000 ≤ p.seg ∨ wantedCount d p totaltodo = 0)

/-- A turn of the loop, with `DiskTransferBuffer` at `t`: the error code, and the number of
sectors. -/
def turn (d : Ddt) (mode : Mode) (t : ℕ) (p : FarPtr) (lba totaltodo : ℕ) (m : Machine) :
    ℕ × ℕ × Machine :=
  let nbyte := d.bpb.nbyte
  if bounces d p totaltodo then
    let m :=
      if mode.cmd = .write then { m with mem := fmemcpy m.mem t p.linear nbyte } else m
    let r := attempts d mode lba t nRetry 0 1 m
    if r.1 = 0 ∧ mode = .read then
      (0, r.2.1, { r.2.2 with mem := fmemcpy r.2.2.mem p.linear t nbyte })
    else r
  else attempts d mode lba p.linear nRetry 0 (wantedCount d p totaltodo) m

/-- The loop, in which each turn moves a sector at least: the error code, and `*transferred`. -/
def transferLoop (d : Ddt) (mode : Mode) (t : ℕ) :
    ℕ → FarPtr → ℕ → ℕ → ℕ → Machine → ℕ × ℕ × Machine
  | 0, _, _, _, transferred, m => (0, transferred, m)
  | n + 1, p, lba, totaltodo, transferred, m =>
    if totaltodo = 0 then (0, transferred, m)
    else
      let r := turn d mode t p lba totaltodo m
      if r.1 ≠ 0 then (r.1, transferred, r.2.2)
      else
        let count := r.2.1
        transferLoop d mode t n (adjustFar (p.add (count * d.bpb.nbyte % 2 ^ 16)))
          ((lba + count) % 2 ^ 32) (totaltodo - count) ((transferred + count) % 2 ^ 16)
          { r.2.2 with pieces := r.2.2.pieces ++ [(lba, count)] }

/-- `LBA_Transfer`, once `play_dj` has had the right disk put into the drive. -/
def lbaTransfer (d : Ddt) (mode : Mode) (t : ℕ) (buffer : FarPtr) (lba totaltodo : ℕ)
    (m : Machine) : ℕ × ℕ × Machine :=
  let m := { m with calls := [], pieces := [] }
  let m :=
    if d.has dfFixed then m else { m with int1e := UInt8.ofNat d.bpb.nsecs }
  transferLoop d mode t totaltodo (adjustFar buffer) lba totaltodo 0 m

end Lba
end BurdahDos
