import BurdahDos.Boot.Defs
import BurdahDos.Lib.Run
import Mathlib

/-!
# Disk requests

The disk driver `kernel/dsk.c` as the kernel uses it on one drive: `media_check` asks whether the
disk has been changed and for its BPB, from which `bpb_to_dpb` makes the DPB, and `dskxfer`
transfers sectors.  `none` is a division by zero.

A `World` is what the driver meets during a call: the boot sector of the disk in the drive, the
error codes of the BIOS for the transfers to come (none once they are used up), and what a poll of
the drive says.  The calls differ in theirs, so disks may be exchanged at any time.

`requests_served` says which boot sectors no division by zero follows from.
-/

set_option autoImplicit false

namespace BurdahDos
namespace Boot

/-! ## Codes and flags -/

/-- `S_ERROR` -/
def sError : ℕ := 0x8000
/-- `S_DONE` -/
def sDone : ℕ := 0x0100

/-- `failure` -/
def failure (x : ℕ) : ℕ := sError + sDone + x

/-- `M_CHANGED`, as a byte. -/
def mChanged : ℕ := 0xff
/-- `M_DONT_KNOW` -/
def mDontKnow : ℕ := 0
/-- `M_NOT_CHANGED` -/
def mNotChanged : ℕ := 1

/-- `DF_FIXED` -/
def dfFixed : ℕ := 0x001
/-- `DF_CHANGELINE` -/
def dfChangeline : ℕ := 0x002
/-- `DF_MULTLOG` -/
def dfMultlog : ℕ := 0x010
/-- `DF_CURLOG` -/
def dfCurlog : ℕ := 0x020
/-- `DF_DISKCHANGE` -/
def dfDiskchange : ℕ := 0x040
/-- `DF_REFORMAT` -/
def dfReformat : ℕ := 0x100
/-- `DF_NOACCESS` -/
def dfNoaccess : ℕ := 0x200
/-- `DF_LBA` -/
def dfLba : ℕ := 0x400
/-- `DF_WRTVERIFY` -/
def dfWrtverify : ℕ := 0x800
/-- `DF_DMA_TRANSPARENT` -/
def dfDmaTransparent : ℕ := 0x1000

/-- `N_RETRY` -/
def nRetry : ℕ := 5

/-! ## The state -/

/-- `ddt` -/
structure Ddt where
  bpb : Bpb
  /-- The BPB that goes by the drive, not by the disk. -/
  defbpb : Bpb
  descflags : ℕ
  ncyl : ℕ
  serialno : ℕ
  offset : ℕ

/-- Whether a flag is set. -/
def Ddt.has (d : Ddt) (flag : ℕ) : Bool := d.descflags &&& flag != 0

def Ddt.set (d : Ddt) (flag : ℕ) : Ddt := { d with descflags := d.descflags ||| flag }

def Ddt.clear (d : Ddt) (flag : ℕ) : Ddt := { d with descflags := d.descflags &&& (0xffff - flag) }

/-- What a poll of the drive says: `fl_diskchanged`, and whether the last access was long ago. -/
structure Poll where
  line : ℤ
  elapsed : Bool

/-- What the driver meets. -/
structure World where
  boot : Sector
  codes : List ℕ
  polls : List Poll
  /-- The linear address of `DiskTransferBuffer`. -/
  buffer : ℕ

/-- The next BIOS call. -/
def World.bios (w : World) : ℕ × World :=
  match w.codes with
  | [] => (0, w)
  | c :: codes => (c, { w with codes := codes })

def World.poll (w : World) : Poll × World :=
  match w.polls with
  | [] => (⟨0, false⟩, w)
  | p :: polls => (p, { w with polls := polls })

/-- A division, which traps if the divisor is zero. -/
def divide (a b : ℕ) : Option ℕ := if b = 0 then none else some (a / b)

/-! ## Transfers -/

/-- `mode` -/
inductive Mode where
  | read
  | write
  | writeVerify
deriving DecidableEq

/-- The BPB that a transfer goes by. -/
def Ddt.geometry (d : Ddt) : Bpb := if d.has dfFixed then d.defbpb else d.bpb

/-- `LBA_to_CHS`: the number of the sector in its track, or no address as the cylinder is too
large. -/
def lbaToChs (d : Ddt) (addr : ℕ) : Option (Option ℕ) := do
  let hs := d.geometry.nsecs * d.geometry.nheads % 2 ^ 16
  let cylinder ← divide addr hs
  let hsrem := addr % hs
  if cylinder > 1023 then return none
  else
    let _head ← divide hsrem d.geometry.nsecs
    return some (hsrem % d.geometry.nsecs + 1)

/-- One or two BIOS calls, if the second is to verify what the first wrote. -/
def transfer (w : World) (twice : Bool) : ℕ × World :=
  let r := w.bios
  if r.1 = 0 ∧ twice = true then r.2.bios else r

/-- The retries of `LBA_Transfer`: the error code, and the number of sectors transferred. -/
def retryLoop (d : Ddt) (mode : Mode) (addr : ℕ) : ℕ → ℕ → ℕ → World → Option (ℕ × ℕ × World)
  | 0, error, count, w => some (error, count, w)
  | n + 1, _, count, w =>
    if d.has dfLba then
      let r := transfer w (!(d.has dfWrtverify || mode != .writeVerify))
      if r.1 = 0 then some (0, count, r.2) else retryLoop d mode addr n r.1 count r.2
    else
      match lbaToChs d addr with
      | none => none
      | some none => some (1, count, w)
      | some (some sector) =>
        let nsecs := d.geometry.nsecs
        let count :=
          if (sector + count) % 2 ^ 16 > (nsecs + 1) % 2 ^ 16 then
            (nsecs + 1 + 2 ^ 16 - sector) % 2 ^ 16
          else count
        let r := transfer w (mode == .writeVerify)
        if r.1 = 0 then some (0, count, r.2) else retryLoop d mode addr n r.1 count r.2

/-- `DMA_max_transfer`, with a `maxsecsize` of 512. -/
def dmaMaxTransfer (buffer count : ℕ) : ℕ :=
  let off := buffer % 2 ^ 16
  min count (if off = 0 then 0xffff / 512 else (2 ^ 16 - off) / 512)

/-- The loop of `LBA_Transfer`, in which each turn transfers a sector at least. -/
def lbaLoop (d : Ddt) (mode : Mode) : ℕ → ℕ → ℕ → ℕ → World → Option (ℕ × World)
  | 0, _, _, _, w => some (0, w)
  | n + 1, buffer, addr, total, w =>
    if total = 0 then some (0, w)
    else
      let count := if d.has dfDmaTransparent then total else dmaMaxTransfer buffer total
      let count := if 0xa000 ≤ buffer / 2 ^ 4 ∨ count = 0 then 1 else count
      match retryLoop d mode addr nRetry 0 count w with
      | none => none
      | some (error, count, w) =>
        if error ≠ 0 then some (error, w)
        else
          lbaLoop d mode n (buffer + count * d.bpb.nbyte) ((addr + count) % 2 ^ 32) (total - count) w

/-- `play_dj`, for the drive that is asked for. -/
def playDj (d : Ddt) : ℕ × Ddt :=
  if d.has dfMultlog && !d.has dfCurlog then (mChanged, d.set dfCurlog) else (mNotChanged, d)

/-- `LBA_Transfer` -/
def lbaTransfer (d : Ddt) (mode : Mode) (buffer addr total : ℕ) (w : World) :
    Option (ℕ × Ddt × World) := do
  let d := (playDj d).2
  let r ← lbaLoop d mode total buffer addr total w
  return (r.1, d, r.2)

/-! ## The driver -/

/-- `dskerr` -/
def dskerr (code : ℕ) : ℕ :=
  match code % 4 with
  | 1 => if code &&& 0x08 ≠ 0 then sError ||| 2 else failure 3
  | 2 => failure 12
  | 3 => failure 0
  | _ =>
    if code &&& 0x80 ≠ 0 then failure 2
    else if code &&& 0x40 ≠ 0 then failure 6
    else if code &&& 0x10 ≠ 0 then failure 4
    else if code &&& 0x04 ≠ 0 then failure 8
    else failure 12

/-- `diskchange` -/
def diskchange (d : Ddt) (w : World) : ℕ × Ddt × World :=
  if d.has dfFixed then (mNotChanged, d, w)
  else
    let dj := playDj d
    if dj.1 = mChanged then (mChanged, dj.2, w)
    else
      let p := w.poll
      if d.has dfChangeline && p.1.line == 1 then (mChanged, d, p.2)
      else if d.has dfChangeline && p.1.line == 0 then (mNotChanged, d, p.2)
      else (if p.1.elapsed then mDontKnow else mNotChanged, d, p.2)

/-- The boot sector is taken for one: it has the signature, and its sectors a multiple of 512
bytes. -/
def accepted (s : Sector) : Bool :=
  s 0x1fe == 0x55 && s 0x1ff == 0xaa && (Bpb.ofSector s).nbyte % 512 == 0

/-- The serial number of a boot sector. -/
def serialOf (s : Sector) : ℕ :=
  let fat32 := (Bpb.ofSector s).nfsect == 0
  let signature := s (if fat32 then 0x42 else 0x26)
  if signature = 0x29 ∨ signature = 0x28 then getlong s (if fat32 then 0x43 else 0x27) else 0

/-- `getbpb` -/
def getbpb (d : Ddt) (w : World) : Option (ℕ × Ddt × World) := do
  let c := diskchange d w
  let d := if c.1 ≠ mNotChanged then c.2.1.set dfDiskchange else c.2.1
  let r ← lbaTransfer d .read w.buffer d.offset 1 c.2.2
  let (ret, d, w) := r
  if ret ≠ 0 then return (dskerr ret, d, w)
  else if !accepted w.boot then return (0, { d with bpb := d.defbpb }, w)
  else
    let b := Bpb.ofSector w.boot
    let d := { d.clear dfNoaccess with bpb := b, serialno := serialOf w.boot }
    let count := if b.nsize = 0 then b.huge else b.nsize
    let secsPerCyl := b.nheads * b.nsecs % 2 ^ 16
    if secsPerCyl = 0 then return (failure 12, d, w)
    else
      let ncyl ← divide ((count + (secsPerCyl - 1)) % 2 ^ 32) secsPerCyl
      return (0, { d with ncyl := ncyl % 2 ^ 16 }, w)

/-- Where `r_bpptr` points to. -/
inductive BpbPtr where
  /-- The BPB of the drive. -/
  | own
  /-- Anything else; it was not set by a request for this drive. -/
  | other (b : Bpb)

/-- The drive, and what the kernel has of it. -/
structure Drive where
  ddt : Ddt
  dpb : Dpb
  bpptr : BpbPtr
  mcretcode : ℕ

/-- The requests that the kernel makes. -/
inductive Request where
  /-- `C_MEDIACHK` -/
  | mediachk
  /-- `C_BLDBPB` -/
  | bldbpb
  /-- `C_INPUT`, `C_OUTPUT` or `C_OUTVFY` -/
  | blockio (mode : Mode) (buffer start count : ℕ)

/-- `mediachk` -/
def mediachk (s : Drive) (w : World) : Option (ℕ × Drive × World) := do
  let d := s.ddt
  if d.has dfReformat then
    return (sDone, { s with ddt := d.clear dfReformat, mcretcode := mChanged }, w)
  else if d.has dfDiskchange then
    return (sDone, { s with ddt := d.clear dfDiskchange, mcretcode := mDontKnow }, w)
  else
    let (c, d, w) := diskchange d w
    if c ≠ mDontKnow then return (sDone, { s with ddt := d, mcretcode := c }, w)
    else
      let (result, d', w) ← getbpb d w
      let s := { s with ddt := d', mcretcode := c }
      if result ≠ 0 then return (result, s, w)
      else if d.serialno ≠ d'.serialno then return (sDone, { s with mcretcode := mChanged }, w)
      else return (sDone, s, w)

/-- `bldbpb` -/
def bldbpb (s : Drive) (w : World) : Option (ℕ × Drive × World) := do
  let (result, d, w) ← getbpb s.ddt w
  if result ≠ 0 then return (result, { s with ddt := d }, w)
  else return (sDone, { s with ddt := d, bpptr := .own }, w)

/-- `blockio` -/
def blockio (s : Drive) (mode : Mode) (buffer start count : ℕ) (w : World) :
    Option (ℕ × Drive × World) := do
  let b := s.ddt.geometry
  let size := if b.nsize ≠ 0 then b.nsize else b.huge
  if s.ddt.has dfNoaccess then return (failure 12, s, w)
  else if size ≤ start ∨ size < (start + count) % 2 ^ 32 then return (0x0408, s, w)
  else
    let r ← lbaTransfer s.ddt mode buffer ((start + s.ddt.offset) % 2 ^ 32) count w
    return (if r.1 ≠ 0 then dskerr r.1 else sDone, { s with ddt := r.2.1 }, r.2.2)

/-- `blk_driver`: the status, and the drive. -/
def blkDriver (s : Drive) (w : World) : Request → Option (ℕ × Drive × World)
  | .mediachk => mediachk s w
  | .bldbpb => bldbpb s w
  | .blockio mode buffer start count => blockio s mode buffer start count w

/-! ## The kernel -/

/-- What `block_error` comes to. -/
inductive Answer where
  | abort
  | fail
  | retry
  | continue
deriving DecidableEq

/-- `rqblockio`, or the loop of `dskxfer`: whether the request succeeds, or its failure is ignored.
Once the answers are used up the user lets it fail. -/
def rqblockio (rq : Request) : List Answer → Drive → World → Option (Bool × Drive × World)
  | answers, s, w =>
    match blkDriver s w rq with
    | none => none
    | some (status, s, w) =>
      if status &&& sError = 0 ∧ status &&& sDone ≠ 0 then some (true, s, w)
      else
        match answers with
        | .retry :: answers => rqblockio rq answers s w
        | .continue :: _ => some (true, s, w)
        | _ => some (false, s, w)

/-- The BPB at `r_bpptr`. -/
def Drive.bpp (s : Drive) : Bpb :=
  match s.bpptr with
  | .own => s.ddt.bpb
  | .other b => b

/-- A call of the kernel for the drive, and what it meets. -/
inductive Call where
  /-- `media_check`, with the answers to failures of its two requests, the result of
  `dirty_buffers`, whether the DPB is an internal one, and the sector that `read_fsinfo` gets. -/
  | mediaCheck (w : World) (chk bld : List Answer) (dirty internal : Bool) (fsinfo : Sector)
  /-- `dskxfer` -/
  | dskxfer (w : World) (answers : List Answer) (mode : Mode) (buffer blkno numblocks : ℕ)

/-- What the driver meets during the call. -/
def Call.world : Call → World
  | .mediaCheck w _ _ _ _ _ => w
  | .dskxfer w _ _ _ _ _ => w

/-- The drive after a call. -/
def serve (s : Drive) : Call → Option Drive
  | .mediaCheck w chk bld dirty internal fsinfo => do
    let (ok, s, w) ← rqblockio .mediachk chk s w
    if !ok then return s
    else
      let code := s.mcretcode ||| s.dpb.flags
      if code = mNotChanged ∨ code = mDontKnow ∧ dirty = true then return s
      else
        let (ok, s, _) ← rqblockio .bldbpb bld s w
        if !ok then return s
        else
          let dpb ← bpbToDpb s.bpp s.dpb (s.bpp.nfsect == 0 || internal) fsinfo
          return { s with dpb := dpb }
  | .dskxfer w answers mode buffer blkno numblocks => do
    let (_, s, _) ← rqblockio (.blockio mode buffer blkno numblocks) answers s w
    return s

/-- The drive after calls; `none` once there was a division by zero. -/
def serveAll (s : Option Drive) (c : Call) : Option Drive := s.bind fun s => serve s c

/-! ## Parameters that nothing is divided by zero with -/

/-- The BPB has a cylinder size, in 16 bits, and directory entries in a sector. -/
structure Bpb.Divides (b : Bpb) : Prop where
  cylinder : b.nsecs * b.nheads % 2 ^ 16 ≠ 0
  entries : b.nbyte / direntSize ≠ 0

/-- So do all BPBs that the drive may go by. -/
structure Drive.Divides (s : Drive) : Prop where
  bpb : s.ddt.bpb.Divides
  defbpb : s.ddt.defbpb.Divides
  bpp : s.bpp.Divides

/-- The boot sector is not taken for one, or its BPB can be divided by. -/
def Harmless (s : Sector) : Prop := accepted s = true → (Bpb.ofSector s).Divides

/-- The BPBs are those of before. -/
def Ddt.SameBpbs (d d' : Ddt) : Prop := d'.bpb = d.bpb ∧ d'.defbpb = d.defbpb

theorem playDj_same (d : Ddt) : d.SameBpbs (playDj d).2 := by
  rw [playDj]
  split <;> exact ⟨rfl, rfl⟩

theorem poll_boot (w : World) : w.poll.2.boot = w.boot := by
  rw [World.poll]
  split <;> rfl

theorem bios_boot (w : World) : w.bios.2.boot = w.boot := by
  rw [World.bios]
  split <;> rfl

theorem diskchange_same (d : Ddt) (w : World) :
    d.SameBpbs (diskchange d w).2.1 ∧ (diskchange d w).2.2.boot = w.boot := by
  rw [diskchange]
  split
  · exact ⟨⟨rfl, rfl⟩, rfl⟩
  · dsimp only
    split
    · exact ⟨playDj_same d, rfl⟩
    · split
      · exact ⟨⟨rfl, rfl⟩, poll_boot w⟩
      · split <;> exact ⟨⟨rfl, rfl⟩, poll_boot w⟩

theorem transfer_boot (w : World) (twice : Bool) : (transfer w twice).2.boot = w.boot := by
  rw [transfer]
  split
  · rw [bios_boot, bios_boot]
  · exact bios_boot w

theorem divide_of_ne {a b : ℕ} (h : b ≠ 0) : divide a b = some (a / b) := if_neg h

/-- `LBA_to_CHS` does not divide by zero if the cylinder size is not zero. -/
theorem lbaToChs_defined {d : Ddt} (h : d.geometry.Divides) (addr : ℕ) :
    ∃ r, lbaToChs d addr = some r := by
  have hsecs : d.geometry.nsecs ≠ 0 := by
    intro h0
    refine h.cylinder ?_
    rw [h0, Nat.zero_mul, Nat.zero_mod]
  rw [lbaToChs]
  simp only [divide_of_ne h.cylinder, divide_of_ne hsecs, Option.bind_eq_bind, Option.bind_some,
    Option.pure_def]
  split <;> exact ⟨_, rfl⟩

theorem retryLoop_defined {d : Ddt} (h : d.geometry.Divides) (mode : Mode) (addr n error count : ℕ)
    (w : World) : ∃ e c w', retryLoop d mode addr n error count w = some (e, c, w') ∧
      w'.boot = w.boot := by
  induction n generalizing error count w with
  | zero => exact ⟨error, count, w, rfl, rfl⟩
  | succ n ih =>
    rw [retryLoop]
    split
    · have hboot := transfer_boot w (!(d.has dfWrtverify || mode != .writeVerify))
      dsimp only
      split
      · exact ⟨_, _, _, rfl, hboot⟩
      · obtain ⟨e, c, w', heq, hw⟩ := ih _ count _
        exact ⟨e, c, w', heq, hw.trans hboot⟩
    · obtain ⟨r, hr⟩ := lbaToChs_defined h addr
      rw [hr]
      cases r with
      | none => exact ⟨1, count, w, rfl, rfl⟩
      | some sector =>
        have hboot := transfer_boot w (mode == .writeVerify)
        dsimp only
        split
        · exact ⟨_, _, _, rfl, hboot⟩
        · obtain ⟨e, c, w', heq, hw⟩ := ih _ _ _
          exact ⟨e, c, w', heq, hw.trans hboot⟩

theorem lbaLoop_defined {d : Ddt} (h : d.geometry.Divides) (mode : Mode)
    (n buffer addr total : ℕ) (w : World) :
    ∃ e w', lbaLoop d mode n buffer addr total w = some (e, w') ∧ w'.boot = w.boot := by
  induction n generalizing buffer addr total w with
  | zero => exact ⟨0, w, rfl, rfl⟩
  | succ n ih =>
    rw [lbaLoop]
    split
    · exact ⟨0, w, rfl, rfl⟩
    · dsimp only
      obtain ⟨e, c, w', heq, hboot⟩ := retryLoop_defined h mode addr nRetry 0 _ w
      rw [heq]
      dsimp only
      split
      · exact ⟨e, w', rfl, hboot⟩
      · obtain ⟨e, w'', heq', hboot'⟩ := ih _ _ _ w'
        exact ⟨e, w'', heq', hboot'.trans hboot⟩

theorem Ddt.SameBpbs.geometry {d d' : Ddt} (h : d.SameBpbs d') (hd : d.bpb.Divides)
    (hdef : d.defbpb.Divides) : d'.geometry.Divides := by
  rw [Ddt.geometry]
  split
  · rw [h.2]
    exact hdef
  · rw [h.1]
    exact hd

/-- **A transfer** does not divide by zero, and leaves the BPBs. -/
theorem lbaTransfer_defined {d : Ddt} (hd : d.bpb.Divides) (hdef : d.defbpb.Divides) (mode : Mode)
    (buffer addr total : ℕ) (w : World) :
    ∃ e d' w', lbaTransfer d mode buffer addr total w = some (e, d', w') ∧ d.SameBpbs d' ∧
      w'.boot = w.boot := by
  have hsame := playDj_same d
  obtain ⟨e, w', heq, hboot⟩ := lbaLoop_defined (hsame.geometry hd hdef) mode total buffer addr
    total w
  refine ⟨e, (playDj d).2, w', ?_, hsame, hboot⟩
  rw [lbaTransfer]
  simp only [heq, Option.bind_eq_bind, Option.bind_some, Option.pure_def]

/-- What the driver leaves of the BPBs. -/
structure Keeps (d d' : Ddt) : Prop where
  bpb : d'.bpb.Divides
  defbpb : d'.defbpb = d.defbpb

/-- **`getbpb`** on a harmless boot sector. -/
theorem getbpb_defined {d : Ddt} {w : World} (hd : d.bpb.Divides) (hdef : d.defbpb.Divides)
    (hw : Harmless w.boot) :
    ∃ c d' w', getbpb d w = some (c, d', w') ∧ Keeps d d' ∧ w'.boot = w.boot := by
  obtain ⟨hsame, hboot⟩ := diskchange_same d w
  rw [getbpb]
  generalize diskchange d w = c at hsame hboot ⊢
  dsimp only
  have hset : ∀ e : Ddt, d.SameBpbs e → d.SameBpbs (if c.1 ≠ mNotChanged then
      e.set dfDiskchange else e) := by
    intro e he
    split
    · exact he
    · exact he
  have hsame := hset _ hsame
  generalize (if c.1 ≠ mNotChanged then c.2.1.set dfDiskchange else c.2.1) = d₁ at hsame ⊢
  obtain ⟨e, d₂, w₂, heq, hsame₂, hboot₂⟩ := lbaTransfer_defined (hsame.1 ▸ hd) (hsame.2 ▸ hdef) .read
    w.buffer d₁.offset 1 c.2.2
  have hboot := hboot₂.trans hboot
  have hbpb : d₂.bpb = d.bpb := hsame₂.1.trans hsame.1
  have hdefbpb : d₂.defbpb = d.defbpb := hsame₂.2.trans hsame.2
  rw [heq]
  simp only [Option.bind_eq_bind, Option.bind_some, Option.pure_def]
  split
  · exact ⟨_, _, _, rfl, ⟨hbpb ▸ hd, hdefbpb⟩, hboot⟩
  · split
    · exact ⟨_, _, _, rfl, ⟨hdefbpb ▸ hdef, hdefbpb⟩, hboot⟩
    · rename_i hacc
      have hgood := hw (by rw [← hboot]; simpa using hacc)
      rw [← hboot] at hgood
      split
      · exact ⟨_, _, _, rfl, ⟨hgood, hdefbpb⟩, hboot⟩
      · rename_i hcyl
        rw [divide_of_ne hcyl]
        exact ⟨_, _, _, rfl, ⟨hgood, hdefbpb⟩, hboot⟩

/-- What a request leaves of the drive, and of what it meets. -/
structure Served (s' : Drive) (w w' : World) : Prop where
  divides : s'.Divides
  boot : w'.boot = w.boot

theorem Drive.Divides.of_keeps {s s' : Drive} (h : s.Divides) (hk : Keeps s.ddt s'.ddt)
    (hp : s'.bpptr = s.bpptr) : s'.Divides := by
  refine ⟨hk.bpb, hk.defbpb ▸ h.defbpb, ?_⟩
  have hbpp := h.bpp
  rw [Drive.bpp] at hbpp ⊢
  rw [hp]
  cases hptr : s.bpptr with
  | own => exact hk.bpb
  | other b =>
    rw [hptr] at hbpp
    exact hbpp

theorem Ddt.SameBpbs.keeps {d d' : Ddt} (h : d.SameBpbs d') (hd : d.bpb.Divides) : Keeps d d' :=
  ⟨h.1 ▸ hd, h.2⟩

theorem mediachk_defined {s : Drive} {w : World} (hs : s.Divides) (hw : Harmless w.boot) :
    ∃ c s' w', mediachk s w = some (c, s', w') ∧ Served s' w w' := by
  rw [mediachk]
  dsimp only
  split
  · exact ⟨_, _, _, rfl, hs.of_keeps ⟨hs.bpb, rfl⟩ rfl, rfl⟩
  · split
    · exact ⟨_, _, _, rfl, hs.of_keeps ⟨hs.bpb, rfl⟩ rfl, rfl⟩
    · obtain ⟨hsame, hboot⟩ := diskchange_same s.ddt w
      generalize diskchange s.ddt w = c at hsame hboot ⊢
      split
      · exact ⟨_, _, _, rfl, hs.of_keeps (hsame.keeps hs.bpb) rfl, hboot⟩
      · obtain ⟨r, d', w', heq, hk, hboot'⟩ := getbpb_defined (hsame.1 ▸ hs.bpb)
          (hsame.2 ▸ hs.defbpb) (hboot ▸ hw)
        rw [heq]
        simp only [Option.bind_eq_bind, Option.bind_some, Option.pure_def]
        have hk : Keeps s.ddt d' := ⟨hk.bpb, hk.defbpb.trans hsame.2⟩
        split
        · exact ⟨_, _, _, rfl, hs.of_keeps hk rfl, hboot'.trans hboot⟩
        · split <;> exact ⟨_, _, _, rfl, hs.of_keeps hk rfl, hboot'.trans hboot⟩

theorem bldbpb_defined {s : Drive} {w : World} (hs : s.Divides) (hw : Harmless w.boot) :
    ∃ c s' w', bldbpb s w = some (c, s', w') ∧ Served s' w w' := by
  obtain ⟨r, d', w', heq, hk, hboot⟩ := getbpb_defined hs.bpb hs.defbpb hw
  rw [bldbpb, heq]
  simp only [Option.bind_eq_bind, Option.bind_some, Option.pure_def]
  split
  · exact ⟨_, _, _, rfl, hs.of_keeps hk rfl, hboot⟩
  · exact ⟨_, _, _, rfl, ⟨hk.bpb, hk.defbpb ▸ hs.defbpb, hk.bpb⟩, hboot⟩

theorem blockio_defined {s : Drive} (hs : s.Divides) (mode : Mode) (buffer start count : ℕ)
    (w : World) :
    ∃ c s' w', blockio s mode buffer start count w = some (c, s', w') ∧ Served s' w w' := by
  rw [blockio]
  generalize (if s.ddt.geometry.nsize ≠ 0 then s.ddt.geometry.nsize else s.ddt.geometry.huge) =
    size
  split
  · exact ⟨_, _, _, rfl, hs, rfl⟩
  · split
    · exact ⟨_, _, _, rfl, hs, rfl⟩
    · obtain ⟨e, d', w', heq, hsame, hboot⟩ := lbaTransfer_defined hs.bpb hs.defbpb mode buffer
        ((start + s.ddt.offset) % 2 ^ 32) count w
      rw [heq]
      exact ⟨_, _, _, rfl, hs.of_keeps (hsame.keeps hs.bpb) rfl, hboot⟩

theorem blkDriver_defined {s : Drive} {w : World} (hs : s.Divides) (hw : Harmless w.boot)
    (rq : Request) : ∃ c s' w', blkDriver s w rq = some (c, s', w') ∧ Served s' w w' := by
  cases rq with
  | mediachk => exact mediachk_defined hs hw
  | bldbpb => exact bldbpb_defined hs hw
  | blockio mode buffer start count => exact blockio_defined hs mode buffer start count w

/-- **A request of the kernel**, with its retries. -/
theorem rqblockio_defined {s : Drive} {w : World} (hs : s.Divides) (hw : Harmless w.boot)
    (rq : Request) (answers : List Answer) :
    ∃ ok s' w', rqblockio rq answers s w = some (ok, s', w') ∧ Served s' w w' := by
  induction answers generalizing s w with
  | nil =>
    obtain ⟨c, s', w', heq, hserved⟩ := blkDriver_defined hs hw rq
    rw [rqblockio, heq]
    dsimp only
    split <;> exact ⟨_, _, _, rfl, hserved⟩
  | cons a answers ih =>
    obtain ⟨c, s', w', heq, hserved⟩ := blkDriver_defined hs hw rq
    rw [rqblockio, heq]
    dsimp only
    split
    · exact ⟨_, _, _, rfl, hserved⟩
    · cases a with
      | retry =>
        obtain ⟨ok, s'', w'', heq', hserved'⟩ := ih hserved.divides (hserved.boot ▸ hw)
        exact ⟨ok, s'', w'', heq', hserved'.divides, hserved'.boot.trans hserved.boot⟩
      | abort => exact ⟨_, _, _, rfl, hserved⟩
      | fail => exact ⟨_, _, _, rfl, hserved⟩
      | «continue» => exact ⟨_, _, _, rfl, hserved⟩

/-- `bpb_to_dpb` divides by the directory entries in a sector only. -/
theorem bpbToDpb_defined {b : Bpb} (h : b.Divides) (d : Dpb) (extended : Bool) (fsinfo : Sector) :
    ∃ d', bpbToDpb b d extended fsinfo = some d' := by
  cases hd : bpbToDpb b d extended fsinfo with
  | some d' => exact ⟨d', rfl⟩
  | none =>
    rw [bpbToDpb] at hd
    simp only [if_neg h.entries, ite_eq_iff, reduceCtorEq, and_false, or_self] at hd

/-- What becomes of the DPB, or of what the device returned, is no matter. -/
theorem Drive.Divides.of_ddt {s s' : Drive} (h : s.Divides) (hd : s'.ddt = s.ddt)
    (hp : s'.bpptr = s.bpptr) : s'.Divides :=
  h.of_keeps ⟨hd ▸ h.bpb, by rw [hd]⟩ hp

/-- **A call of the kernel** while a harmless disk is in the drive. -/
theorem serve_defined {s : Drive} {c : Call} (hs : s.Divides) (hc : Harmless c.world.boot) :
    ∃ s', serve s c = some s' ∧ s'.Divides := by
  cases c with
  | dskxfer w answers mode buffer blkno numblocks =>
    rw [Call.world] at hc
    obtain ⟨ok, s', w', heq, hserved⟩ := rqblockio_defined hs hc
      (.blockio mode buffer blkno numblocks) answers
    refine ⟨s', ?_, hserved.divides⟩
    rw [serve, heq]
    rfl
  | mediaCheck w chk bld dirty internal fsinfo =>
    rw [Call.world] at hc
    obtain ⟨ok, s₁, w₁, heq, hchk⟩ := rqblockio_defined hs hc .mediachk chk
    rw [serve, heq]
    simp only [Option.bind_eq_bind, Option.bind_some, Option.pure_def]
    split
    · exact ⟨s₁, rfl, hchk.divides⟩
    · split
      · exact ⟨s₁, rfl, hchk.divides⟩
      · obtain ⟨ok', s₂, w₂, heq', hbld⟩ := rqblockio_defined hchk.divides (hchk.boot ▸ hc)
          .bldbpb bld
        rw [heq']
        simp only [Option.bind_some]
        split
        · exact ⟨s₂, rfl, hbld.divides⟩
        · obtain ⟨dpb, hdpb⟩ := bpbToDpb_defined hbld.divides.bpp s₂.dpb
            (s₂.bpp.nfsect == 0 || internal) fsinfo
          rw [hdpb]
          exact ⟨_, rfl, hbld.divides.of_ddt rfl rfl⟩

/-- **No request divides by zero** while every disk in the drive is harmless. -/
theorem requests_served {s : Drive} {calls : List Call} (hs : s.Divides)
    (hcalls : Along serveAll (fun _ c => Harmless c.world.boot) (some s) calls) :
    ∃ s', runSteps serveAll (some s) calls = some s' ∧ s'.Divides := by
  have hstep : ∀ (o : Option Drive) (c : Call), (∃ s, o = some s ∧ s.Divides) →
      Harmless c.world.boot → ∃ s, serveAll o c = some s ∧ s.Divides := by
    rintro o c ⟨s, rfl, hs⟩ hc
    exact serve_defined hs hc
  exact inv_run hstep ⟨s, rfl, hs⟩ hcalls

/-! ## A disk without tracks -/

/-- `floppy_bpbs`: 1.44 MB. -/
def fd1440 : Bpb where
  nbyte := 512
  nsector := 1
  nreserved := 1
  nfat := 2
  ndirent := 224
  nsize := 2880
  mdesc := 0xf0
  nfsect := 9
  nsecs := 18
  nheads := 2
  hidden := 0
  huge := 0
  xnfsect := 0
  xflags := 0
  xfsversion := 0
  xrootclst := 0
  xfsinfosec := 0
  xbackupsec := 0

/-- The first drive, which has a change line. -/
def driveA : Drive where
  ddt :=
    { bpb := fd1440, defbpb := fd1440, descflags := dfChangeline, ncyl := 80
      serialno := 0x12345678, offset := 0 }
  dpb :=
    { unit := 0, secsize := 512, clsmask := 0, shftcnt := 0, dirents := 224, data := 33, size := 2848
      fatsize := 9, dirstrt := 19, cluster := 0, xnfreeclst := 0, xdata := 33, xsize := 2848
      xrootclst := 0, xcluster := 0, mdb := 0xf0, fatstrt := 1, fats := 2, flags := 0, xflags := 0
      xfsinfosec := 0xffff, xbackupsec := 0xffff, xfatsize := 9 }
  bpptr := .own
  mcretcode := 0

theorem driveA_divides : driveA.Divides where
  bpb := ⟨by decide, by decide⟩
  defbpb := ⟨by decide, by decide⟩
  bpp := ⟨by decide, by decide⟩

/-- A boot sector with `nsecs` sectors per track. -/
def trackSector (nsecs : UInt8) : Sector := fun i =>
  if i = btBpb + 1 ∨ i = btBpb + 15 then 2
  else if i = btBpb + 13 then nsecs
  else if i = 0x1fe then 0x55
  else if i = 0x1ff then 0xaa
  else 0

/-- A media check just after the disk has been put into the drive. -/
def insert (nsecs : UInt8) : Call :=
  .mediaCheck ⟨trackSector nsecs, [], [⟨1, false⟩], 0⟩ [] [] false true fun _ => 0

theorem requests_served_insert : (∀ c ∈ [insert 9, insert 18], Harmless c.world.boot) ∧
    ∃ s', runSteps serveAll (some driveA) [insert 9, insert 18] = some s' ∧ s'.Divides := by
  have h9 : Harmless (insert 9).world.boot := fun _ => ⟨by decide +kernel, by decide +kernel⟩
  have h18 : Harmless (insert 18).world.boot := fun _ => ⟨by decide +kernel, by decide +kernel⟩
  refine ⟨?_, requests_served driveA_divides ⟨h9, h18, trivial⟩⟩
  simp only [List.mem_cons, List.not_mem_nil, or_false, forall_eq_or_imp, forall_eq]
  exact ⟨h9, h18⟩

/-- **The media check of a disk without tracks** fails but leaves its BPB, by which the next one
reads the boot sector. -/
theorem insert_traps : driveA.Divides ∧
    runSteps serveAll (some driveA) [insert 0, insert 0] = none := by
  refine ⟨driveA_divides, ?_⟩
  have htraps : (runSteps serveAll (some driveA) [insert 0, insert 0]).isNone = true := by
    decide +kernel
  exact Option.isNone_iff_eq_none.mp htraps

end Boot
end BurdahDos
