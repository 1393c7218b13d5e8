import BurdahDos.Boot.Disk
import Mathlib

/-!
# Block requests

`dskxfer` of `kernel/blockio.c` tells a driver which blocks it wants in a request header, which has
16 bits for the first one, and 32 more for one that does not fit or a driver that wants them.
`blockio` of `kernel/dsk.c` decodes that, and passes the request on if the blocks are on the drive.

The sum of the first block and their number is one of 32 bits.  `blockio_passes`: but for blocks so
high that it wraps, no request is passed on that reaches beyond the partition.
-/

set_option autoImplicit false

namespace BurdahDos
namespace Boot

/-! ## The request -/

/-- `C_INPUT` -/
def cInput : ℕ := 0x04
/-- `C_OUTPUT` -/
def cOutput : ℕ := 0x08
/-- `C_OUTVFY` -/
def cOutvfy : ℕ := 0x09

/-- `HUGECOUNT` -/
def hugecount : ℕ := 0xffff
/-- `MAXSHORT` -/
def maxshort : ℕ := 0xffff

/-- The modes of `dskxfer`. -/
inductive DskMode where
  /-- `DSKREAD` -/
  | read
  /-- `DSKWRITE` -/
  | write
  /-- `DSKREADINT25` -/
  | readInt25
  /-- `DSKWRITEINT26` -/
  | writeInt26
deriving DecidableEq

/-- `request`, for a transfer. -/
structure RequestHdr where
  command : ℕ
  count : ℕ
  start : ℕ
  huge : ℕ

/-- `r_command` for a mode, and `verify_ena`. -/
def DskMode.command (mode : DskMode) (verifyEna : Bool) : ℕ :=
  match mode with
  | .write => if verifyEna then cOutvfy else cOutput
  | .writeInt26 => cOutput
  | .readInt25 | .read => cInput

/-- What `dskxfer` makes of `IoReqHdr`; `attrHuge` is `ATTR_HUGE` of the driver. -/
def dskxferRequest (attrHuge verifyEna : Bool) (mode : DskMode) (blkno numblocks : ℕ)
    (hdr : RequestHdr) : RequestHdr :=
  let hdr := { hdr with command := mode.command verifyEna, count := numblocks }
  if attrHuge = true ∨ maxshort ≤ blkno then { hdr with start := hugecount, huge := blkno }
  else { hdr with start := blkno % 2 ^ 16 }

/-! ## `blockio` -/

/-- `action`, if there is one. -/
def RequestHdr.action (rq : RequestHdr) : Option Mode :=
  if rq.command = cInput then some .read
  else if rq.command = cOutput then some .write
  else if rq.command = cOutvfy then some .writeVerify
  else none

/-- `start` -/
def RequestHdr.block (rq : RequestHdr) : ℕ := if rq.start ≠ hugecount then rq.start else rq.huge

/-- `size` -/
def Ddt.sectors (d : Ddt) : ℕ := if d.geometry.nsize ≠ 0 then d.geometry.nsize else d.geometry.huge

/-- What `LBA_Transfer` is called with: a mode, a sector of the disk, and a number of sectors. -/
def Ddt.passed (d : Ddt) (rq : RequestHdr) : Option (Mode × ℕ × ℕ) :=
  match rq.action with
  | none => none
  | some action =>
    if d.has dfNoaccess then none
    else if d.sectors ≤ rq.block ∨ d.sectors < (rq.block + rq.count) % 2 ^ 32 then none
    else some (action, (rq.block + d.offset) % 2 ^ 32, rq.count)

/-- `blockio`, for a request header. -/
def blockioRequest (s : Drive) (buffer : ℕ) (rq : RequestHdr) (w : World) :
    Option (ℕ × Drive × World) :=
  match rq.action with
  | none => some (failure 12, s, w)
  | some action => blockio s action buffer rq.block rq.count w

/-- Nothing is transferred but what is passed on. -/
theorem blockioRequest_passed {s : Drive} {rq : RequestHdr} {action : Mode} {start count : ℕ}
    (h : s.ddt.passed rq = some (action, start, count)) (buffer : ℕ) (w : World) :
    blockioRequest s buffer rq w =
      (lbaTransfer s.ddt action buffer start count w).map fun r =>
        (if r.1 ≠ 0 then dskerr r.1 else sDone, { s with ddt := r.2.1 }, r.2.2) := by
  rw [Ddt.passed] at h
  rw [blockioRequest]
  cases haction : rq.action with
  | none => simp [haction] at h
  | some action' =>
    simp only [haction] at h
    split at h
    · simp at h
    · rename_i hacc
      split at h
      · simp at h
      · rename_i hin
        obtain ⟨rfl, rfl, rfl⟩ : action' = action ∧ _ ∧ rq.count = count := by simpa using h
        dsimp only
        rw [blockio]
        simp only [if_neg hacc]
        rw [Ddt.sectors] at hin
        rw [if_neg hin]
        cases lbaTransfer s.ddt action' buffer ((rq.block + s.ddt.offset) % 2 ^ 32) rq.count w <;> rfl

/-- A request that is not passed on fails, and nothing is changed. -/
theorem blockioRequest_rejected {s : Drive} {rq : RequestHdr} (h : s.ddt.passed rq = none)
    (buffer : ℕ) (w : World) :
    blockioRequest s buffer rq w = some (failure 12, s, w) ∨
      blockioRequest s buffer rq w = some (0x0408, s, w) := by
  rw [Ddt.passed] at h
  rw [blockioRequest]
  cases haction : rq.action with
  | none => exact Or.inl rfl
  | some action =>
    simp only [haction] at h
    dsimp only
    rw [blockio]
    split at h
    · rename_i hacc
      exact Or.inl (if_pos hacc)
    · rename_i hacc
      split at h
      · rename_i hout
        simp only [if_neg hacc]
        exact Or.inr (if_pos hout)
      · simp at h

/-! ## The two together -/

section
variable (attrHuge verifyEna : Bool) (mode : DskMode) (numblocks : ℕ) (hdr : RequestHdr)

theorem dskxferRequest_count (blkno : ℕ) :
    (dskxferRequest attrHuge verifyEna mode blkno numblocks hdr).count = numblocks := by
  simp only [dskxferRequest]
  split <;> rfl

/-- The driver is asked for what it can do. -/
theorem dskxferRequest_action (blkno : ℕ) :
    (dskxferRequest attrHuge verifyEna mode blkno numblocks hdr).action ≠ none := by
  have hcommand : (dskxferRequest attrHuge verifyEna mode blkno numblocks hdr).command =
      mode.command verifyEna := by
    simp only [dskxferRequest]
    split <;> rfl
  rw [RequestHdr.action, hcommand]
  cases mode <;> cases verifyEna <;> decide

/-- **The driver gets the block number.**  One that looks like the escape value is sent as 32
bits. -/
theorem dskxferRequest_block (blkno : ℕ) :
    (dskxferRequest attrHuge verifyEna mode blkno numblocks hdr).block = blkno := by
  simp only [dskxferRequest]
  split
  · simp [RequestHdr.block]
  · rename_i h
    have hlt : blkno < 0xffff := by simpa [maxshort] using (not_or.mp h).2
    have hmod : blkno % 2 ^ 16 = blkno := Nat.mod_eq_of_lt (by omega)
    rw [RequestHdr.block]
    dsimp only
    rw [hmod, if_pos (by rw [hugecount]; omega)]

/-- What of a request of `dskxfer` is passed on. -/
theorem passed_dskxfer {d : Ddt} (hacc : d.has dfNoaccess = false) (blkno : ℕ) :
    (d.passed (dskxferRequest attrHuge verifyEna mode blkno numblocks hdr)).isSome ↔
      blkno < d.sectors ∧ (blkno + numblocks) % 2 ^ 32 ≤ d.sectors := by
  rw [Ddt.passed, dskxferRequest_block, dskxferRequest_count]
  obtain ⟨action, haction⟩ := Option.ne_none_iff_exists'.mp
    (dskxferRequest_action attrHuge verifyEna mode numblocks hdr blkno)
  simp only [haction, hacc, Bool.false_eq_true, if_false]
  split
  · rename_i h
    simp only [Option.isSome_none, Bool.false_eq_true, false_iff]
    omega
  · rename_i h
    simp only [Option.isSome_some, true_iff]
    omega

/-- **What is passed on is on the drive**, for an accessible drive, and a block for which the sum
with the number of blocks does not wrap unless the block is beyond the drive anyway.  `blockio`
transfers nothing else, and changes nothing if it passes nothing on. -/
theorem blockio_passes {d : Ddt} {blkno : ℕ} (hacc : d.has dfNoaccess = false)
    (hsize : d.offset + d.sectors ≤ 2 ^ 32)
    (hsum : blkno < d.sectors → blkno + numblocks < 2 ^ 32) :
    let rq := dskxferRequest attrHuge verifyEna mode blkno numblocks hdr
    rq.block = blkno ∧
      ((d.passed rq).isSome ↔
        blkno < d.sectors ∧ ∀ s, blkno ≤ s → s < blkno + numblocks → s < d.sectors) ∧
      (∀ action start count, d.passed rq = some (action, start, count) →
        start = d.offset + blkno ∧ count = numblocks ∧
          (∀ s, start ≤ s → s < start + count → d.offset ≤ s ∧ s < d.offset + d.sectors) ∧
          ∀ (s : Drive) (buffer : ℕ) (w : World), s.ddt = d → blockioRequest s buffer rq w =
            (lbaTransfer d action buffer start count w).map fun r =>
              (if r.1 ≠ 0 then dskerr r.1 else sDone, { s with ddt := r.2.1 }, r.2.2)) ∧
      (d.passed rq = none → ∀ (s : Drive) (buffer : ℕ) (w : World), s.ddt = d →
        blockioRequest s buffer rq w = some (failure 12, s, w) ∨
          blockioRequest s buffer rq w = some (0x0408, s, w)) := by
  intro rq
  have hblock : rq.block = blkno := dskxferRequest_block attrHuge verifyEna mode numblocks hdr blkno
  have hcount : rq.count = numblocks :=
    dskxferRequest_count attrHuge verifyEna mode numblocks hdr blkno
  have hiff : (d.passed rq).isSome ↔
      blkno < d.sectors ∧ ∀ s, blkno ≤ s → s < blkno + numblocks → s < d.sectors := by
    rw [passed_dskxfer attrHuge verifyEna mode numblocks hdr hacc]
    refine and_congr_right fun hblk => ?_
    rw [Nat.mod_eq_of_lt (hsum hblk)]
    constructor
    · intro hle s _ hs
      omega
    · intro hall
      by_contra hlt
      have hlast := hall (blkno + numblocks - 1) (by omega) (by omega)
      omega
  refine ⟨hblock, hiff, fun action start count hpassed => ?_, fun hnone s buffer w hs =>
    blockioRequest_rejected (hs ▸ hnone) buffer w⟩
  obtain ⟨hblk, hall⟩ := hiff.mp (by rw [hpassed]; rfl)
  -- The sector on the disk does not wrap either, since the partition ends below 2³².
  have hstart : start = d.offset + blkno ∧ count = numblocks := by
    rw [Ddt.passed] at hpassed
    split at hpassed
    · simp at hpassed
    · split_ifs at hpassed
      obtain ⟨-, rfl, rfl⟩ : _ = action ∧ _ = start ∧ _ = count := by simpa using hpassed
      rw [hblock, Nat.mod_eq_of_lt (by omega)]
      exact ⟨Nat.add_comm _ _, hcount⟩
  obtain ⟨rfl, rfl⟩ := hstart
  refine ⟨rfl, rfl, fun s hs hlt => ⟨by omega, ?_⟩, fun s buffer w hs => ?_⟩
  · have hs' := hall (s - d.offset) (by omega) (by omega)
    omega
  · subst hs
    exact blockioRequest_passed hpassed buffer w

end

/-- The parameters of an accessible hard disk with so many sectors. -/
def diskOf (offset sectors : ℕ) : Ddt where
  bpb := { fd1440 with nsize := 0, huge := sectors }
  defbpb := { fd1440 with nsize := 0, huge := sectors }
  descflags := dfFixed
  ncyl := 0
  serialno := 0
  offset := offset

theorem blockio_passes_sector :
    (diskOf 63 100000).has dfNoaccess = false ∧ 63 + (diskOf 63 100000).sectors ≤ 2 ^ 32 ∧
      let rq := dskxferRequest false false .read 65535 2 ⟨0, 0, 0, 0⟩
      rq.block = 65535 ∧ ((diskOf 63 100000).passed rq).isSome ∧
        (diskOf 63 100000).passed rq = some (.read, 65598, 2) := by
  have h := @blockio_passes false false .read 2 ⟨0, 0, 0, 0⟩ (diskOf 63 100000) 65535 (by decide)
    (by decide) fun _ => by decide
  refine ⟨by decide, by decide, h.1, h.2.1.mpr ⟨by decide, fun s _ hs => ?_⟩, by decide⟩
  have hsectors : (diskOf 63 100000).sectors = 100000 := by decide
  omega

/-- No blocks are not passed on if they are at the end of a drive; but blocks around the end of one
that nearly has 2³² sectors are. -/
theorem blockio_refuses_none :
    ((diskOf 0 10).passed (dskxferRequest false false .read 10 0 ⟨0, 0, 0, 0⟩)).isSome = false ∧
      (∀ s, 10 ≤ s → s < 10 + 0 → s < (diskOf 0 10).sectors) ∧
      (diskOf 0 0xffffffff).passed (dskxferRequest false false .read 0xfffffffe 5 ⟨0, 0, 0, 0⟩) =
        some (.read, 0xfffffffe, 5) ∧
      ¬ ∀ s, 0xfffffffe ≤ s → s < 0xfffffffe + 5 → s < (diskOf 0 0xffffffff).sectors := by
  refine ⟨by decide, fun s hs hlt => by omega, by decide, fun h => ?_⟩
  exact absurd (h 0xffffffff (by decide) (by decide)) (by decide)

end Boot
end BurdahDos
