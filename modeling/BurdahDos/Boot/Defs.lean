import BurdahDos.Fat.Defs
import Mathlib

/-!
# Boot sectors and drive parameters

The BIOS parameter block in the first sector of a volume, and what `bpb_to_dpb` of `kernel/fatfs.c`
makes of it.  Fields are natural numbers below the bounds of their types; `int` has 16 bits, and
arithmetic that can overflow is taken modulo the width in which the code does it.
-/

set_option autoImplicit false

namespace BurdahDos
namespace Boot

open Fat

/-! ## Bytes -/

/-- The bytes of a sector. -/
abbrev Sector := ℕ → UInt8

/-- `getbyte` -/
def getbyte (s : Sector) (i : ℕ) : ℕ := (s i).toNat

/-- `getword` -/
def getword (s : Sector) (i : ℕ) : ℕ := getbyte s i + 2 ^ 8 * getbyte s (i + 1)

/-- `getlong` -/
def getlong (s : Sector) (i : ℕ) : ℕ := getword s i + 2 ^ 16 * getword s (i + 2)

/-! ## The BIOS parameter block -/

/-- `bpb` -/
structure Bpb where
  /-- Bytes per sector. -/
  nbyte : ℕ
  /-- Sectors per cluster. -/
  nsector : ℕ
  nreserved : ℕ
  nfat : ℕ
  ndirent : ℕ
  /-- Size of the volume in sectors, 0 if it is in `huge`. -/
  nsize : ℕ
  mdesc : ℕ
  /-- Sectors per FAT, 0 if they are in `xnfsect`. -/
  nfsect : ℕ
  /-- Sectors per track. -/
  nsecs : ℕ
  nheads : ℕ
  hidden : ℕ
  huge : ℕ
  xnfsect : ℕ
  xflags : ℕ
  xfsversion : ℕ
  xrootclst : ℕ
  xfsinfosec : ℕ
  xbackupsec : ℕ
deriving DecidableEq

/-- `BT_BPB` -/
def btBpb : ℕ := 0xb

/-- The BPB of a boot sector. -/
def Bpb.ofSector (s : Sector) : Bpb where
  nbyte := getword s btBpb
  nsector := getbyte s (btBpb + 2)
  nreserved := getword s (btBpb + 3)
  nfat := getbyte s (btBpb + 5)
  ndirent := getword s (btBpb + 6)
  nsize := getword s (btBpb + 8)
  mdesc := getbyte s (btBpb + 10)
  nfsect := getword s (btBpb + 11)
  nsecs := getword s (btBpb + 13)
  nheads := getword s (btBpb + 15)
  hidden := getlong s (btBpb + 17)
  huge := getlong s (btBpb + 21)
  xnfsect := getlong s (btBpb + 25)
  xflags := getword s (btBpb + 29)
  xfsversion := getword s (btBpb + 31)
  xrootclst := getlong s (btBpb + 33)
  xfsinfosec := getword s (btBpb + 37)
  xbackupsec := getword s (btBpb + 39)

/-! ## `bpb_to_dpb` -/

/-- `struct dpb`, with the fields that only the drive's parameters go to. -/
structure Dpb extends Fat.Dpb where
  mdb : ℕ
  fatstrt : ℕ
  fats : ℕ
  /-- `dpb_flags`: -1 to force a media check. -/
  flags : ℕ
  xflags : ℕ
  xfsinfosec : ℕ
  xbackupsec : ℕ
  xfatsize : ℕ

/-- `DIRENT_SIZE` -/
def direntSize : ℕ := 32

/-- The loop that counts how often the sectors per cluster can be halved. -/
def shiftLoop (nsector : ℕ) : ℕ → ℕ → ℕ
  | 0, shftcnt => shftcnt
  | n + 1, shftcnt => if nsector >>> shftcnt > 1 then shiftLoop nsector n (shftcnt + 1) else shftcnt

/-- The shift count for the sectors per cluster, which are below 2⁸. -/
def shiftCount (nsector : ℕ) : ℕ := if nsector = 0 then 8 else shiftLoop nsector 8 0

/-- `dpb_size` is backed down to the number of clusters that a FAT of so many sectors can hold. -/
def shorten (fatsize secsize size : ℕ) : ℕ :=
  let tmp := fatsize * (secsize / 2)
  if 0x10000 ≤ tmp then size
  else
    let reduce (fatsiz : ℕ) : ℕ := if fatsiz ≤ size then (fatsiz + 2 ^ 16 - 1) % 2 ^ 16 else size
    if size > fatMagic then if tmp ≤ fatMagic then size else reduce tmp
    else if 0x4000 ≤ tmp then size
    else reduce (tmp * 4 / 3)

/-- `dpb16to32` -/
def dpb16to32 (d : Dpb) : Dpb :=
  { d with
    xflags := 0, xfsinfosec := 0xffff, xbackupsec := 0xffff, xrootclst := 0
    xdata := d.data, xsize := d.size }

/-- `read_fsinfo`, the sector for it being as given. -/
def readFsinfo (d : Dpb) (fsinfo : Sector) : Dpb :=
  if d.xfsinfosec = 0xffff then d
  else
    let nfreeclst := getlong fsinfo (0x1e4 + 4)
    let cluster := getlong fsinfo (0x1e4 + 8)
    { d with
      xnfreeclst := if d.xsize ≤ nfreeclst then xunknClstFree else nfreeclst
      xcluster := if cluster < 2 ∨ d.xsize < cluster then unknCluster else cluster }

/-- `bpb_to_dpb`; `none` is a division by zero. -/
def bpbToDpb (b : Bpb) (d : Dpb) (extended : Bool) (fsinfo : Sector) : Option Dpb :=
  let shftcnt := shiftCount b.nsector
  let size := if b.nsize = 0 then b.huge else b.nsize
  let dirstrt := (b.nreserved + b.nfat * b.nfsect) % 2 ^ 16
  let perSector := b.nbyte / direntSize
  if perSector = 0 then none
  else
    let data := (dirstrt + (b.ndirent + perSector - 1) % 2 ^ 16 / perSector) % 2 ^ 16
    let dpbSize := ((((size + 2 ^ 32 - data) % 2 ^ 32) >>> shftcnt) % 2 ^ 16 + 1) % 2 ^ 16
    let d := { d with
      shftcnt := shftcnt, mdb := b.mdesc, secsize := b.nbyte
      clsmask := (b.nsector + 2 ^ 8 - 1) % 2 ^ 8
      fatstrt := b.nreserved, fats := b.nfat, dirents := b.ndirent, fatsize := b.nfsect
      dirstrt := dirstrt, data := data, size := shorten b.nfsect b.nbyte dpbSize, flags := 0
      cluster := unknCluster
      xnfreeclst := d.xnfreeclst - d.xnfreeclst % 2 ^ 16 + unknClstFree }
    if !extended then some d
    else
      let d := dpb16to32 { d with
        xfatsize := if b.nfsect = 0 then b.xnfsect else b.nfsect
        xcluster := unknCluster, xnfreeclst := xunknClstFree }
      if !d.isFat32 then some d
      else
        let xdata := (d.fatstrt + d.fats * d.xfatsize) % 2 ^ 32
        some (readFsinfo { d with
          xflags := b.xflags, xfsinfosec := b.xfsinfosec, xbackupsec := b.xbackupsec
          dirents := 0, dirstrt := 0xffff, size := 0, xdata := xdata
          xsize := (((size + 2 ^ 32 - xdata) % 2 ^ 32) >>> shftcnt + 1) % 2 ^ 32
          xrootclst := b.xrootclst } fsinfo)

/-! ## Bounds -/

theorem getbyte_lt (s : Sector) (i : ℕ) : getbyte s i < 2 ^ 8 := (s i).toNat_lt

theorem getword_lt (s : Sector) (i : ℕ) : getword s i < 2 ^ 16 := by
  have h0 := getbyte_lt s i
  have h1 := getbyte_lt s (i + 1)
  rw [getword]
  omega

theorem getlong_lt (s : Sector) (i : ℕ) : getlong s i < 2 ^ 32 := by
  have h0 := getword_lt s i
  have h2 := getword_lt s (i + 2)
  rw [getlong]
  omega

end Boot
end BurdahDos
