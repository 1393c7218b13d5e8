import BurdahDos.Boot.Clip
import BurdahDos.Boot.FatType
import BurdahDos.Boot.Scan
import Mathlib

/-!
# The default BPB

`CalculateFATData` of `kernel/initdisk.c` lays out a partition that may not have been formatted
yet: the sectors of a cluster and of a FAT.  The longer the FATs are the fewer clusters there are
to be in them, so it solves for the length (`fatLength`), and tries larger clusters until their
number suits the type.

`bpb_to_dpb` counts the clusters again.  `definePartition_layout`: it finds the type that was asked
for, the clusters that there is room for behind the FATs, and an entry for each of them.
-/

set_option autoImplicit false

namespace BurdahDos
namespace Boot

open Fat

/-! ## `CalculateFATData` -/

/-- `NSECTORFAT12` -/
def nsectorFat12 : ℕ := 8
/-- `MAXCLUSTSIZE` -/
def maxclustsize : ℕ := 128
/-- `NFAT` -/
def nfat : ℕ := 2
/-- `FLOPPY_SEC_SIZE` -/
def floppySecSize : ℕ := 512
/-- `FAT_MAGIC32` -/
def fatMagic32 : ℕ := 268435455
/-- `FAT16MAX` -/
def fat16Max : ℕ := fatMagic16 - 6
/-- `FAT32MAX` -/
def fat32Max : ℕ := fatMagic32 - 6

/-- `cdiv` -/
def cdiv (a b : ℕ) : ℕ := (a + b - 1) / b

/-- The type of FAT for a kind of partition. -/
def fsTypeOf (fileSystem : ℕ) : FsType :=
  if fileSystem = 0x01 ∨ fileSystem = fat12Lba then .fat12
  else if fileSystem = 0x0b ∨ fileSystem = fat32Lba then .fat32
  else .fat16

/-- The sectors per cluster that FAT32 starts with. -/
def fat32Nsector (numSectors : ℕ) : ℕ :=
  let szGb := numSectors / 2097152
  if numSectors ≤ 532480 then 1
  else if szGb ≤ 8 then 8
  else if szGb ≤ 16 then 16
  else if szGb ≤ 32 then 32
  else 64

/-- `fatlength`, for `nsector` sectors in a cluster. -/
def fatLength (fatdata fatentpersec nsector : ℕ) : ℕ :=
  let divisor := fatentpersec * nsector + nfat
  let rest := fatdata % divisor
  fatdata / divisor + (2 * nsector + divisor + rest - 1) / divisor

/-- `clust`, 0 if their number does not suit the type. -/
def clustersFor (fatdata fatentpersec maxcl nsector : ℕ) : ℕ :=
  let fatlength := fatLength fatdata fatentpersec nsector
  let clust := (fatdata + 2 ^ 32 - nfat * fatlength) % 2 ^ 32 / nsector
  let maxclust := min (fatlength * fatentpersec) maxcl
  if maxclust - 2 < clust then 0 else if clust ≤ fatMagic then 0 else clust

/-- The loop over cluster sizes, of at most `n` turns: `bpb_nsector` and `fatlength`. -/
def clusterLoop (fatdata fatentpersec maxcl : ℕ) : ℕ → ℕ → ℕ × ℕ
  | 0, nsector => (nsector, 0)
  | n + 1, nsector =>
    if clustersFor fatdata fatentpersec maxcl nsector ≠ 0 then
      (nsector, fatLength fatdata fatentpersec nsector)
    else
      let next := (nsector <<< 1) % 2 ^ 8
      if next ≠ 0 ∧ next ≤ maxclustsize then clusterLoop fatdata fatentpersec maxcl n next
      else (next, fatLength fatdata fatentpersec nsector)

/-- The turns of the loop: the sectors of a cluster can be doubled so often. -/
def clusterTurns : ℕ := 8

/-- `fatdata`: the sectors for FATs and data, not more than the type can have. -/
def fatdataOf (fs : FsType) (numSectors : ℕ) : ℕ :=
  let fatdata := (numSectors + 2 ^ 32 - (direntSize + 1)) % 2 ^ 32
  match fs with
  | .fat12 => if 32640 < fatdata then 32640 else fatdata
  | .fat16 => if 8386688 < fatdata then 8386688 else fatdata
  | .fat32 => (numSectors + 2 ^ 32 - 0x20) % 2 ^ 32

/-- The sectors of a cluster and of a FAT. -/
def sizesFor (fs : FsType) (fatdata numSectors : ℕ) : ℕ × ℕ :=
  match fs with
  | .fat12 =>
    (nsectorFat12, cdiv ((fatdata + 2 * nsectorFat12) * 3)
      (floppySecSize * 2 * nsectorFat12 + nfat * 3))
  | .fat32 =>
    clusterLoop fatdata (floppySecSize / 4) fat32Max clusterTurns (fat32Nsector numSectors)
  | .fat16 => clusterLoop fatdata (floppySecSize / 2) fat16Max clusterTurns 4

/-- The fields for these sizes, and for the type. -/
def Bpb.layOut (b : Bpb) (fs : FsType) (sizes : ℕ × ℕ) : Bpb :=
  if fs = .fat32 then
    { b with
      ndirent := 0, nreserved := 0x20, nsector := sizes.1, nfsect := 0, xnfsect := sizes.2
      xflags := 0, xfsversion := 0, xrootclst := 2, xfsinfosec := 1, xbackupsec := 6 }
  else { b with nsector := sizes.1, nfsect := sizes.2 % 2 ^ 16 }

/-- `CalculateFATData` -/
def calculateFatData (b : Bpb) (numSectors fileSystem : ℕ) : Bpb :=
  let fs := fsTypeOf fileSystem
  { b with nfat := nfat, ndirent := 512, nreserved := 1 }.layOut fs
    (sizesFor fs (fatdataOf fs numSectors) numSectors)

/-- `ddt_defbpb` in `DosDefinePartition`; the fields that it does not set are those of `b`. -/
def definePartition (p : DriveParam) (e : PartTableEntry) (b : Bpb) : Bpb :=
  calculateFatData { b with
    nbyte := floppySecSize, mdesc := 0xf8, nheads := p.heads, nsecs := p.sectors, hidden := e.relSect
    nsize := if e.numSect ≤ 0xffff then e.numSect else 0
    huge := if e.numSect ≤ 0xffff then 0 else e.numSect } e.numSect e.fileSystem

/-! ## Layouts -/

/-- Sectors of the volume. -/
def Bpb.sectors (b : Bpb) : ℕ := if b.nsize = 0 then b.huge else b.nsize

/-- Sectors per FAT. -/
def Bpb.fatSectors (b : Bpb) : ℕ := if b.nfsect = 0 then b.xnfsect else b.nfsect

/-- Where the data area begins: behind the FATs and the root directory. -/
def Bpb.dataArea (b : Bpb) : ℕ :=
  b.nreserved + b.nfat * b.fatSectors + cdiv (b.ndirent * direntSize) b.nbyte

/-- The clusters that there is room for. -/
def Bpb.clusters (b : Bpb) : ℕ := (b.sectors - b.dataArea) / b.nsector

/-- The bits of an entry. -/
def entryBits : FsType → ℕ
  | .fat12 => 12
  | .fat16 => 16
  | .fat32 => 32

/-- The sizes that the comments have for the types, and what fits into the field. -/
def sizeLimit : FsType → ℕ
  | .fat12 => 32672
  | .fat16 => 8386688
  | .fat32 => 2 ^ 32 - 1

/-- **The FATs have an entry for each cluster**, and the two reserved ones. -/
def Bpb.Roomy (fs : FsType) (b : Bpb) : Prop :=
  (b.clusters + 2) * entryBits fs ≤ 8 * (b.fatSectors * b.nbyte)

/-! ## The length of a FAT -/

section
variable {fatdata fatentpersec maxcl nsector n : ℕ}

theorem fatLength_pos (fatdata fatentpersec : ℕ) (hns : 0 < nsector) :
    0 < fatLength fatdata fatentpersec nsector := by
  have hpos : 0 < fatentpersec * nsector + nfat := Nat.add_pos_right _ (by decide)
  rw [fatLength]
  refine Nat.add_pos_right _ (Nat.div_pos ?_ hpos)
  omega

/-- A FAT is not longer than half of the sectors, or so. -/
theorem fatLength_le (fatdata : ℕ) (hfat : 2 ≤ fatentpersec) (hns : 0 < nsector) :
    fatLength fatdata fatentpersec nsector ≤ fatdata / (fatentpersec * nsector + nfat) + 2 := by
  have hle : 2 * nsector ≤ fatentpersec * nsector := Nat.mul_le_mul_right _ hfat
  rw [fatLength]
  refine Nat.add_le_add_left (Nat.le_of_lt_succ ?_) _
  have hpos : 0 < fatentpersec * nsector + nfat := Nat.add_pos_right _ (by decide)
  have hlt := Nat.mod_lt fatdata hpos
  have hnfat : nfat = 2 := rfl
  rw [Nat.div_lt_iff_lt_mul hpos]
  omega

/-! ## The loop -/

/-- What a cluster size is that the loop ends with. -/
structure Chosen (fatdata fatentpersec maxcl : ℕ) (r : ℕ × ℕ) : Prop where
  power : ∃ k < 8, r.1 = 2 ^ k
  length : r.2 = fatLength fatdata fatentpersec r.1
  suits : clustersFor fatdata fatentpersec maxcl r.1 ≠ 0

/-- **The loop ends with a cluster size that suits, or with none**, after eight turns at most. -/
theorem clusterLoop_chosen {k : ℕ} (hk : k < 8) (hn : 8 ≤ n + k) :
    (clusterLoop fatdata fatentpersec maxcl n (2 ^ k)).1 = 0 ∨
      Chosen fatdata fatentpersec maxcl (clusterLoop fatdata fatentpersec maxcl n (2 ^ k)) := by
  induction n generalizing k with
  | zero => exact absurd hn (by omega)
  | succ n ih =>
    rw [clusterLoop]
    split
    · rename_i hsuits
      exact Or.inr ⟨⟨k, hk, rfl⟩, rfl, hsuits⟩
    · rw [Nat.shiftLeft_eq, Nat.pow_one, ← Nat.pow_succ]
      by_cases hlast : k = 7
      · subst hlast
        have hnext : 2 ^ (7 + 1) % 2 ^ 8 = 0 := by decide
        simp only [hnext, ne_eq, not_true_eq_false, false_and, if_false, true_or]
      · have hmod : 2 ^ (k + 1) % 2 ^ 8 = 2 ^ (k + 1) :=
          Nat.mod_eq_of_lt (Nat.pow_lt_pow_right (by decide) (by omega))
        have hle : 2 ^ (k + 1) ≤ maxclustsize := by
          have h : 2 ^ (k + 1) ≤ 2 ^ 7 := Nat.pow_le_pow_right (by decide) (by omega)
          exact h
        simp only [hmod]
        rw [if_pos ⟨Nat.ne_of_gt (Nat.two_pow_pos _), hle⟩]
        exact ih (by omega) (by omega)

theorem fat32Nsector_power (numSectors : ℕ) : ∃ k < 8, fat32Nsector numSectors = 2 ^ k := by
  rw [fat32Nsector]
  split_ifs
  · exact ⟨0, by decide, rfl⟩
  · exact ⟨3, by decide, rfl⟩
  · exact ⟨4, by decide, rfl⟩
  · exact ⟨5, by decide, rfl⟩
  · exact ⟨6, by decide, rfl⟩

/-- The number of clusters that suits, if the FATs are not longer than the partition. -/
theorem Chosen.clusters {r : ℕ × ℕ} (h : Chosen fatdata fatentpersec maxcl r)
    (hle : nfat * r.2 ≤ fatdata) (hdata : fatdata < 2 ^ 32) :
    fatMagic < (fatdata - nfat * r.2) / r.1 ∧ (fatdata - nfat * r.2) / r.1 ≤ maxcl - 2 ∧
      (fatdata - nfat * r.2) / r.1 + 2 ≤ r.2 * fatentpersec := by
  have hmagic : fatMagic = 4085 := rfl
  have hsuits := h.suits
  have hmod : (fatdata + 2 ^ 32 - nfat * r.2) % 2 ^ 32 = fatdata - nfat * r.2 := by omega
  rw [clustersFor, ← h.length] at hsuits
  simp only [hmod] at hsuits
  split_ifs at hsuits with h1 h2
  · exact absurd rfl hsuits
  · exact absurd rfl hsuits
  · omega

theorem Chosen.pos {r : ℕ × ℕ} (h : Chosen fatdata fatentpersec maxcl r) : 0 < r.1 := by
  obtain ⟨k, -, hk⟩ := h.power
  rw [hk]
  exact Nat.two_pow_pos k

end

/-! ## What `bpb_to_dpb` makes of it -/

section
variable {b : Bpb} {d d' : Dpb} {extended : Bool} {fsinfo : Sector}

theorem shiftCount_two_pow {k : ℕ} (hk : k < 8) : shiftCount (2 ^ k) = k := by
  have hall : ∀ k < 8, shiftCount (2 ^ k) = k := by decide
  exact hall k hk

theorem bpbToDpb_exists (hbytes : b.nbyte = floppySecSize) (d : Dpb) (extended : Bool)
    (fsinfo : Sector) : ∃ d', bpbToDpb b d extended fsinfo = some d' := by
  have hper : ¬ b.nbyte / direntSize = 0 := by
    rw [hbytes]
    decide
  cases hd : bpbToDpb b d extended fsinfo with
  | some d' => exact ⟨d', rfl⟩
  | none =>
    rw [bpbToDpb] at hd
    simp only [if_neg hper, ite_eq_iff, reduceCtorEq, and_false, or_self] at hd

/-- The BPB of a FAT12 or FAT16 partition, as it is laid out by default. -/
structure SmallLayout (b : Bpb) : Prop where
  bytes : b.nbyte = floppySecSize
  fats : b.nfat = nfat
  reserved : b.nreserved = 1
  entries : b.ndirent = 512
  power : ∃ k < 8, b.nsector = 2 ^ k
  length_pos : 0 < b.nfsect
  length_lt : 33 + 2 * b.nfsect < 2 ^ 16
  sectors_lt : b.sectors < 2 ^ 32
  data : b.dataArea ≤ b.sectors

theorem SmallLayout.dataArea (h : SmallLayout b) : b.dataArea = 33 + 2 * b.nfsect := by
  have hlen := h.length_pos
  rw [Bpb.dataArea, Bpb.fatSectors, if_neg (Nat.ne_of_gt hlen), h.bytes, h.fats, h.reserved, h.entries]
  have hroot : cdiv (512 * direntSize) floppySecSize = 32 := by decide
  rw [hroot, nfat]
  omega

/-- `bpb_to_dpb` finds the same clusters. -/
theorem SmallLayout.unclipped (h : SmallLayout b) (hlt : b.clusters < 2 ^ 16 - 1) :
    b.unclipped = b.clusters + 1 := by
  obtain ⟨k, hk, hns⟩ := h.power
  have hdata := h.data
  have hsectors := h.sectors_lt
  have hlen := h.length_lt
  rw [Bpb.clusters] at hlt ⊢
  rw [h.dataArea] at hdata hlt ⊢
  have hsize : (if b.nsize = 0 then b.huge else b.nsize) = b.sectors := rfl
  have hper : (512 + floppySecSize / direntSize - 1) % 2 ^ 16 / (floppySecSize / direntSize) = 32 := by
    decide
  have harea : ((1 + nfat * b.nfsect) % 2 ^ 16 + 32) % 2 ^ 16 = 33 + 2 * b.nfsect := by
    rw [nfat]
    omega
  have hdiff : (b.sectors + 2 ^ 32 - (33 + 2 * b.nfsect)) % 2 ^ 32 =
      b.sectors - (33 + 2 * b.nfsect) := by omega
  rw [Bpb.unclipped]
  simp only [hsize, h.bytes, h.fats, h.reserved, h.entries, hper, harea, hdiff]
  rw [hns] at hlt ⊢
  rw [shiftCount_two_pow hk, Nat.shiftRight_eq_div_pow]
  generalize (b.sectors - (33 + 2 * b.nfsect)) / 2 ^ k = n at hlt
  omega

/-- **The type is told right, and no cluster is taken away**, as the FAT is long enough. -/
theorem SmallLayout.agrees (h : SmallLayout b) {fs : FsType} (hfs : fs ≠ .fat32)
    (htype : fs = .fat12 ↔ b.clusters + 1 ≤ fatMagic) (hlt : b.clusters + 1 ≤ fatMagic16)
    (hroom : b.Roomy fs) (hd : bpbToDpb b d extended fsinfo = some d') :
    Agrees fs d'.toDpb ∧ d'.maxCluster = b.clusters + 1 := by
  have h12 : fatMagic = 4085 := rfl
  have h16 : fatMagic16 = 65525 := rfl
  have hne := Nat.ne_of_gt h.length_pos
  obtain ⟨hfatsize, -, hsize⟩ := bpbToDpb_size hne hd
  rw [h.unclipped (by omega), h.bytes] at hsize
  rw [Bpb.Roomy, Bpb.fatSectors, if_neg hne, h.bytes, floppySecSize] at hroom
  have htmp : b.nfsect * (floppySecSize / 2) = 256 * b.nfsect := by
    rw [floppySecSize]
    omega
  have hkeep : d'.size = b.clusters + 1 := by
    have hcases := shorten_cases b.nfsect floppySecSize (by omega : b.clusters + 1 < 2 ^ 16)
      h.length_pos htmp
    rw [← hsize] at hcases
    cases fs with
    | fat12 =>
      have hle := htype.mp rfl
      simp only [entryBits] at hroom
      omega
    | fat16 =>
      have hgt : ¬ b.clusters + 1 ≤ fatMagic := fun hle => nomatch htype.mpr hle
      simp only [entryBits] at hroom
      omega
    | fat32 => exact absurd rfl hfs
  have h32 : d'.isFat32 = false := by simpa [Fat.Dpb.isFat32, hfatsize] using hne
  refine ⟨?_, by rw [Fat.Dpb.maxCluster, h32, hkeep]; rfl⟩
  simp only [Agrees, h32, Fat.Dpb.isFat12, Fat.Dpb.isFat16, hkeep, Bool.and_eq_true,
    decide_eq_true_eq, Bool.false_eq_true, false_iff]
  cases fs with
  | fat12 =>
    have hle := htype.mp rfl
    simp only [reduceCtorEq, iff_true, iff_false, not_false_eq_true, and_true]
    omega
  | fat16 =>
    have hgt : ¬ b.clusters + 1 ≤ fatMagic := fun hle => nomatch htype.mpr hle
    simp only [reduceCtorEq, iff_true, iff_false, not_false_eq_true, and_true]
    omega
  | fat32 => exact absurd rfl hfs

theorem readFsinfo_xsize (d : Dpb) (fsinfo : Sector) : (readFsinfo d fsinfo).xsize = d.xsize := by
  rw [readFsinfo]
  split <;> rfl

/-- What a FAT32 BPB comes to. -/
theorem bpbToDpb_xsize (hbytes : b.nbyte = floppySecSize) (hfat : b.nfsect = 0)
    (hd : bpbToDpb b d true fsinfo = some d') :
    d'.fatsize = 0 ∧ d'.size = 0 ∧ d'.xsize =
      (((b.sectors + 2 ^ 32 - (b.nreserved + b.nfat * b.xnfsect) % 2 ^ 32) % 2 ^ 32) >>>
        shiftCount b.nsector + 1) % 2 ^ 32 := by
  have hper : ¬ b.nbyte / direntSize = 0 := by
    rw [hbytes]
    decide
  rw [bpbToDpb] at hd
  dsimp only at hd
  rw [hfat, if_neg hper, if_neg (by decide), if_neg (by simp [dpb16to32, Fat.Dpb.isFat32])] at hd
  obtain rfl := Option.some.inj hd
  refine ⟨(readFsinfo_size _ _).1, (readFsinfo_size _ _).2, ?_⟩
  rw [readFsinfo_xsize]
  rfl

end

/-! ## The default BPB -/

/-- A cluster size that is not 0 suits a FAT16. -/
theorem sizesFor_fat16 {fatdata numSectors : ℕ} (h : (sizesFor .fat16 fatdata numSectors).1 ≠ 0) :
    Chosen fatdata (floppySecSize / 2) fat16Max (sizesFor .fat16 fatdata numSectors) :=
  (@clusterLoop_chosen fatdata (floppySecSize / 2) fat16Max clusterTurns 2 (by decide)
    (by decide)).resolve_left h

/-- A cluster size that is not 0 suits a FAT32. -/
theorem sizesFor_fat32 {fatdata numSectors : ℕ} (h : (sizesFor .fat32 fatdata numSectors).1 ≠ 0) :
    Chosen fatdata (floppySecSize / 4) fat32Max (sizesFor .fat32 fatdata numSectors) := by
  obtain ⟨k, hk, hstart⟩ := fat32Nsector_power numSectors
  have hturns : 8 ≤ clusterTurns + k := Nat.le_add_right 8 k
  rw [sizesFor, hstart] at h ⊢
  exact (clusterLoop_chosen hk hturns).resolve_left h

/-- What is known of a default BPB for a partition of `numSect` sectors. -/
structure LaidOut (fs : FsType) (numSect : ℕ) (sizes : ℕ × ℕ) (b : Bpb) : Prop where
  bytes : b.nbyte = floppySecSize
  fats : b.nfat = nfat
  reserved : b.nreserved = if fs = .fat32 then 0x20 else 1
  entries : b.ndirent = if fs = .fat32 then 0 else 512
  sectors : b.sectors = numSect
  cluster : b.nsector = sizes.1
  length : b.nfsect = if fs = .fat32 then 0 else sizes.2 % 2 ^ 16
  xlength : fs = .fat32 → b.xnfsect = sizes.2

theorem definePartition_laidOut (p : DriveParam) (e : PartTableEntry) (b : Bpb) :
    LaidOut (fsTypeOf e.fileSystem) e.numSect (sizesFor (fsTypeOf e.fileSystem)
      (fatdataOf (fsTypeOf e.fileSystem) e.numSect) e.numSect) (definePartition p e b) := by
  rw [definePartition, calculateFatData]
  dsimp only
  generalize sizesFor (fsTypeOf e.fileSystem) (fatdataOf (fsTypeOf e.fileSystem) e.numSect)
    e.numSect = sizes
  generalize fsTypeOf e.fileSystem = fs
  by_cases hfs : fs = .fat32
  · rw [Bpb.layOut, if_pos hfs]
    refine ⟨rfl, rfl, (if_pos hfs).symm, (if_pos hfs).symm, ?_, rfl, (if_pos hfs).symm, fun _ => rfl⟩
    dsimp only [Bpb.sectors]
    split_ifs <;> omega
  · rw [Bpb.layOut, if_neg hfs]
    refine ⟨rfl, rfl, (if_neg hfs).symm, (if_neg hfs).symm, ?_, rfl, (if_neg hfs).symm,
      fun h => absurd h hfs⟩
    dsimp only [Bpb.sectors]
    split_ifs <;> omega

section
variable {b : Bpb} {fs : FsType} {numSect : ℕ} {sizes : ℕ × ℕ}

theorem nsector_ne_zero (h : 0 < b.clusters) : b.nsector ≠ 0 := fun hzero => by
  rw [Bpb.clusters, hzero, Nat.div_zero] at h
  exact absurd h (Nat.lt_irrefl 0)

/-- Where the data area of a FAT12 or FAT16 partition begins. -/
theorem LaidOut.dataArea (h : LaidOut fs numSect sizes b) (hfs : fs ≠ .fat32) (hlen : b.nfsect ≠ 0) :
    b.dataArea = 33 + 2 * b.nfsect := by
  have hroot : cdiv (512 * direntSize) floppySecSize = 32 := by decide
  rw [Bpb.dataArea, Bpb.fatSectors, if_neg hlen, h.bytes, h.fats, h.reserved, h.entries, if_neg hfs,
    if_neg hfs, hroot, nfat]
  omega

theorem LaidOut.small (h : LaidOut fs numSect sizes b) (hfs : fs ≠ .fat32)
    (hpower : ∃ k < 8, b.nsector = 2 ^ k) (hpos : 0 < b.nfsect) (hlt : 33 + 2 * b.nfsect < 2 ^ 16)
    (hnum : numSect < 2 ^ 32) (hdata : 33 + 2 * b.nfsect ≤ numSect) : SmallLayout b := by
  refine ⟨h.bytes, h.fats, ?_, ?_, hpower, hpos, hlt, ?_, ?_⟩
  · rw [h.reserved, if_neg hfs]
  · rw [h.entries, if_neg hfs]
  · rwa [h.sectors]
  · rwa [h.dataArea hfs (Nat.ne_of_gt hpos), h.sectors]

/-- A FAT12 partition is small enough for clusters of 4K, and its FATs are long enough for them. -/
theorem LaidOut.of_fat12 (h : LaidOut .fat12 numSect (sizesFor .fat12 (fatdataOf .fat12 numSect) numSect) b)
    (hnum : numSect ≤ sizeLimit .fat12) (hdata : 0 < b.clusters) :
    SmallLayout b ∧ b.clusters + 1 ≤ fatMagic ∧ b.Roomy .fat12 := by
  rw [sizeLimit] at hnum
  have hfatdata : fatdataOf .fat12 numSect ≤ 32640 := by
    rw [fatdataOf]
    split <;> omega
  have hcluster : b.nsector = 8 := h.cluster
  have hlength : b.nfsect = ((fatdataOf .fat12 numSect + 16) * 3 + 8198 - 1) / 8198 := by
    rw [h.length, if_neg (by decide)]
    simp only [sizesFor, cdiv, nsectorFat12, floppySecSize, nfat]
    exact Nat.mod_eq_of_lt (by omega)
  have hne : b.nfsect ≠ 0 := by omega
  have hclusters : b.clusters = (numSect - (33 + 2 * b.nfsect)) / 8 := by
    rw [Bpb.clusters, h.sectors, h.dataArea (by decide) hne, hcluster]
  have hall : fatdataOf .fat12 numSect = numSect - 33 := by
    rw [fatdataOf, direntSize]
    split <;> omega
  refine ⟨h.small (by decide) ⟨3, by decide, hcluster⟩ (by omega) (by omega) (by omega) (by omega),
    ?_, ?_⟩
  · rw [hclusters, fatMagic]
    omega
  · rw [Bpb.Roomy, Bpb.fatSectors, if_neg hne, h.bytes, floppySecSize, entryBits]
    omega

/-- The clusters of a FAT16 partition are as large as their number needs. -/
theorem LaidOut.of_fat16 {sizes : ℕ × ℕ} (h : LaidOut .fat16 numSect sizes b)
    (hchosen : Chosen (fatdataOf .fat16 numSect) (floppySecSize / 2) fat16Max sizes)
    (hnum : numSect ≤ sizeLimit .fat16) (hdata : 0 < b.clusters) :
    SmallLayout b ∧ fatMagic < b.clusters + 1 ∧ b.clusters + 1 ≤ fatMagic16 ∧ b.Roomy .fat16 := by
  have hmagic : fatMagic = 4085 := rfl
  have hmagic16 : fatMagic16 = 65525 := rfl
  have hmax : fat16Max = 65519 := rfl
  have hnfat : nfat = 2 := rfl
  have hsec : floppySecSize = 512 := rfl
  rw [sizeLimit] at hnum
  have hfatdata : fatdataOf .fat16 numSect ≤ 8386688 := by
    rw [fatdataOf]
    split <;> omega
  have hpos := hchosen.pos
  have hlt : sizes.2 ≤ 8386688 / 258 + 2 := by
    have hle := fatLength_le (fatdataOf .fat16 numSect) (by decide : 2 ≤ floppySecSize / 2) hpos
    have hdivisor : 258 ≤ floppySecSize / 2 * sizes.1 + nfat := by
      rw [hsec, hnfat]
      omega
    rw [← hchosen.length] at hle
    exact hle.trans (Nat.add_le_add_right (Nat.div_le_div hfatdata hdivisor (by decide)) 2)
  have hlength : b.nfsect = sizes.2 := by
    rw [h.length, if_neg (by decide)]
    omega
  have hne : b.nfsect ≠ 0 := by
    rw [hlength, hchosen.length]
    exact Nat.ne_of_gt (fatLength_pos _ _ hpos)
  have hclusters : b.clusters = (numSect - (33 + 2 * b.nfsect)) / sizes.1 := by
    rw [Bpb.clusters, h.sectors, h.dataArea (by decide) hne, h.cluster]
  have hfits : 33 + 2 * b.nfsect ≤ numSect := by
    by_contra hgt
    rw [hclusters, Nat.sub_eq_zero_of_le (by omega), Nat.zero_div] at hdata
    exact absurd hdata (Nat.lt_irrefl 0)
  have hall : fatdataOf .fat16 numSect = numSect - 33 := by
    rw [fatdataOf, direntSize]
    split <;> omega
  obtain ⟨hmin, hmaxc, hroom⟩ := hchosen.clusters (by rw [hnfat]; omega) (by omega)
  rw [hall, ← hlength, hnfat, Nat.sub_sub, ← hclusters] at hmin hmaxc hroom
  obtain ⟨k, hk, hpower⟩ := hchosen.power
  refine ⟨h.small (by decide) ⟨k, hk, h.cluster.trans hpower⟩ (Nat.pos_of_ne_zero hne) (by omega)
    (by omega) hfits, by omega, by omega, ?_⟩
  rw [hsec] at hroom
  rw [Bpb.Roomy, Bpb.fatSectors, if_neg hne, h.bytes, hsec, entryBits]
  omega

/-- So are those of a FAT32 partition. -/
theorem LaidOut.of_fat32 {sizes : ℕ × ℕ} (h : LaidOut .fat32 numSect sizes b)
    (hchosen : Chosen (fatdataOf .fat32 numSect) (floppySecSize / 4) fat32Max sizes)
    (hnum : numSect ≤ sizeLimit .fat32) (hdata : 0 < b.clusters) {d d' : Dpb} {fsinfo : Sector}
    (hd : bpbToDpb b d true fsinfo = some d') :
    b.Roomy .fat32 ∧ Agrees .fat32 d'.toDpb ∧ d'.maxCluster = b.clusters + 1 := by
  have hnfat : nfat = 2 := rfl
  have hsec : floppySecSize = 512 := rfl
  have hmax : fat32Max = 268435449 := rfl
  rw [sizeLimit] at hnum
  have hfat : b.nfsect = 0 := by rw [h.length, if_pos rfl]
  have hlength := h.xlength rfl
  have hreserved : b.nreserved = 32 := by rw [h.reserved, if_pos rfl]
  have hentries : b.ndirent = 0 := by rw [h.entries, if_pos rfl]
  have hclusters : b.clusters = (numSect - (32 + 2 * b.xnfsect)) / sizes.1 := by
    have hroot : cdiv (0 * direntSize) floppySecSize = 0 := by decide
    rw [Bpb.clusters, h.sectors, Bpb.dataArea, Bpb.fatSectors, if_pos hfat, hreserved, h.fats,
      hentries, h.bytes, hroot, h.cluster, hnfat, Nat.add_zero]
  have hfits : 32 + 2 * b.xnfsect ≤ numSect := by
    by_contra hgt
    rw [hclusters, Nat.sub_eq_zero_of_le (by omega), Nat.zero_div] at hdata
    exact absurd hdata (Nat.lt_irrefl 0)
  have hall : fatdataOf .fat32 numSect = numSect - 32 := by
    rw [fatdataOf]
    omega
  obtain ⟨-, hmaxc, hroom⟩ := hchosen.clusters (by rw [hnfat]; omega) (by omega)
  rw [hall, ← hlength, hnfat, Nat.sub_sub, ← hclusters] at hmaxc hroom
  obtain ⟨k, hk, hpower⟩ := hchosen.power
  obtain ⟨hfatsize, hsize, hxsize⟩ := bpbToDpb_xsize h.bytes hfat hd
  have hkeep : d'.xsize = b.clusters + 1 := by
    have hdiff : (numSect + 2 ^ 32 - (32 + 2 * b.xnfsect) % 2 ^ 32) % 2 ^ 32 =
        numSect - (32 + 2 * b.xnfsect) := by omega
    rw [hxsize, h.sectors, hreserved, h.fats, hnfat, hdiff, h.cluster, hpower, shiftCount_two_pow hk,
      Nat.shiftRight_eq_div_pow, ← hpower, ← hclusters]
    omega
  have h32 : d'.isFat32 = true := by simp [Fat.Dpb.isFat32, hfatsize]
  refine ⟨?_, ?_, by rw [Fat.Dpb.maxCluster, h32, hkeep]; rfl⟩
  · rw [hsec] at hroom
    rw [Bpb.Roomy, Bpb.fatSectors, if_pos hfat, h.bytes, hsec, entryBits]
    omega
  · simp [Agrees, h32, Fat.Dpb.isFat12, Fat.Dpb.isFat16, hsize]

end

/-- **An unformatted partition is laid out consistently.**  Within the limits for its type, and if
there is room for a cluster, its FATs have an entry for each cluster, and `bpb_to_dpb` finds the
type that was asked for and these clusters. -/
theorem definePartition_layout (p : DriveParam) {e : PartTableEntry} {b : Bpb}
    (hnum : e.numSect ≤ sizeLimit (fsTypeOf e.fileSystem))
    (hdata : 0 < (definePartition p e b).clusters) (d : Dpb) {extended : Bool}
    (hext : fsTypeOf e.fileSystem = .fat32 → extended = true) (fsinfo : Sector) :
    (definePartition p e b).Roomy (fsTypeOf e.fileSystem) ∧
      ∃ d', bpbToDpb (definePartition p e b) d extended fsinfo = some d' ∧
        Agrees (fsTypeOf e.fileSystem) d'.toDpb ∧
        d'.maxCluster = (definePartition p e b).clusters + 1 := by
  have hlaid := definePartition_laidOut p e b
  have hns := nsector_ne_zero hdata
  rw [hlaid.cluster] at hns
  generalize definePartition p e b = c at hlaid hdata
  generalize fsTypeOf e.fileSystem = fs at hlaid hns hnum hext
  obtain ⟨d', hd⟩ := bpbToDpb_exists hlaid.bytes d extended fsinfo
  cases fs with
  | fat12 =>
    obtain ⟨hsmall, hle, hroom⟩ := hlaid.of_fat12 hnum hdata
    have hlt : c.clusters + 1 ≤ fatMagic16 := hle.trans (by decide)
    exact ⟨hroom, d', hd, hsmall.agrees (by decide) (by simp [hle]) hlt hroom hd⟩
  | fat16 =>
    obtain ⟨hsmall, hgt, hlt, hroom⟩ := hlaid.of_fat16 (sizesFor_fat16 hns) hnum hdata
    exact ⟨hroom, d', hd, hsmall.agrees (by decide) (by simp [Nat.not_le.mpr hgt]) hlt hroom hd⟩
  | fat32 =>
    obtain rfl := hext rfl
    obtain ⟨hroom, hagrees⟩ := hlaid.of_fat32 (sizesFor_fat32 hns) hnum hdata hd
    exact ⟨hroom, d', hd, hagrees⟩

/-- A drive of 255 heads and 63 sectors. -/
def plainDrive : DriveParam := ⟨0x80, dfLba, 255, 63⟩

/-- The entry of a partition of 100 MB for FAT16. -/
def hundredMb : PartTableEntry where
  bootable := 0
  fileSystem := 0x06
  begin := ⟨0, 1, 1⟩
  «end» := ⟨12, 254, 63⟩
  relSect := 63
  numSect := 204800

theorem definePartition_layout_hundredMb :
    hundredMb.numSect ≤ sizeLimit (fsTypeOf hundredMb.fileSystem) ∧
      (definePartition plainDrive hundredMb tooMany).clusters = 51091 ∧
      ∃ d', bpbToDpb (definePartition plainDrive hundredMb tooMany) blankDpb true (fun _ => 0) =
        some d' ∧ Agrees .fat16 d'.toDpb := by
  have hnum : hundredMb.numSect ≤ sizeLimit (fsTypeOf hundredMb.fileSystem) := by decide +kernel
  have hclusters : (definePartition plainDrive hundredMb tooMany).clusters = 51091 := by
    decide +kernel
  obtain ⟨-, d', hd, hagrees, -⟩ := definePartition_layout plainDrive hnum
    (by rw [hclusters]; decide) blankDpb (fun _ => rfl) fun _ => 0
  exact ⟨hnum, hclusters, d', hd, hagrees⟩

end Boot
end BurdahDos
