import BurdahDos.Boot.Sys
import Mathlib

/-!
# The type of FAT

`put_boot` and `bpb_to_dpb` each count the clusters of a volume, and tell the types of FAT apart by
this count.  Both take the size of the root directory modulo 2¹⁶ in some way, and the kernel takes
the start of the data area so too.  `fsType_iff` says when they find the same type nevertheless.
-/

set_option autoImplicit false

namespace BurdahDos
namespace Boot

open Fat

variable {s : Sector}

/-! ## The layout of a volume -/

/-- Sectors per cluster, 0 meaning 256. -/
def sectorsPerCluster (s : Sector) : ℕ := (bsSecPerClust s + 2 ^ 8 - 1) % 2 ^ 8 + 1

/-- Sectors per FAT. -/
def fatSectors (s : Sector) : ℕ := if bsFATsecs s = 0 then bsBigFatSize s else bsFATsecs s

/-- Sectors of the volume. -/
def totalSectors (s : Sector) : ℕ := if bsSectors s = 0 then bsHugeSectors s else bsSectors s

/-- Sectors of the root directory. -/
def rootSectors (s : Sector) : ℕ := (bsRootDirEnts s + 15) / 16

/-- Where the root directory starts. -/
def rootStart (s : Sector) : ℕ := bsResSectors s + bsFATs s * fatSectors s

/-- Sectors in front of the data area. -/
def systemArea (s : Sector) : ℕ := rootStart s + rootSectors s

/-- The boot sector is one of a volume: its sectors have 512 bytes, its clusters a power of two of
sectors, and there are sectors behind the system area. -/
structure IsVolume (s : Sector) : Prop where
  bytes : bsBytesPerSec s = 512
  power : ∃ k, sectorsPerCluster s = 2 ^ k
  fats : 1 ≤ bsFATs s
  data : systemArea s < totalSectors s

/-- The type that the kernel takes the volume for. -/
def Agrees (fs : FsType) (d : Fat.Dpb) : Prop :=
  (d.isFat12 = true ↔ fs = .fat12) ∧ (d.isFat16 = true ↔ fs = .fat16) ∧
    (d.isFat32 = true ↔ fs = .fat32)

theorem totalSectors_lt (s : Sector) : totalSectors s < 2 ^ 32 := by
  rw [totalSectors]
  split
  · exact getlong_lt s _
  · exact Nat.lt_trans (getword_lt s _) (by decide)

/-- The shift count divides by the sectors per cluster. -/
theorem shiftCount_spec (h : ∃ k, sectorsPerCluster s = 2 ^ k) :
    2 ^ shiftCount (bsSecPerClust s) = sectorsPerCluster s := by
  have hall : ∀ n < 256, ∀ k < 9, (n + 255) % 256 + 1 = 2 ^ k → shiftCount n = k := by
    decide +kernel
  obtain ⟨k, hk⟩ := h
  have hle : 2 ^ k < 2 ^ 9 := by
    rw [← hk, sectorsPerCluster]
    omega
  have hlt : bsSecPerClust s < 256 := getbyte_lt s _
  rw [hk, hall _ hlt k ((Nat.pow_lt_pow_iff_right (by decide)).mp hle) hk]

/-! ## The two counts -/

/-- `put_boot` takes the sectors of the root directory modulo 128. -/
theorem countClusters_eq (h : IsVolume s) : countClusters s =
    (totalSectors s - (rootStart s + rootSectors s % 128)) / sectorsPerCluster s := by
  have hent : bsRootDirEnts s < 2 ^ 16 := getword_lt s _
  have hfat : (if bsFATsecs s ≠ 0 then bsFATsecs s else bsBigFatSize s) = fatSectors s :=
    ite_not _ _ _
  have htotal : (if bsSectors s ≠ 0 then bsSectors s else bsHugeSectors s) = totalSectors s :=
    ite_not _ _ _
  have hroot : (bsRootDirEnts s * direntSize + 512 - 1) % 2 ^ 16 / 512 = rootSectors s % 128 := by
    rw [rootSectors, direntSize]
    omega
  have harea := h.data
  have hlt := totalSectors_lt s
  rw [systemArea, rootStart] at harea
  rw [countClusters, hfat, htotal, h.bytes, hroot, sectorsPerCluster, rootStart]
  congr 1
  have hmod : rootSectors s % 128 ≤ rootSectors s := Nat.mod_le _ _
  omega

/-- Where `bpb_to_dpb` has the data area begin. -/
def dataStart (s : Sector) : ℕ := (rootStart s + rootSectors s % 4096) % 2 ^ 16

/-- The number of clusters behind it, modulo 2¹⁶. -/
def dataClusters (s : Sector) : ℕ :=
  (totalSectors s - dataStart s) / sectorsPerCluster s % 2 ^ 16

theorem bpb_data (h : bsFATsecs s ≠ 0) :
    ((bsResSectors s + bsFATs s * bsFATsecs s) % 2 ^ 16 +
      (bsRootDirEnts s + 512 / direntSize - 1) % 2 ^ 16 / (512 / direntSize)) % 2 ^ 16 =
      dataStart s := by
  have hent : bsRootDirEnts s < 2 ^ 16 := getword_lt s _
  rw [dataStart, rootStart, rootSectors, fatSectors, if_neg h, direntSize]
  omega

/-- As the number of clusters is backed down it stays on its side of the threshold for FAT12.  One
that is too large for FAT16 may become small enough. -/
theorem shorten_spec {fatsize size : ℕ} (hfat : fatsize ≠ 0) (hsize : size < 2 ^ 16) :
    (0 < shorten fatsize 512 size ∧ shorten fatsize 512 size ≤ fatMagic ↔
        0 < size ∧ size ≤ fatMagic) ∧
      (fatMagic < shorten fatsize 512 size ∧ shorten fatsize 512 size ≤ fatMagic16 ↔
        fatMagic < size ∧ (size ≤ fatMagic16 ∨ 16 ≤ fatsize ∧ fatsize < 256)) := by
  have h12 : fatMagic = 4085 := rfl
  have h16 : fatMagic16 = 65525 := rfl
  have hpred : ∀ m, 0 < m → m ≤ size → (m + 2 ^ 16 - 1) % 2 ^ 16 = m - 1 := by
    intro m h0 hm
    omega
  rw [shorten]
  dsimp only
  split_ifs with h1 h2 h3 h4 h5 h6
  · omega
  · omega
  · rw [hpred _ (by omega) h4]
    omega
  · omega
  · omega
  · rw [hpred _ (by omega) h6]
    omega
  · omega

/-- What the kernel makes of the volume, its table being one for FAT12 or FAT16. -/
theorem bpbToDpb_type (h : IsVolume s) (hfat : bsFATsecs s ≠ 0) {d d' : Dpb} {extended : Bool}
    {fsinfo : Sector} (hd : bpbToDpb (.ofSector s) d extended fsinfo = some d') :
    d'.fatsize = bsFATsecs s ∧
      d'.size = shorten (bsFATsecs s) 512 ((dataClusters s + 1) % 2 ^ 16) := by
  have hbytes : (Bpb.ofSector s).nbyte = 512 := h.bytes
  have hnfsect : (Bpb.ofSector s).nfsect = bsFATsecs s := rfl
  have htotal : (if (Bpb.ofSector s).nsize = 0 then (Bpb.ofSector s).huge else
      (Bpb.ofSector s).nsize) = totalSectors s := rfl
  have hdata : ((((Bpb.ofSector s).nreserved + (Bpb.ofSector s).nfat * bsFATsecs s) % 2 ^ 16 +
      ((Bpb.ofSector s).ndirent + 512 / direntSize - 1) % 2 ^ 16 / (512 / direntSize)) % 2 ^ 16) =
      dataStart s := bpb_data hfat
  have hshift : shiftCount (Bpb.ofSector s).nsector = shiftCount (bsSecPerClust s) := rfl
  have hle : dataStart s ≤ totalSectors s := by
    have harea := h.data
    rw [systemArea] at harea
    rw [dataStart]
    have h1 := Nat.mod_le (rootStart s + rootSectors s % 4096) (2 ^ 16)
    have h2 := Nat.mod_le (rootSectors s) 4096
    omega
  have hclusters : ((totalSectors s + 2 ^ 32 - dataStart s) % 2 ^ 32) >>>
      shiftCount (bsSecPerClust s) % 2 ^ 16 = dataClusters s := by
    have hlt := totalSectors_lt s
    rw [Nat.shiftRight_eq_div_pow, shiftCount_spec h.power, dataClusters]
    congr 2
    omega
  have hper : ¬ 512 / direntSize = 0 := by decide
  rw [bpbToDpb] at hd
  dsimp only at hd
  rw [hbytes, hnfsect, htotal, hdata, hshift, hclusters, if_neg hper] at hd
  split at hd
  · obtain rfl := Option.some.inj hd
    exact ⟨rfl, rfl⟩
  · split at hd
    · obtain rfl := Option.some.inj hd
      exact ⟨rfl, rfl⟩
    · rename_i h32
      exact absurd (by simpa [dpb16to32, Fat.Dpb.isFat32] using h32) hfat

theorem readFsinfo_size (d : Dpb) (fsinfo : Sector) :
    (readFsinfo d fsinfo).fatsize = d.fatsize ∧ (readFsinfo d fsinfo).size = d.size := by
  rw [readFsinfo]
  split <;> exact ⟨rfl, rfl⟩

/-- FAT32 is told by the BPB alone. -/
theorem bpbToDpb_fat32 (h : IsVolume s) (hfat : bsFATsecs s = 0) {d d' : Dpb} {fsinfo : Sector}
    (hd : bpbToDpb (.ofSector s) d true fsinfo = some d') : d'.fatsize = 0 ∧ d'.size = 0 := by
  have hnfsect : (Bpb.ofSector s).nfsect = 0 := hfat
  have hper : ¬ (Bpb.ofSector s).nbyte / direntSize = 0 := by
    rw [show (Bpb.ofSector s).nbyte = 512 from h.bytes]
    decide
  rw [bpbToDpb] at hd
  dsimp only at hd
  rw [hnfsect, if_neg hper, if_neg (by decide), if_neg (by simp [dpb16to32, Fat.Dpb.isFat32])] at hd
  rw [← Option.some.inj hd]
  exact readFsinfo_size _ _

/-! ## Agreement -/

/-- **When `SYS` and the kernel agree on the type of FAT.**  They do on FAT32 volumes.  On others
they do if their numbers of clusters are on the same side of the threshold for FAT12, the kernel's
being within that for FAT16 as well, at least once it is backed down to what the FAT can hold. -/
theorem fsType_iff (h : IsVolume s) {fs : FsType} (hfs : detectType s = some fs) {d d' : Dpb}
    {extended : Bool} (hext : bsFATsecs s = 0 → extended = true) {fsinfo : Sector}
    (hd : bpbToDpb (.ofSector s) d extended fsinfo = some d') :
    Agrees fs d'.toDpb ↔ (bsFATsecs s ≠ 0 →
      ((totalSectors s - (rootStart s + rootSectors s % 128)) / sectorsPerCluster s < fatMagic ↔
          dataClusters s < fatMagic) ∧
        (dataClusters s < fatMagic16 ∨
          dataClusters s ≠ 2 ^ 16 - 1 ∧ 16 ≤ bsFATsecs s ∧ bsFATsecs s < 256)) := by
  by_cases hfat : bsFATsecs s = 0
  · rw [hext hfat] at hd
    obtain ⟨hfatsize, hsize⟩ := bpbToDpb_fat32 h hfat hd
    have hfs := (detectType_fat32 hfs).mpr hfat
    refine iff_of_true ?_ fun hne => absurd hfat hne
    simp [Agrees, Fat.Dpb.isFat12, Fat.Dpb.isFat16, Fat.Dpb.isFat32, hfatsize, hsize, hfs]
  · obtain ⟨hfatsize, hsize⟩ := bpbToDpb_type h hfat hd
    obtain ⟨h12, h16⟩ := @shorten_spec _ ((dataClusters s + 1) % 2 ^ 16) hfat
      (Nat.mod_lt _ (by decide))
    have hlt : dataClusters s < 2 ^ 16 := Nat.mod_lt _ (by decide)
    have hm12 : fatMagic = 4085 := rfl
    have hm16 : fatMagic16 = 65525 := rfl
    have hbytes : ¬ bsBytesPerSec s ≠ secSize := not_not.mpr h.bytes
    rw [detectType, if_neg hbytes] at hfs
    dsimp only at hfs
    rw [if_neg hfat] at hfs
    rw [← countClusters_eq h]
    simp only [Agrees, Fat.Dpb.isFat12, Fat.Dpb.isFat16, Fat.Dpb.isFat32, hfatsize, hsize,
      Bool.and_eq_true, decide_eq_true_eq, beq_iff_eq]
    rw [h12, h16]
    generalize countClusters s = n at hfs ⊢
    by_cases hn : n < fatMagic
    · rw [if_pos hn] at hfs
      obtain rfl := Option.some.inj hfs
      simp only [hfat, reduceCtorEq, iff_false, iff_true, ne_eq, not_false_eq_true, forall_const,
        and_true]
      omega
    · rw [if_neg hn] at hfs
      by_cases hn' : n < fatMagic16
      · rw [if_pos hn'] at hfs
        obtain rfl := Option.some.inj hfs
        simp only [hfat, reduceCtorEq, iff_false, iff_true, ne_eq, not_false_eq_true, forall_const,
          and_true]
        omega
      · rw [if_neg hn'] at hfs
        cases hfs

/-! ## A large root directory -/

/-- The boot sector of a volume with 2048 entries in its root directory. -/
def largeRoot : Sector :=
  pokeBytes (fun _ => 0) btBpb [0, 2, 1, 1, 0, 2, 0, 8, 0x16, 0x10, 0xf8, 16]

theorem largeRoot_isVolume : IsVolume largeRoot where
  bytes := by decide +kernel
  power := ⟨0, by decide +kernel⟩
  fats := by decide +kernel
  data := by decide +kernel

/-- A DPB that has not been used. -/
def emptyDpb : Dpb where
  unit := 0
  secsize := 0
  clsmask := 0
  shftcnt := 0
  dirents := 0
  data := 0
  size := 0
  fatsize := 0
  dirstrt := 0
  cluster := 0
  xnfreeclst := 0
  xdata := 0
  xsize := 0
  xrootclst := 0
  xcluster := 0
  mdb := 0
  fatstrt := 0
  fats := 0
  flags := 0
  xflags := 0
  xfsinfosec := 0
  xbackupsec := 0
  xfatsize := 0

/-- The DPB of the kernel for that volume. -/
def largeRootDpb : Dpb :=
  (bpbToDpb (.ofSector largeRoot) emptyDpb true fun _ => 0).getD emptyDpb

theorem largeRoot_dpb :
    bpbToDpb (.ofSector largeRoot) emptyDpb true (fun _ => 0) = some largeRootDpb := by
  have hsome : (bpbToDpb (.ofSector largeRoot) emptyDpb true fun _ => 0).isSome = true := by
    decide +kernel
  obtain ⟨d, hd⟩ := Option.isSome_iff_exists.mp hsome
  rw [largeRootDpb, hd]
  rfl

theorem fsType_iff_largeRoot : Agrees .fat16 largeRootDpb.toDpb ↔ (bsFATsecs largeRoot ≠ 0 →
    ((totalSectors largeRoot - (rootStart largeRoot + rootSectors largeRoot % 128)) /
        sectorsPerCluster largeRoot < fatMagic ↔ dataClusters largeRoot < fatMagic) ∧
      (dataClusters largeRoot < fatMagic16 ∨ dataClusters largeRoot ≠ 2 ^ 16 - 1 ∧
        16 ≤ bsFATsecs largeRoot ∧ bsFATsecs largeRoot < 256)) :=
  fsType_iff largeRoot_isVolume (by decide +kernel) (fun _ => rfl) largeRoot_dpb

/-- **`SYS` takes the volume for FAT16**, and the kernel for FAT12. -/
theorem largeRoot_disagrees : detectType largeRoot = some .fat16 ∧
    largeRootDpb.isFat12 = true ∧ ¬ Agrees .fat16 largeRootDpb.toDpb := by
  have h12 : largeRootDpb.isFat12 = true := by decide +kernel
  exact ⟨by decide +kernel, h12, fun h => absurd (h.1.mp h12) (by decide)⟩

end Boot
end BurdahDos
