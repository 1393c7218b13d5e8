import BurdahDos.Boot.Scan
import Mathlib

/-!
# Cylinders, heads and sectors

The BIOS reports the largest cylinder of a disk in 10 bits of `cx`, and wants the cylinder of a
sector there too; a partition table has it in the same bits.  `LBA_Get_Drive_Parameters`,
`Read1LBASector` and `ConvCHSToIntern` of `kernel/initdisk.c` each have their own shifts and masks
for it.

What is sent to the BIOS for a sector is right (`located`), but the number of cylinders is the
largest one and the 1 or'ed, not added, so that a disk whose largest cylinder is odd loses its last
one (`geometry_iff`).
-/

set_option autoImplicit false

namespace BurdahDos
namespace Boot

/-! ## The code -/

/-- `driveParam->chs.Cylinder`: the sum binds stronger than the or. -/
def cylindersOf (cx : ℕ) : ℕ := cx >>> 8 ||| ((cx &&& 0xc0) <<< 2 + 1)

/-- `struct DriveParamS`, with the cylinders and `total_sectors`. -/
structure DriveSize extends DriveParam where
  cylinders : ℕ
  totalSectors : ℕ

/-- `LBA_Get_Drive_Parameters`, with the size of the drive. -/
def lbaGetDriveSize (cfg : KernelConfig) (drive : ℕ) (disk : HardDisk) : Option DriveSize :=
  match lbaGetDriveParameters cfg drive disk, disk.geometry with
  | some p, some (_, cx) =>
    let cylinders := cylindersOf cx
    let totalSectors :=
      if !p.lba then cylinders * p.heads * p.sectors % 2 ^ 32
      else
        match disk.extensions with
        | some lba => if lba.totalSectHigh = 0 then lba.totalSect else 0xffffffff
        | none => 0
    some { p with cylinders := cylinders, totalSectors := totalSectors }
  | _, _ => none

/-- `regs.c.x` in `Read1LBASector` -/
def Chs.cx (chs : Chs) : ℕ :=
  ((chs.cylinder &&& 0xff) <<< 8 + (chs.cylinder &&& 0x300) >>> 2 + chs.sector) % 2 ^ 16

/-- `regs.d.b.h` in `Read1LBASector` -/
def Chs.dh (chs : Chs) : ℕ := chs.head % 2 ^ 8

/-- The registers as the bytes of a partition table. -/
def Chs.bytes (chs : Chs) : Sector
  | 0 => UInt8.ofNat chs.dh
  | 1 => UInt8.ofNat chs.cx
  | 2 => UInt8.ofNat (chs.cx / 2 ^ 8)
  | _ => 0

/-! ## Geometries -/

/-- What INT 13, function 08h can report. -/
structure Geometry where
  maxCylinder : ℕ
  maxHead : ℕ
  sectors : ℕ
  cylinder_le : maxCylinder ≤ 1023
  head_le : maxHead ≤ 254
  sectors_pos : 0 < sectors
  sectors_le : sectors ≤ 63

namespace Geometry

variable (g : Geometry)

/-- The register `cx`. -/
def cx : ℕ := g.maxCylinder % 2 ^ 8 * 2 ^ 8 + g.maxCylinder / 2 ^ 8 * 2 ^ 6 + g.sectors

/-- The register `dx`, with the number of drives. -/
def dx (dl : UInt8) : ℕ := g.maxHead * 2 ^ 8 + dl.toNat

/-- The number of sectors on the disk. -/
def total : ℕ := (g.maxCylinder + 1) * (g.maxHead + 1) * g.sectors

/-- An address has been taken apart, and can be put together again from what the BIOS is told. -/
structure Located (chs : Chs) (address : ℕ) : Prop where
  cylinder : chs.cylinder ≤ g.maxCylinder
  head : chs.head ≤ g.maxHead
  sector_pos : 0 < chs.sector
  sector : chs.sector ≤ g.sectors
  decodes : convCHSToIntern chs.bytes 0 = chs
  address : (chs.cylinder * (g.maxHead + 1) + chs.head) * g.sectors + chs.sector - 1 = address

/-- **The drive is as large as reported**, and each of its sectors is found. -/
def Faithful (p : DriveSize) : Prop :=
  p.totalSectors = g.total ∧ ∀ address < g.total, g.Located (initLbaToChs address p.toDriveParam) address

end Geometry

/-! ## Bits -/

theorem and_mask (x k j : ℕ) : x &&& (2 ^ k - 1) <<< j = (x / 2 ^ j % 2 ^ k) <<< j := by
  refine Nat.eq_of_testBit_eq fun i => ?_
  simp only [Nat.testBit_and, Nat.testBit_shiftLeft, Nat.testBit_two_pow_sub_one,
    Nat.testBit_mod_two_pow, Nat.testBit_div_two_pow]
  by_cases h : j ≤ i
  · simp [h, Bool.and_comm]
  · simp [h]

theorem and_c0 (x : ℕ) : x &&& 0xc0 = x / 64 % 4 * 64 := by
  have h := and_mask x 2 6
  rwa [Nat.shiftLeft_eq, Nat.shiftLeft_eq] at h

theorem and_300 (x : ℕ) : x &&& 0x300 = x / 256 % 4 * 256 := by
  have h := and_mask x 2 8
  rwa [Nat.shiftLeft_eq, Nat.shiftLeft_eq] at h

theorem and_3f (x : ℕ) : x &&& 0x3f = x % 64 := Nat.and_two_pow_sub_one_eq_mod x 6

theorem and_ff (x : ℕ) : x &&& 0xff = x % 256 := Nat.and_two_pow_sub_one_eq_mod x 8

/-- Or'ing the 1 does not count an odd number up. -/
theorem or_one (x : ℕ) : x ||| 1 = x / 2 * 2 + 1 := by
  have hsplit (r : ℕ) (h : r < 2) : x / 2 * 2 + r = x / 2 * 2 ||| r := by
    have := Nat.two_pow_add_eq_or_of_lt (i := 1) h (x / 2)
    rwa [Nat.pow_one, Nat.mul_comm] at this
  have hmod := Nat.mod_lt x (Nat.succ_pos 1)
  have hr : x % 2 ||| 1 = 1 := by
    rcases Nat.mod_two_eq_zero_or_one x with h | h <;> rw [h] <;> rfl
  calc x ||| 1 = (x / 2 * 2 + x % 2) ||| 1 := by rw [Nat.div_add_mod']
    _ = (x / 2 * 2 ||| x % 2) ||| 1 := by rw [hsplit _ hmod]
    _ = x / 2 * 2 ||| 1 := by rw [Nat.or_assoc, hr]
    _ = x / 2 * 2 + 1 := (hsplit 1 (Nat.lt_succ_self 1)).symm

/-! ## The size of the drive -/

section
variable {g : Geometry}

/-- The two low bits of the high byte follow the low byte. -/
theorem cylindersOf_cx (g : Geometry) : cylindersOf g.cx = g.maxCylinder / 2 * 2 + 1 := by
  have hc := g.cylinder_le
  have hs := g.sectors_le
  have hlow : g.cx >>> 8 = g.maxCylinder % 256 := by
    rw [Nat.shiftRight_eq_div_pow, Geometry.cx]
    omega
  have hhigh : (g.cx &&& 0xc0) <<< 2 = g.maxCylinder / 256 * 256 := by
    rw [and_c0, Nat.shiftLeft_eq, Geometry.cx]
    omega
  have hone : g.maxCylinder / 256 * 256 + 1 = g.maxCylinder / 256 * 256 ||| 1 := by
    have := Nat.two_pow_add_eq_or_of_lt (i := 8) (b := 1) (by decide) (g.maxCylinder / 256)
    rwa [Nat.mul_comm] at this
  have hall : g.maxCylinder / 256 * 256 ||| g.maxCylinder % 256 = g.maxCylinder := by
    have hlt : g.maxCylinder % 256 < 2 ^ 8 := Nat.mod_lt _ (by decide)
    have := Nat.two_pow_add_eq_or_of_lt hlt (g.maxCylinder / 256)
    rw [Nat.mul_comm] at this
    rw [← this]
    exact Nat.div_add_mod' _ _
  rw [cylindersOf, hlow, hhigh, hone, ← Nat.or_assoc, Nat.or_comm (g.maxCylinder % 256), hall, or_one]

/-- What a drive without LBA is taken for. -/
theorem lbaGetDriveSize_chs {cfg : KernelConfig} {drive : ℕ} {disk : HardDisk} {dl : UInt8}
    (hdisk : disk.geometry = some (g.dx dl, g.cx)) (hlba : lbaFlags cfg disk &&& dfLba = 0) :
    ∃ p, lbaGetDriveSize cfg drive disk = some p ∧ p.heads = g.maxHead + 1 ∧
      p.sectors = g.sectors ∧
      p.totalSectors = (g.maxCylinder / 2 * 2 + 1) * (g.maxHead + 1) * g.sectors := by
  have hs := g.sectors_le
  have hpos := g.sectors_pos
  have hdl := dl.toNat_lt
  have hsect : g.cx &&& 0x3f = g.sectors := by
    rw [and_3f, Geometry.cx]
    omega
  have hhead : g.dx dl >>> 8 = g.maxHead := by
    rw [Nat.shiftRight_eq_div_pow, Geometry.dx]
    omega
  have hparam : lbaGetDriveParameters cfg drive disk = some
      ⟨drive ||| 0x80, lbaFlags cfg disk, g.maxHead + 1, g.sectors⟩ := by
    simp only [lbaGetDriveParameters, hdisk, Option.map_some, hhead, hsect]
    rw [if_neg (Nat.ne_of_gt hpos)]
  refine ⟨_, by rw [lbaGetDriveSize, hparam, hdisk], rfl, rfl, ?_⟩
  have hcyl : (g.maxCylinder / 2 * 2 + 1) * (g.maxHead + 1) * g.sectors ≤ 1024 * 255 * 63 := by
    have hc := g.cylinder_le
    have hh := g.head_le
    exact Nat.mul_le_mul (Nat.mul_le_mul (by omega) (by omega)) hs
  simp only [DriveParam.lba, hlba, bne_self_eq_false, Bool.not_false, if_true, cylindersOf_cx]
  exact Nat.mod_eq_of_lt (Nat.lt_of_le_of_lt hcyl (by decide))

/-! ## Each sector -/

theorem getbyte_ofNat {s : Sector} {i x : ℕ} (h : s i = UInt8.ofNat x) : getbyte s i = x % 2 ^ 8 := by
  rw [getbyte, h, UInt8.toNat_ofNat']

/-- The registers say what they are made from. -/
theorem convCHSToIntern_bytes {chs : Chs} (hc : chs.cylinder ≤ 1023) (hh : chs.head ≤ 254)
    (hs : chs.sector ≤ 63) : convCHSToIntern chs.bytes 0 = chs := by
  have hcx : chs.cx = chs.cylinder % 256 * 256 + chs.cylinder / 256 * 64 + chs.sector := by
    have hmod : chs.cylinder / 256 % 4 = chs.cylinder / 256 := Nat.mod_eq_of_lt (by omega)
    rw [Chs.cx, and_ff, and_300, hmod, Nat.shiftLeft_eq, Nat.shiftRight_eq_div_pow]
    omega
  have h0 : chs.bytes 0 = UInt8.ofNat chs.dh := rfl
  have h1 : chs.bytes 1 = UInt8.ofNat chs.cx := rfl
  have h2 : chs.bytes 2 = UInt8.ofNat (chs.cx / 2 ^ 8) := rfl
  have hhead : getbyte chs.bytes 0 = chs.head := by
    rw [getbyte_ofNat h0, Chs.dh]
    omega
  have hcl : getbyte chs.bytes 1 = chs.cylinder / 256 * 64 + chs.sector := by
    rw [getbyte_ofNat h1, hcx]
    omega
  have hch : getbyte chs.bytes 2 = chs.cylinder % 256 := by
    have hlt : chs.cylinder / 256 * 64 + chs.sector < 256 := by omega
    have hdiv : (chs.cylinder % 256 * 256 + chs.cylinder / 256 * 64 + chs.sector) / 256 =
        chs.cylinder % 256 := by
      rw [Nat.add_assoc, Nat.add_comm, Nat.add_mul_div_right _ _ (by decide), Nat.div_eq_of_lt hlt,
        Nat.zero_add]
    simp only [getbyte_ofNat h2, hcx, Nat.reducePow, hdiv, Nat.mod_mod]
  have hsector : (chs.cylinder / 256 * 64 + chs.sector) % 64 = chs.sector := by omega
  have hcylinder : chs.cylinder % 256 +
      (chs.cylinder / 256 * 64 + chs.sector) / 64 % 4 * 64 * 2 ^ 2 = chs.cylinder := by omega
  simp only [convCHSToIntern, Nat.zero_add, hhead, hcl, hch, and_3f, and_c0, Nat.shiftLeft_eq,
    hsector, hcylinder]

/-- **Each sector of the disk is found**, and the BIOS is told of it. -/
theorem located {p : DriveParam} (hheads : p.heads = g.maxHead + 1) (hsectors : p.sectors = g.sectors)
    {address : ℕ} (h : address < g.total) : g.Located (initLbaToChs address p) address := by
  have hc := g.cylinder_le
  have hh := g.head_le
  have hs := g.sectors_le
  have hpos := g.sectors_pos
  have hhs : p.sectors * p.heads % 2 ^ 16 = g.sectors * (g.maxHead + 1) := by
    have hle : g.sectors * (g.maxHead + 1) ≤ 63 * 255 := Nat.mul_le_mul hs (by omega)
    rw [hheads, hsectors]
    exact Nat.mod_eq_of_lt (Nat.lt_of_le_of_lt hle (by decide))
  have hpos' : 0 < g.sectors * (g.maxHead + 1) := Nat.mul_pos hpos (Nat.succ_pos _)
  have hcyl : address / (g.sectors * (g.maxHead + 1)) < g.maxCylinder + 1 := by
    rw [Nat.div_lt_iff_lt_mul hpos']
    calc address < g.total := h
      _ = (g.maxCylinder + 1) * (g.sectors * (g.maxHead + 1)) := by
        rw [Geometry.total, Nat.mul_assoc, Nat.mul_comm (g.maxHead + 1)]
  have hrem : address % (g.sectors * (g.maxHead + 1)) < g.sectors * (g.maxHead + 1) :=
    Nat.mod_lt _ hpos'
  have hhead : address % (g.sectors * (g.maxHead + 1)) / g.sectors < g.maxHead + 1 :=
    Nat.div_lt_of_lt_mul hrem
  have hsect : address % (g.sectors * (g.maxHead + 1)) % g.sectors < g.sectors := Nat.mod_lt _ hpos
  have hchs : initLbaToChs address p =
      ⟨address / (g.sectors * (g.maxHead + 1)),
        address % (g.sectors * (g.maxHead + 1)) / g.sectors,
        address % (g.sectors * (g.maxHead + 1)) % g.sectors + 1⟩ := by
    simp only [initLbaToChs, hhs]
    rw [if_neg (by omega), hsectors]
  rw [hchs]
  refine ⟨Nat.le_of_lt_succ hcyl, Nat.le_of_lt_succ hhead, Nat.succ_pos _, hsect,
    convCHSToIntern_bytes (by dsimp only; omega) (by dsimp only; omega) (by dsimp only; omega), ?_⟩
  -- The address is taken apart by two divisions, and put together the other way round.
  have hcylinder := Nat.div_add_mod address (g.sectors * (g.maxHead + 1))
  have htrack := Nat.div_add_mod (address % (g.sectors * (g.maxHead + 1))) g.sectors
  dsimp only
  rw [Nat.add_mul, ← Nat.add_assoc, Nat.add_sub_cancel, Nat.add_assoc,
    Nat.mul_comm (address % _ / _), htrack, Nat.mul_assoc, Nat.mul_comm (g.maxHead + 1),
    Nat.mul_comm (address / _), hcylinder]

/-- **A drive without LBA is as large as reported if and only if its largest cylinder is even.** -/
theorem geometry_iff {cfg : KernelConfig} {disk : HardDisk} {dl : UInt8} (drive : ℕ)
    (hdisk : disk.geometry = some (g.dx dl, g.cx)) (hlba : lbaFlags cfg disk &&& dfLba = 0) :
    ∃ p, lbaGetDriveSize cfg drive disk = some p ∧ (g.Faithful p ↔ g.maxCylinder % 2 = 0) := by
  obtain ⟨p, hp, hheads, hsectors, htotal⟩ := lbaGetDriveSize_chs hdisk hlba
  refine ⟨p, hp, ?_⟩
  have hsize : p.totalSectors = g.total ↔ g.maxCylinder % 2 = 0 := by
    rw [htotal, Geometry.total, Nat.mul_left_inj (Nat.ne_of_gt g.sectors_pos),
      Nat.mul_left_inj (Nat.succ_ne_zero _)]
    omega
  rw [Geometry.Faithful, hsize]
  exact and_iff_left fun _ h => located hheads hsectors h

end

/-- A disk that has nothing but a geometry. -/
def plainDisk (g : Geometry) : HardDisk where
  extensions := none
  geometry := some (g.dx 1, g.cx)
  read _ := none

/-- A kernel that uses LBA where it is there. -/
def plainConfig : KernelConfig where
  forceLBA := false
  globalEnableLBAsupport := true
  dlaSortByDriveNo := false
  bootdrv := 0

/-- 1,023 cylinders. -/
def evenDisk : Geometry := ⟨1022, 15, 63, by decide, by decide, by decide, by decide⟩

/-- 1,024 cylinders. -/
def oddDisk : Geometry := ⟨1023, 15, 63, by decide, by decide, by decide, by decide⟩

theorem geometry_iff_even : (plainDisk evenDisk).geometry = some (evenDisk.dx 1, evenDisk.cx) ∧
    lbaFlags plainConfig (plainDisk evenDisk) &&& dfLba = 0 ∧
    ∃ p, lbaGetDriveSize plainConfig 0x80 (plainDisk evenDisk) = some p ∧ evenDisk.Faithful p := by
  obtain ⟨p, hp, hiff⟩ :=
    @geometry_iff _ plainConfig (plainDisk evenDisk) 1 0x80 rfl (by decide)
  exact ⟨rfl, by decide, p, hp, hiff.mpr (by decide)⟩

/-- A disk of 1,024 cylinders loses the last one. -/
theorem lostCylinder : (lbaGetDriveSize plainConfig 0x80 (plainDisk oddDisk)).map (·.totalSectors) =
      some (1023 * 16 * 63) ∧ oddDisk.total = 1024 * 16 * 63 ∧
    ∀ p, lbaGetDriveSize plainConfig 0x80 (plainDisk oddDisk) = some p → ¬ oddDisk.Faithful p := by
  have hsize : (lbaGetDriveSize plainConfig 0x80 (plainDisk oddDisk)).map (·.totalSectors) =
      some (1023 * 16 * 63) := by decide
  refine ⟨hsize, by decide, fun p hp hfaithful => ?_⟩
  rw [hp, Option.map_some, Option.some_inj, hfaithful.1] at hsize
  exact absurd hsize (by decide)

end Boot
end BurdahDos
