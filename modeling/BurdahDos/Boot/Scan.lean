import BurdahDos.Boot.Disk
import Mathlib

/-!
# The scan for partitions

`ReadAllPartitionTables` of `kernel/initdisk.c`, which gives drive letters to the FAT partitions of
the hard disks, in one of two orders.  Each disk is scanned up to four times: for an active primary
partition, for any, for the logical partitions of the extended chain, and for the primary
partitions that are left.

The BIOS reads a sector of a disk always with the same result, be it addressed by number or by
cylinder, head and sector.  The default BPB of a unit is left out.
-/

set_option autoImplicit false

namespace BurdahDos
namespace Boot

/-! ## Disks -/

/-- `struct CHS` -/
structure Chs where
  cylinder : ℕ
  head : ℕ
  sector : ℕ
deriving DecidableEq

/-- `struct PartTableEntry` -/
structure PartTableEntry where
  bootable : ℕ
  fileSystem : ℕ
  begin : Chs
  «end» : Chs
  relSect : ℕ
  numSect : ℕ
deriving DecidableEq

/-- `partitionStart`, for a table at `startSector`. -/
def PartTableEntry.start (e : PartTableEntry) (startSector : ℕ) : ℕ :=
  (startSector + e.relSect) % 2 ^ 32

/-- `partitionStart + pEntry->NumSect - 1` -/
def PartTableEntry.last (e : PartTableEntry) (startSector : ℕ) : ℕ :=
  (e.start startSector + e.numSect + 2 ^ 32 - 1) % 2 ^ 32

/-- `struct DriveParamS` -/
structure DriveParam where
  driveno : ℕ
  descflags : ℕ
  heads : ℕ
  sectors : ℕ

/-- The fields of `InitKernelConfig` that the scan reads, and the byte at 0:5e0. -/
structure KernelConfig where
  forceLBA : Bool
  globalEnableLBAsupport : Bool
  dlaSortByDriveNo : Bool
  bootdrv : ℕ

/-- What the BIOS says of LBA disk parameters. -/
structure LbaParameters where
  heads : ℕ
  sectors : ℕ
  totalSect : ℕ
  totalSectHigh : ℕ
  information : ℕ

/-- A hard disk, as the BIOS has it. -/
structure HardDisk where
  /-- INT 13, functions 41h and 48h; `none` is for an error or no such functions. -/
  extensions : Option LbaParameters
  /-- INT 13, function 08h: the registers `dx` and `cx`. -/
  geometry : Option (ℕ × ℕ)
  read : ℕ → Option Sector

/-- The LBA part of `LBA_Get_Drive_Parameters`. -/
def lbaFlags (cfg : KernelConfig) (disk : HardDisk) : ℕ :=
  match disk.extensions with
  | none => 0
  | some lba =>
    if !cfg.globalEnableLBAsupport then 0
    else if 0xffff < lba.heads ∨ 0xffff < lba.sectors ∨ lba.totalSect = 0 ∧ lba.totalSectHigh = 0 then 0
    else
      dfLba ||| (if lba.information &&& 8 ≠ 0 then dfWrtverify else 0) |||
        (if lba.information &&& 1 ≠ 0 then dfDmaTransparent else 0)

/-- `LBA_Get_Drive_Parameters` -/
def lbaGetDriveParameters (cfg : KernelConfig) (drive : ℕ) (disk : HardDisk) : Option DriveParam :=
  disk.geometry.map fun (dx, cx) =>
    { driveno := drive ||| 0x80
      descflags := lbaFlags cfg disk
      heads := dx >>> 8 + 1
      sectors := if cx &&& 0x3f = 0 then 63 else cx &&& 0x3f }

/-- Whether the disk can be addressed by sector numbers. -/
def DriveParam.lba (p : DriveParam) : Bool := p.descflags &&& dfLba != 0

/-- `init_LBA_to_CHS` -/
def initLbaToChs (address : ℕ) (p : DriveParam) : Chs :=
  let hs := p.sectors * p.heads % 2 ^ 16
  let hsrem := address % hs
  { cylinder := if 0x10000 ≤ address / hs then 0xffff else address / hs
    head := hsrem / p.sectors
    sector := hsrem % p.sectors + 1 }

/-- `Read1LBASector` -/
def read1LBASector (cfg : KernelConfig) (p : DriveParam) (disk : HardDisk) (extLBAForce : Bool)
    (address : ℕ) : Option Sector :=
  let chs := initLbaToChs address p
  if p.lba && (cfg.forceLBA || extLBAForce || 1023 < chs.cylinder) then disk.read address
  else if 1023 < chs.cylinder then none
  else disk.read address

/-- `ConvCHSToIntern` -/
def convCHSToIntern (s : Sector) (i : ℕ) : Chs where
  head := getbyte s i
  sector := getbyte s (i + 1) &&& 0x3f
  cylinder := getbyte s (i + 2) + (getbyte s (i + 1) &&& 0xc0) <<< 2

/-- An entry of the table in a sector. -/
def entryAt (s : Sector) (i : ℕ) : PartTableEntry where
  bootable := getbyte s i
  fileSystem := getbyte s (i + 4)
  begin := convCHSToIntern s (i + 1)
  «end» := convCHSToIntern s (i + 5)
  relSect := getlong s (i + 8)
  numSect := getlong s (i + 12)

/-- `ConvPartTableEntryToIntern` -/
def convPartTableEntryToIntern (s : Sector) : Option (List PartTableEntry) :=
  if s 0x1fe ≠ 0x55 ∨ s 0x1ff ≠ 0xaa then none
  else some [entryAt s 0x1be, entryAt s 0x1ce, entryAt s 0x1de, entryAt s 0x1ee]

/-! ## Kinds of partitions -/

/-- `EXTENDED_LBA` -/
def extendedLba : ℕ := 0x0f
/-- `FAT12_LBA` -/
def fat12Lba : ℕ := 0xff
/-- `FAT16_LBA` -/
def fat16Lba : ℕ := 0x0e
/-- `FAT32_LBA` -/
def fat32Lba : ℕ := 0x0c

/-- `IsExtPartition` -/
def isExtPartition (parttyp : ℕ) : Bool := parttyp == 0x05 || parttyp == extendedLba

/-- `IsLBAPartition` -/
def isLBAPartition (parttyp : ℕ) : Bool :=
  parttyp == fat12Lba || parttyp == fat16Lba || parttyp == fat32Lba

/-- `IsFATPartition` -/
def isFATPartition (parttyp : ℕ) : Bool :=
  parttyp == 0x01 || parttyp == 0x04 || parttyp == 0x06 || parttyp == fat16Lba || parttyp == 0x0b ||
    parttyp == fat32Lba

/-- `is_suspect` -/
def isSuspect (chs entry : Chs) : Bool :=
  !(entry == chs ||
    (1023 < chs.cylinder && (entry.cylinder == 1023 || entry.cylinder == 0x3ff &&& chs.cylinder)))

/-! ## Units -/

/-- `NDEV` -/
def ndev : ℕ := 26

/-- A partition: the disk, the place of its entry (`extendedPartNo` is 0 for the primary ones, else
the number of the table in the extended chain), and what it says. -/
structure Partition where
  drive : ℕ
  extendedPartNo : ℕ
  primaryNum : ℕ
  offset : ℕ
  numSect : ℕ
deriving DecidableEq

/-- What `DosDefinePartition` sets up. -/
structure Unit where
  part : Partition
  fileSystem : ℕ
  descflags : ℕ

/-- The hard disk units, those after A: and B:, and `ExtLBAForce`. -/
structure Scan where
  units : List Unit
  extLBAForce : Bool

/-- `nUnits` -/
def Scan.nUnits (m : Scan) : ℕ := 2 + m.units.length

/-- `DosDefinePartition` -/
def dosDefinePartition (cfg : KernelConfig) (p : DriveParam) (part : Partition) (fileSystem : ℕ)
    (m : Scan) : Scan :=
  if ndev ≤ m.nUnits then m
  else
    let lba := cfg.forceLBA || isLBAPartition fileSystem || m.extLBAForce
    let descflags := if lba then p.descflags else p.descflags &&& (0xffff - dfLba)
    { m with units := m.units ++ [⟨part, fileSystem, descflags ||| dfFixed ||| dfNoaccess⟩] }

/-! ## The scan of a disk -/

/-- `scan_type` -/
inductive ScanType where
  | primaryBoot
  | primary
  | extended
  | primary2
deriving DecidableEq

/-- The loop of `ScanForPrimaryPartitions` from the entry with number `i` on; it returns the mask
of the partitions to ignore. -/
def scanForPrimaryPartitions (cfg : KernelConfig) (p : DriveParam) (drive : ℕ) (scanType : ScanType)
    (startSector extendedPartNo : ℕ) : ℕ → List PartTableEntry → ℕ → Scan → ℕ × Scan
  | _, [], partitionsToIgnore, m => (partitionsToIgnore, m)
  | i, e :: es, partitionsToIgnore, m =>
    let next := scanForPrimaryPartitions cfg p drive scanType startSector extendedPartNo (i + 1) es
    if e.fileSystem = 0 then next partitionsToIgnore m
    else if partitionsToIgnore &&& 1 <<< i ≠ 0 then next partitionsToIgnore m
    else if isExtPartition e.fileSystem then next partitionsToIgnore m
    else if scanType = .primaryBoot ∧ e.bootable = 0 then next partitionsToIgnore m
    else if !isFATPartition e.fileSystem then next partitionsToIgnore m
    else
      let chs := initLbaToChs (e.start startSector) p
      let last := initLbaToChs (e.last startSector) p
      if isSuspect last e.end ∧ e.numSect = 0 then next partitionsToIgnore m
      else
        let beyond := 1023 < chs.cylinder ∨ 1023 < last.cylinder
        if beyond ∧ !p.lba then next partitionsToIgnore m
        else
          let fileSystem :=
            if beyond ∧ !(cfg.forceLBA || isLBAPartition e.fileSystem || m.extLBAForce) then
              if e.fileSystem = 0x01 then fat12Lba
              else if e.fileSystem = 0x0b then fat32Lba
              else fat16Lba
            else e.fileSystem
          let partitionsToIgnore := partitionsToIgnore ||| 1 <<< i
          let m := dosDefinePartition cfg p ⟨drive, extendedPartNo, i, e.start startSector, e.numSect⟩
            fileSystem m
          if scanType = .primaryBoot ∨ scanType = .primary then (partitionsToIgnore, m)
          else next partitionsToIgnore m

/-- Where the next table of the extended chain is, by the first extended entry of this one, and
where the first extended partition is. -/
def nextLink (extendedPartitionOffset : ℕ) (table : List PartTableEntry) : Option (ℕ × ℕ) :=
  (table.find? fun e => isExtPartition e.fileSystem).map fun e =>
    ((extendedPartitionOffset + e.relSect) % 2 ^ 32,
      if extendedPartitionOffset = 0 then e.relSect else extendedPartitionOffset)

/-- `ExtLBAForce` once the first extended entry has been met. -/
def nextForce (extendedPartitionOffset : ℕ) (table : List PartTableEntry) (extLBAForce : Bool) : Bool :=
  match table.find? fun e => isExtPartition e.fileSystem with
  | some e => if extendedPartitionOffset = 0 then e.fileSystem == extendedLba else extLBAForce
  | none => extLBAForce

/-- The loop of `ProcessDisk` from `ReadNextPartitionTable` on; `none` if it does not end within
`fuel` turns. -/
def processTables (cfg : KernelConfig) (p : DriveParam) (drive : ℕ) (disk : HardDisk)
    (scanType : ScanType) : ℕ → ℕ → ℕ → ℕ → ℕ → Scan → Option (ℕ × Scan)
  | 0, _, _, _, _, _ => none
  | fuel + 1, relSectorOffset, extendedPartitionOffset, numExtendedFound, partitionsToIgnore, m =>
    match (read1LBASector cfg p disk m.extLBAForce relSectorOffset).bind
        convPartTableEntryToIntern with
    -- The sector cannot be read, or it is no table, also after two more tries.
    | none => some (partitionsToIgnore, m)
    | some table =>
      let r :=
        if scanType ≠ .extended ∨ numExtendedFound ≠ 0 then
          scanForPrimaryPartitions cfg p drive scanType relSectorOffset numExtendedFound 0 table
            partitionsToIgnore m
        else (partitionsToIgnore, m)
      if scanType ≠ .extended then some r
      else
        match nextLink extendedPartitionOffset table with
        | none => some (0, r.2)
        | some (relSectorOffset, offset) =>
          let m := { r.2 with
            extLBAForce := nextForce extendedPartitionOffset table r.2.extLBAForce }
          if 30 < numExtendedFound + 1 then some (0, m)
          else
            processTables cfg p drive disk scanType fuel relSectorOffset offset (numExtendedFound + 1)
              0 m

/-- `ProcessDisk` -/
def processDisk (cfg : KernelConfig) (fuel : ℕ) (scanType : ScanType) (drive : ℕ) (disk : HardDisk)
    (partitionsToIgnore : ℕ) (m : Scan) : Option (ℕ × Scan) :=
  match lbaGetDriveParameters cfg drive disk with
  | none => some (partitionsToIgnore, m)
  | some p =>
    processTables cfg p drive disk scanType fuel 0 0 0 partitionsToIgnore { m with extLBAForce := false }

/-! ## All disks -/

/-- The scan, and `foundPartitions`. -/
structure Found extends Scan where
  found : ℕ → ℕ

/-- A loop over the disks. -/
def forDisks (body : ℕ → HardDisk → Found → Option Found) : ℕ → List HardDisk → Found → Option Found
  | _, [], s => some s
  | drive, disk :: disks, s => (body drive disk s).bind (forDisks body (drive + 1) disks)

/-- `foundPartitions[HardDrive] = ProcessDisk(scanType, HardDrive, 0)` -/
def findFirst (cfg : KernelConfig) (fuel : ℕ) (scanType : ScanType) (drive : ℕ) (disk : HardDisk)
    (s : Found) : Option Found :=
  (processDisk cfg fuel scanType drive disk 0 s.toScan).map fun r =>
    ⟨r.2, Function.update s.found drive r.1⟩

/-- The active primary partition, or the first one. -/
def firstPass (cfg : KernelConfig) (fuel drive : ℕ) (disk : HardDisk) (s : Found) : Option Found :=
  (findFirst cfg fuel .primaryBoot drive disk s).bind fun s =>
    if s.found drive = 0 then findFirst cfg fuel .primary drive disk s else some s

/-- `ProcessDisk` when what it returns is not stored. -/
def laterPass (cfg : KernelConfig) (fuel : ℕ) (scanType : ScanType) (ignore : Found → ℕ) (drive : ℕ)
    (disk : HardDisk) (s : Found) : Option Found :=
  (processDisk cfg fuel scanType drive disk (ignore s) s.toScan).map fun r => ⟨r.2, s.found⟩

/-- `SCAN_EXTENDED` -/
def extendedPass (cfg : KernelConfig) (fuel drive : ℕ) : HardDisk → Found → Option Found :=
  laterPass cfg fuel .extended (fun _ => 0) drive

/-- `SCAN_PRIMARY2` -/
def secondPass (cfg : KernelConfig) (fuel drive : ℕ) : HardDisk → Found → Option Found :=
  laterPass cfg fuel .primary2 (fun s => s.found drive) drive

/-- `MAX_HARD_DRIVE` -/
def maxHardDrive : ℕ := 8

/-- The disk that the system was started from. -/
def bootDisk (cfg : KernelConfig) (disks : List HardDisk) : Option (HardDisk × ℕ) :=
  disks.zipIdx.find? fun d =>
    match lbaGetDriveParameters cfg d.2 d.1 with
    | none => false
    | some p => p.driveno == cfg.bootdrv

/-- The loop that looks for the disk that the system was started from. -/
def bootPass (cfg : KernelConfig) (fuel : ℕ) (disks : List HardDisk) (s : Found) : Option Found :=
  match bootDisk cfg disks with
  | none => some s
  | some (disk, drive) => findFirst cfg fuel .primaryBoot drive disk s

/-- All passes for a disk. -/
def drivePass (cfg : KernelConfig) (fuel drive : ℕ) (disk : HardDisk) (s : Found) : Option Found :=
  (if s.found drive = 0 then firstPass cfg fuel drive disk s else some s).bind fun s =>
    (extendedPass cfg fuel drive disk s).bind (secondPass cfg fuel drive disk)

/-- `ReadAllPartitionTables`, less what is done for floppy disks. -/
def readAllPartitionTables (cfg : KernelConfig) (fuel : ℕ) (all : List HardDisk) : Option Found :=
  let disks := all.take maxHardDrive
  let s : Found := ⟨⟨[], false⟩, fun _ => 0⟩
  if !cfg.dlaSortByDriveNo then do
    let s ← forDisks (firstPass cfg fuel) 0 disks s
    let s ← forDisks (extendedPass cfg fuel) 0 disks s
    forDisks (secondPass cfg fuel) 0 disks s
  else (bootPass cfg fuel disks s).bind (forDisks (drivePass cfg fuel) 0 disks)

end Boot
end BurdahDos
