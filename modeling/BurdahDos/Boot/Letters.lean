import BurdahDos.Boot.Scan
import Mathlib

/-!
# Drive letters

`readAllPartitionTables_letters`: in both orders the units of `ReadAllPartitionTables` are the
usable FAT partitions of the disks, each of them once, up to `NDEV` units; the first primary
partition of a disk comes before its logical ones, and those before the other primary ones.  The
scan ends on all tables.
-/

set_option autoImplicit false

namespace BurdahDos
namespace Boot

/-! ## Usable partitions -/

/-- A FAT partition that the kernel can use: it has sectors, or else its end is what is computed
for it, and the disk can be addressed from its start to its end. -/
def usable (p : DriveParam) (startSector : ℕ) (e : PartTableEntry) : Bool :=
  let chs := initLbaToChs (e.start startSector) p
  let last := initLbaToChs (e.last startSector) p
  isFATPartition e.fileSystem && !(isSuspect last e.end && e.numSect == 0) &&
    (p.lba || (chs.cylinder ≤ 1023 && last.cylinder ≤ 1023))

/-- The usable partitions of a table, from the entry with number `i` on, that are to be looked
at. -/
def partitionsOf (p : DriveParam) (drive startSector extendedPartNo : ℕ)
    (ok : ℕ → PartTableEntry → Bool) : ℕ → List PartTableEntry → List Partition
  | _, [] => []
  | i, e :: es =>
    let rest := partitionsOf p drive startSector extendedPartNo ok (i + 1) es
    if usable p startSector e && ok i e then
      ⟨drive, extendedPartNo, i, e.start startSector, e.numSect⟩ :: rest
    else rest

/-- What the units are, if those partitions have been defined in this order. -/
def Filled (m : Scan) (parts : List Partition) : Prop :=
  m.units.map Unit.part = parts.take (ndev - 2)

theorem Filled.nUnits_le {m : Scan} {parts : List Partition} (h : Filled m parts) :
    m.nUnits ≤ ndev := by
  have hlen := congrArg List.length h
  rw [List.length_map, List.length_take] at hlen
  rw [Scan.nUnits, ndev] at *
  omega

theorem Filled.define {m : Scan} {parts : List Partition} (h : Filled m parts) (cfg : KernelConfig)
    (p : DriveParam) (part : Partition) (fileSystem : ℕ) :
    Filled (dosDefinePartition cfg p part fileSystem m) (parts ++ [part]) := by
  have hlen := congrArg List.length h
  rw [List.length_map, List.length_take] at hlen
  rw [dosDefinePartition]
  split
  · rename_i hfull
    rw [Scan.nUnits] at hfull
    rw [Filled, h, List.take_append_of_le_length (by omega)]
  · rename_i hroom
    rw [Scan.nUnits] at hroom
    have hshort : parts.length < ndev - 2 := by omega
    rw [Filled, List.map_append, h, List.take_of_length_le (Nat.le_of_lt hshort),
      List.take_of_length_le (by rw [List.length_append]; exact hshort)]
    rfl

/-! ## One table -/

/-- The entries that a scan looks at. -/
def looksAt (scanType : ScanType) (ignore i : ℕ) (e : PartTableEntry) : Bool :=
  !ignore.testBit i && !(scanType == .primaryBoot && e.bootable == 0)

/-- The scan ends with the first partition it has defined. -/
def ScanType.one : ScanType → Bool
  | .primaryBoot | .primary => true
  | .extended | .primary2 => false

/-- What a scan defines, of the partitions it comes upon. -/
def ScanType.chosen (scanType : ScanType) (parts : List Partition) : List Partition :=
  if scanType.one then parts.take 1 else parts

/-- The mask with the partitions added. -/
def maskOf (ignore : ℕ) (parts : List Partition) : ℕ :=
  parts.foldl (fun mask q => mask ||| 1 <<< q.primaryNum) ignore

theorem isFAT_of_zero {e : PartTableEntry} (h : e.fileSystem = 0) :
    isFATPartition e.fileSystem = false := by
  rw [h]
  rfl

theorem isFAT_of_isExt {e : PartTableEntry} (h : isExtPartition e.fileSystem = true) :
    isFATPartition e.fileSystem = false := by
  rw [isExtPartition, Bool.or_eq_true, beq_iff_eq, beq_iff_eq] at h
  rcases h with h | h <;> rw [h] <;> rfl

theorem and_shift_ne_zero (ignore i : ℕ) : ignore &&& 1 <<< i ≠ 0 ↔ ignore.testBit i = true := by
  rw [Nat.one_shiftLeft, Nat.and_two_pow]
  cases ignore.testBit i with
  | false => simp
  | true => simp

/-- What a scan looks at does not change by a partition that is behind it. -/
theorem partitionsOf_mask (p : DriveParam) (drive startSector ext ignore k : ℕ)
    (scanType : ScanType) (es : List PartTableEntry) {i : ℕ} (hk : k < i) :
    partitionsOf p drive startSector ext (looksAt scanType (ignore ||| 1 <<< k)) i es =
      partitionsOf p drive startSector ext (looksAt scanType ignore) i es := by
  induction es generalizing i with
  | nil => rfl
  | cons e es ih =>
    have hbit : looksAt scanType (ignore ||| 1 <<< k) i e = looksAt scanType ignore i e := by
      rw [looksAt, looksAt, Nat.testBit_or, Nat.one_shiftLeft, Nat.testBit_two_pow_of_ne
        (Nat.ne_of_lt hk), Bool.or_false]
    rw [partitionsOf, partitionsOf, hbit, ih (Nat.lt_succ_of_lt hk)]

/-- An entry that the scan passes by. -/
theorem scan_skip {cfg : KernelConfig} {p : DriveParam} {drive : ℕ} {scanType : ScanType}
    {startSector ext i : ℕ} {e : PartTableEntry} {es : List PartTableEntry} {ignore : ℕ} {m : Scan}
    (h : (usable p startSector e && looksAt scanType ignore i e) = false) :
    scanForPrimaryPartitions cfg p drive scanType startSector ext i (e :: es) ignore m =
      scanForPrimaryPartitions cfg p drive scanType startSector ext (i + 1) es ignore m := by
  rw [scanForPrimaryPartitions]
  by_cases h0 : e.fileSystem = 0
  · exact if_pos h0
  rw [if_neg h0]
  by_cases hbit : ignore &&& 1 <<< i ≠ 0
  · exact if_pos hbit
  rw [if_neg hbit]
  by_cases hext : isExtPartition e.fileSystem = true
  · exact if_pos hext
  rw [if_neg hext]
  by_cases hboot : scanType = .primaryBoot ∧ e.bootable = 0
  · exact if_pos hboot
  rw [if_neg hboot]
  by_cases hfat : (!isFATPartition e.fileSystem) = true
  · exact if_pos hfat
  rw [if_neg hfat]
  by_cases hempty : isSuspect (initLbaToChs (e.last startSector) p) e.end = true ∧ e.numSect = 0
  · exact if_pos hempty
  refine (if_neg hempty).trans (if_pos (Classical.byContradiction fun hbeyond => ?_))
  -- Nothing is left that the scan could pass it by for.
  have hlooks : looksAt scanType ignore i e = true := by
    rw [and_shift_ne_zero, Bool.not_eq_true] at hbit
    rw [looksAt, hbit]
    simpa [← imp_iff_not_or] using hboot
  have husable : usable p startSector e = true := by
    rw [usable]
    simp only [Bool.not_eq_true, Bool.not_eq_false'] at hfat
    simp only [hfat, Bool.true_and, Bool.and_eq_true, Bool.not_eq_true', Bool.or_eq_true,
      decide_eq_true_eq]
    refine ⟨?_, ?_⟩
    · simpa using hempty
    · simp only [not_and_or, not_or, Nat.not_lt, Bool.not_eq_true', Bool.not_eq_false] at hbeyond
      exact hbeyond.symm
  rw [husable, hlooks] at h
  cases h

/-- An entry that the scan defines a unit for. -/
theorem scan_take {cfg : KernelConfig} {p : DriveParam} {drive : ℕ} {scanType : ScanType}
    {startSector ext i : ℕ} {e : PartTableEntry} {es : List PartTableEntry} {ignore : ℕ} {m : Scan}
    (h : (usable p startSector e && looksAt scanType ignore i e) = true) :
    ∃ fileSystem,
      let m' := dosDefinePartition cfg p
        ⟨drive, ext, i, e.start startSector, e.numSect⟩ fileSystem m
      scanForPrimaryPartitions cfg p drive scanType startSector ext i (e :: es) ignore m =
        if scanType.one then (ignore ||| 1 <<< i, m')
        else scanForPrimaryPartitions cfg p drive scanType startSector ext (i + 1) es
          (ignore ||| 1 <<< i) m' := by
  rw [Bool.and_eq_true, usable, looksAt] at h
  simp only [Bool.and_eq_true, Bool.or_eq_true, Bool.not_eq_true', Bool.and_eq_false_iff,
    decide_eq_true_eq, beq_eq_false_iff_ne, ne_eq] at h
  obtain ⟨⟨⟨hfat, hempty⟩, hreach⟩, hbit, hboot⟩ := h
  have h0 : e.fileSystem ≠ 0 := fun h0 => by rw [isFAT_of_zero h0] at hfat; cases hfat
  have hext : ¬ isExtPartition e.fileSystem = true := fun hext => by
    rw [isFAT_of_isExt hext] at hfat
    cases hfat
  have hnobit : ¬ ignore &&& 1 <<< i ≠ 0 := by
    rw [and_shift_ne_zero, hbit]
    decide
  have hnoboot : ¬ (scanType = .primaryBoot ∧ e.bootable = 0) := not_and_or.mpr hboot
  have hnoempty : ¬ (isSuspect (initLbaToChs (e.last startSector) p) e.end = true ∧ e.numSect = 0) := by
    rw [not_and_or, Bool.not_eq_true]
    exact hempty
  have hone : (scanType = .primaryBoot ∨ scanType = .primary) ↔ scanType.one = true := by
    cases scanType <;> decide
  rw [scanForPrimaryPartitions, if_neg h0, if_neg hnobit, if_neg hext, if_neg hnoboot,
    if_neg (by rw [hfat]; decide)]
  dsimp only
  rw [if_neg hnoempty, if_neg ?_]
  · simp only [hone]
    exact ⟨_, rfl⟩
  · rintro ⟨hbeyond, hlba⟩
    rw [Bool.not_eq_true'] at hlba
    rcases hreach with hreach | ⟨hfirst, hlast⟩
    · rw [hreach] at hlba
      cases hlba
    · omega

/-- **`ScanForPrimaryPartitions`** defines what it chooses of the usable partitions it looks at. -/
theorem scanForPrimaryPartitions_spec (cfg : KernelConfig) (p : DriveParam) (drive : ℕ)
    (scanType : ScanType) (startSector ext i : ℕ) (es : List PartTableEntry) (ignore : ℕ) {m : Scan}
    {parts : List Partition} (h : Filled m parts) :
    let r := scanForPrimaryPartitions cfg p drive scanType startSector ext i es ignore m
    let l := scanType.chosen
      (partitionsOf p drive startSector ext (looksAt scanType ignore) i es)
    r.1 = maskOf ignore l ∧ Filled r.2 (parts ++ l) := by
  induction es generalizing i ignore m parts with
  | nil =>
    have hnil : scanType.chosen [] = [] := by cases scanType <;> rfl
    rw [partitionsOf, hnil]
    refine ⟨rfl, ?_⟩
    rw [List.append_nil]
    exact h
  | cons e es ih =>
    rw [partitionsOf]
    cases hok : usable p startSector e && looksAt scanType ignore i e with
    | false =>
      rw [scan_skip hok]
      exact ih (i + 1) ignore h
    | true =>
      obtain ⟨fileSystem, heq⟩ := @scan_take cfg p drive scanType startSector ext i e es ignore m hok
      have hdef := h.define cfg p ⟨drive, ext, i, e.start startSector, e.numSect⟩
        fileSystem
      rw [heq]
      cases hone : scanType.one with
      | true =>
        simp only [ScanType.chosen, hone, if_true, List.take_succ_cons, List.take_zero]
        exact ⟨rfl, hdef⟩
      | false =>
        have hrest := ih (i + 1) (ignore ||| 1 <<< i) hdef
        rw [partitionsOf_mask _ _ _ _ _ _ _ _ (Nat.lt_succ_self i)] at hrest
        simp only [ScanType.chosen, hone, Bool.false_eq_true, if_false, if_true, List.append_assoc,
          List.singleton_append] at hrest ⊢
        exact hrest

/-! ## The tables of a disk -/

/-- The table in a sector, if it can be read and is one. -/
def tableAt (p : DriveParam) (disk : HardDisk) (address : ℕ) : Option (List PartTableEntry) :=
  if !p.lba ∧ 1023 < (initLbaToChs address p).cylinder then none
  else (disk.read address).bind convPartTableEntryToIntern

/-- How a sector is addressed is no matter. -/
theorem read_tableAt (cfg : KernelConfig) (p : DriveParam) (disk : HardDisk) (extLBAForce : Bool)
    (address : ℕ) : (read1LBASector cfg p disk extLBAForce address).bind convPartTableEntryToIntern =
      tableAt p disk address := by
  rw [read1LBASector, tableAt]
  by_cases hc : 1023 < (initLbaToChs address p).cylinder
  · cases p.lba <;> simp [hc]
  · cases p.lba <;> simp [hc]

/-- The tables of an extended chain, behind this one; `n` of them at most. -/
def walk (p : DriveParam) (disk : HardDisk) : ℕ → ℕ → List PartTableEntry →
    List (ℕ × List PartTableEntry)
  | 0, _, _ => []
  | n + 1, offset, table =>
    match nextLink offset table with
    | none => []
    | some (address, offset) =>
      match tableAt p disk address with
      | none => []
      | some next => (address, next) :: walk p disk n offset next

/-- The logical partitions in tables, the first of which has number `num`. -/
def logicalsOf (p : DriveParam) (drive : ℕ) : ℕ → List (ℕ × List PartTableEntry) → List Partition
  | _, [] => []
  | num, (address, table) :: tables =>
    partitionsOf p drive address num (fun _ _ => true) 0 table ++ logicalsOf p drive (num + 1) tables

/-- The loop of `ProcessDisk` when it looks for extended partitions. -/
theorem processTables_extended (cfg : KernelConfig) (p : DriveParam) (drive : ℕ) (disk : HardDisk)
    {fuel : ℕ} (address offset num : ℕ) {m : Scan} {parts : List Partition} (hnum : num ≤ 30)
    (hfuel : 31 ≤ fuel + num) (h : Filled m parts) :
    ∃ m', processTables cfg p drive disk .extended fuel address offset num 0 m = some (0, m') ∧
      Filled m' (parts ++ match tableAt p disk address with
        | none => []
        | some table =>
          (if num = 0 then [] else partitionsOf p drive address num (fun _ _ => true) 0 table) ++
            logicalsOf p drive (num + 1) (walk p disk (30 - num) offset table)) := by
  induction fuel generalizing address offset num m parts with
  | zero => omega
  | succ fuel ih =>
    rw [processTables, read_tableAt]
    cases ht : tableAt p disk address with
    | none => exact ⟨m, rfl, by simpa using h⟩
    | some table =>
      have hall : looksAt .extended 0 = fun _ _ => true := by
        funext i e
        rw [looksAt, Nat.zero_testBit]
        rfl
      -- The primary partitions are left alone.
      have hscan : ∃ m₁, (if ScanType.extended ≠ .extended ∨ num ≠ 0 then
          scanForPrimaryPartitions cfg p drive .extended address num 0 table 0 m else (0, m)).2 = m₁ ∧
          Filled m₁ (parts ++
            if num = 0 then [] else partitionsOf p drive address num (fun _ _ => true) 0 table) := by
        by_cases h0 : num = 0
        · refine ⟨m, ?_, ?_⟩
          · rw [if_neg]
            simpa using h0
          · rw [if_pos h0, List.append_nil]
            exact h
        · rw [if_pos (Or.inr h0), if_neg h0, ← hall]
          exact ⟨_, rfl, (scanForPrimaryPartitions_spec cfg p drive .extended address num 0 table 0
            h).2⟩
      obtain ⟨m₁, heq, hm₁⟩ := hscan
      dsimp only
      rw [heq, if_neg (by simp)]
      cases hlink : nextLink offset table with
      | none =>
        refine ⟨m₁, rfl, ?_⟩
        have hwalk : walk p disk (30 - num) offset table = [] := by
          cases 30 - num with
          | zero => rfl
          | succ n => rw [walk, hlink]
        rw [hwalk, logicalsOf, List.append_nil]
        exact hm₁
      | some link =>
        obtain ⟨address', offset'⟩ := link
        dsimp only
        by_cases hlast : 30 < num + 1
        · have hn : 30 - num = 0 := by omega
          rw [if_pos hlast, hn, walk, logicalsOf, List.append_nil]
          exact ⟨_, rfl, hm₁⟩
        · have hn : 30 - num = (30 - (num + 1)) + 1 := by omega
          have hforce : Filled { m₁ with extLBAForce := nextForce offset table m₁.extLBAForce }
              (parts ++ if num = 0 then [] else
                partitionsOf p drive address num (fun _ _ => true) 0 table) := hm₁
          obtain ⟨m', hrun, hm'⟩ := ih address' offset' (num + 1) (by omega) (by omega) hforce
          rw [if_neg hlast]
          refine ⟨m', hrun, ?_⟩
          rw [hn, walk, hlink]
          cases ht' : tableAt p disk address' with
          | none =>
            rw [ht', List.append_nil] at hm'
            simpa only [ht', logicalsOf, List.append_nil] using hm'
          | some table' =>
            rw [ht'] at hm'
            simpa only [ht', logicalsOf, Nat.succ_ne_zero, if_false, List.append_assoc] using hm'

/-! ## The partitions of a disk -/

/-- The usable primary partitions that are to be looked at. -/
def primaries (cfg : KernelConfig) (drive : ℕ) (disk : HardDisk) (ok : ℕ → PartTableEntry → Bool) :
    List Partition :=
  match lbaGetDriveParameters cfg drive disk with
  | none => []
  | some p =>
    match tableAt p disk 0 with
    | none => []
    | some table => partitionsOf p drive 0 0 ok 0 table

/-- All usable primary partitions. -/
def allPrimaries (cfg : KernelConfig) (drive : ℕ) (disk : HardDisk) : List Partition :=
  primaries cfg drive disk fun _ _ => true

/-- The active one, if there is any. -/
def activeOf (cfg : KernelConfig) (drive : ℕ) (disk : HardDisk) : List Partition :=
  (primaries cfg drive disk fun _ e => e.bootable != 0).take 1

/-- The first primary partition: the active one, else the first one. -/
def firstOf (cfg : KernelConfig) (drive : ℕ) (disk : HardDisk) : List Partition :=
  if activeOf cfg drive disk = [] then (allPrimaries cfg drive disk).take 1
  else activeOf cfg drive disk

/-- The logical partitions of the first extended chain. -/
def logicals (cfg : KernelConfig) (drive : ℕ) (disk : HardDisk) : List Partition :=
  match lbaGetDriveParameters cfg drive disk with
  | none => []
  | some p =>
    match tableAt p disk 0 with
    | none => []
    | some table => logicalsOf p drive 1 (walk p disk 30 0 table)

/-- The other primary partitions. -/
def restOf (cfg : KernelConfig) (drive : ℕ) (disk : HardDisk) : List Partition :=
  (allPrimaries cfg drive disk).filter (· ∉ firstOf cfg drive disk)

/-- `ProcessDisk` for primary partitions. -/
theorem processDisk_primary (cfg : KernelConfig) {fuel : ℕ} (hfuel : 31 ≤ fuel) (scanType : ScanType)
    (hscan : scanType ≠ .extended) (drive : ℕ) (disk : HardDisk) (ignore : ℕ) {m : Scan}
    {parts : List Partition} (h : Filled m parts) :
    let l := scanType.chosen (primaries cfg drive disk (looksAt scanType ignore))
    ∃ m', processDisk cfg fuel scanType drive disk ignore m = some (maskOf ignore l, m') ∧
      Filled m' (parts ++ l) := by
  have hnil : scanType.chosen [] = [] := by cases scanType <;> rfl
  have hkeep : ∃ m', some (ignore, m) = some (maskOf ignore (scanType.chosen []), m') ∧
      Filled m' (parts ++ scanType.chosen []) := by
    rw [hnil, List.append_nil]
    exact ⟨m, rfl, h⟩
  rw [processDisk, primaries]
  cases hp : lbaGetDriveParameters cfg drive disk with
  | none => exact hkeep
  | some p =>
    obtain ⟨n, rfl⟩ : ∃ n, fuel = n + 1 := ⟨fuel - 1, by omega⟩
    dsimp only
    rw [processTables, read_tableAt]
    cases ht : tableAt p disk 0 with
    | none =>
      rw [hnil, List.append_nil]
      exact ⟨_, rfl, h⟩
    | some table =>
      dsimp only
      rw [if_pos hscan, if_pos (Or.inl hscan)]
      have h : Filled { m with extLBAForce := false } parts := h
      obtain ⟨hmask, hfilled⟩ := scanForPrimaryPartitions_spec cfg p drive scanType 0 0 0 table ignore h
      rw [← hmask]
      exact ⟨_, rfl, hfilled⟩

/-- `ProcessDisk` for the extended chain. -/
theorem processDisk_extended (cfg : KernelConfig) {fuel : ℕ} (hfuel : 31 ≤ fuel) (drive : ℕ)
    (disk : HardDisk) {m : Scan} {parts : List Partition} (h : Filled m parts) :
    ∃ m', processDisk cfg fuel .extended drive disk 0 m = some (0, m') ∧
      Filled m' (parts ++ logicals cfg drive disk) := by
  rw [processDisk, logicals]
  cases hp : lbaGetDriveParameters cfg drive disk with
  | none => exact ⟨m, rfl, by rwa [List.append_nil]⟩
  | some p =>
    have h : Filled { m with extLBAForce := false } parts := h
    exact processTables_extended cfg p drive disk 0 0 0 (Nat.zero_le _) hfuel h

theorem maskOf_eq_zero {l : List Partition} (hl : l.length ≤ 1) : maskOf 0 l = 0 ↔ l = [] := by
  rcases l with _ | ⟨q, _ | ⟨q', l⟩⟩
  · simp [maskOf]
  · simp [maskOf, Nat.one_shiftLeft]
  · rw [List.length_cons, List.length_cons] at hl
    omega

/-! ### The primary passes -/

theorem looksAt_primaryBoot : looksAt .primaryBoot 0 = fun _ e => e.bootable != 0 := by
  funext i e
  rw [looksAt, Nat.zero_testBit]
  rfl

theorem looksAt_primary : looksAt .primary 0 = fun _ _ => true := by
  funext i e
  rw [looksAt, Nat.zero_testBit]
  rfl

/-- `SCAN_PRIMARYBOOT` finds the active partition. -/
theorem findFirst_primaryBoot (cfg : KernelConfig) {fuel : ℕ} (hfuel : 31 ≤ fuel) (drive : ℕ)
    (disk : HardDisk) {s : Found} {parts : List Partition} (h : Filled s.toScan parts) :
    ∃ m', findFirst cfg fuel .primaryBoot drive disk s =
        some ⟨m', Function.update s.found drive (maskOf 0 (activeOf cfg drive disk))⟩ ∧
      Filled m' (parts ++ activeOf cfg drive disk) := by
  obtain ⟨m', hrun, hm'⟩ := processDisk_primary cfg hfuel .primaryBoot (by decide) drive disk 0
    h
  rw [looksAt_primaryBoot] at hrun hm'
  exact ⟨m', by rw [findFirst, hrun]; rfl, hm'⟩

/-- `SCAN_PRIMARY` finds the first partition. -/
theorem findFirst_primary (cfg : KernelConfig) {fuel : ℕ} (hfuel : 31 ≤ fuel) (drive : ℕ)
    (disk : HardDisk) {s : Found} {parts : List Partition} (h : Filled s.toScan parts) :
    ∃ m', findFirst cfg fuel .primary drive disk s =
        some ⟨m', Function.update s.found drive (maskOf 0 ((allPrimaries cfg drive disk).take 1))⟩ ∧
      Filled m' (parts ++ (allPrimaries cfg drive disk).take 1) := by
  obtain ⟨m', hrun, hm'⟩ := processDisk_primary cfg hfuel .primary (by decide) drive disk 0 h
  rw [looksAt_primary] at hrun hm'
  exact ⟨m', by rw [findFirst, hrun]; rfl, hm'⟩

theorem activeOf_length (cfg : KernelConfig) (drive : ℕ) (disk : HardDisk) :
    (activeOf cfg drive disk).length ≤ 1 := List.length_take_le _ _

theorem firstOf_length (cfg : KernelConfig) (drive : ℕ) (disk : HardDisk) :
    (firstOf cfg drive disk).length ≤ 1 := by
  rw [firstOf]
  split
  · exact List.length_take_le _ _
  · exact activeOf_length cfg drive disk

theorem firstPass_spec (cfg : KernelConfig) {fuel : ℕ} (hfuel : 31 ≤ fuel) (drive : ℕ)
    (disk : HardDisk) {s : Found} {parts : List Partition} (h : Filled s.toScan parts) :
    ∃ m', firstPass cfg fuel drive disk s =
        some ⟨m', Function.update s.found drive (maskOf 0 (firstOf cfg drive disk))⟩ ∧
      Filled m' (parts ++ firstOf cfg drive disk) := by
  obtain ⟨m₁, hrun, hm₁⟩ := findFirst_primaryBoot cfg hfuel drive disk h
  rw [firstPass, hrun, Option.bind_some, firstOf]
  simp only [Function.update_self]
  by_cases hactive : activeOf cfg drive disk = []
  · rw [if_pos ((maskOf_eq_zero (activeOf_length cfg drive disk)).mpr hactive), if_pos hactive]
    rw [hactive, List.append_nil] at hm₁
    obtain ⟨m', hrun', hm'⟩ := findFirst_primary cfg hfuel drive disk (s := ⟨m₁, _⟩) hm₁
    refine ⟨m', ?_, hm'⟩
    rw [hrun', Function.update_idem]
  · rw [if_neg (mt (maskOf_eq_zero (activeOf_length cfg drive disk)).mp hactive), if_neg hactive]
    exact ⟨m₁, rfl, hm₁⟩

/-! ### Which partitions there are -/

theorem mem_partitionsOf {p : DriveParam} {drive startSector ext : ℕ}
    {ok : ℕ → PartTableEntry → Bool} {i : ℕ} {es : List PartTableEntry} {q : Partition} :
    q ∈ partitionsOf p drive startSector ext ok i es ↔ ∃ j e, es[j]? = some e ∧
      usable p startSector e = true ∧ ok (i + j) e = true ∧
      q = ⟨drive, ext, i + j, e.start startSector, e.numSect⟩ := by
  induction es generalizing i with
  | nil => simp [partitionsOf]
  | cons e es ih =>
    rw [partitionsOf]
    constructor
    · intro hq
      have hrest : q ∈ partitionsOf p drive startSector ext ok (i + 1) es →
          ∃ j e', (e :: es)[j]? = some e' ∧ usable p startSector e' = true ∧ ok (i + j) e' = true ∧
            q = ⟨drive, ext, i + j, e'.start startSector, e'.numSect⟩ := by
        intro hq
        obtain ⟨j, e', he', husable, hok, heq⟩ := ih.mp hq
        exact ⟨j + 1, e', he', husable, by rwa [Nat.add_comm j, ← Nat.add_assoc],
          by rwa [Nat.add_comm j, ← Nat.add_assoc]⟩
      split at hq
      · rename_i hok
        rw [Bool.and_eq_true] at hok
        rcases List.mem_cons.mp hq with rfl | hq
        · exact ⟨0, e, rfl, hok.1, hok.2, rfl⟩
        · exact hrest hq
      · exact hrest hq
    · rintro ⟨j, e', he', husable, hok, rfl⟩
      cases j with
      | zero =>
        cases he'
        rw [Nat.add_zero] at hok
        rw [if_pos (by rw [husable, hok]; rfl)]
        exact List.mem_cons_self
      | succ j =>
        have hmem := ih.mpr ⟨j, e', he', husable, by rwa [Nat.add_right_comm, Nat.add_assoc],
          by rw [Nat.add_right_comm, Nat.add_assoc]⟩
        split
        · exact List.mem_cons_of_mem _ hmem
        · exact hmem

/-- The place of a partition's entry. -/
def Partition.entry (q : Partition) : ℕ × ℕ × ℕ := (q.drive, q.extendedPartNo, q.primaryNum)

theorem partitionsOf_nodup (p : DriveParam) (drive startSector ext : ℕ)
    (ok : ℕ → PartTableEntry → Bool) (i : ℕ) (es : List PartTableEntry) :
    ((partitionsOf p drive startSector ext ok i es).map Partition.entry).Nodup := by
  induction es generalizing i with
  | nil => exact List.nodup_nil
  | cons e es ih =>
    rw [partitionsOf]
    split
    · rw [List.map_cons, List.nodup_cons]
      refine ⟨fun hmem => ?_, ih (i + 1)⟩
      obtain ⟨q, hq, heq⟩ := List.mem_map.mp hmem
      obtain ⟨j, e', -, -, -, rfl⟩ := mem_partitionsOf.mp hq
      have hnum := congrArg (fun x : ℕ × ℕ × ℕ => x.2.2) heq
      simp only [Partition.entry] at hnum
      omega
    · exact ih (i + 1)

/-- The partitions of a disk that are in its first table. -/
theorem primaries_place {cfg : KernelConfig} {drive : ℕ} {disk : HardDisk}
    {ok : ℕ → PartTableEntry → Bool} {q : Partition} (hq : q ∈ primaries cfg drive disk ok) :
    q.drive = drive ∧ q.extendedPartNo = 0 := by
  rw [primaries] at hq
  split at hq
  · cases hq
  · split at hq
    · cases hq
    · obtain ⟨j, e, -, -, -, rfl⟩ := mem_partitionsOf.mp hq
      exact ⟨rfl, rfl⟩

theorem primaries_nodup (cfg : KernelConfig) (drive : ℕ) (disk : HardDisk)
    (ok : ℕ → PartTableEntry → Bool) : ((primaries cfg drive disk ok).map Partition.entry).Nodup := by
  rw [primaries]
  split
  · exact List.nodup_nil
  · split
    · exact List.nodup_nil
    · exact partitionsOf_nodup _ _ _ _ _ _ _

theorem primaries_subset (cfg : KernelConfig) (drive : ℕ) (disk : HardDisk)
    (ok : ℕ → PartTableEntry → Bool) : primaries cfg drive disk ok ⊆ allPrimaries cfg drive disk := by
  intro q hq
  rw [allPrimaries]
  rw [primaries] at hq ⊢
  split at hq
  · cases hq
  · split at hq
    · cases hq
    · obtain ⟨j, e, he, husable, -, rfl⟩ := mem_partitionsOf.mp hq
      exact mem_partitionsOf.mpr ⟨j, e, he, husable, rfl, rfl⟩

theorem firstOf_subset (cfg : KernelConfig) (drive : ℕ) (disk : HardDisk) :
    firstOf cfg drive disk ⊆ allPrimaries cfg drive disk := by
  intro q hq
  rw [firstOf] at hq
  split at hq
  · exact List.mem_of_mem_take hq
  · exact primaries_subset _ _ _ _ (List.mem_of_mem_take hq)

/-- A scan that goes by the numbers of the entries only. -/
theorem partitionsOf_filter (p : DriveParam) (drive startSector ext : ℕ) (ok : ℕ → Bool) (i : ℕ)
    (es : List PartTableEntry) :
    partitionsOf p drive startSector ext (fun i _ => ok i) i es =
      (partitionsOf p drive startSector ext (fun _ _ => true) i es).filter
        fun q => ok q.primaryNum := by
  induction es generalizing i with
  | nil => rfl
  | cons e es ih =>
    rw [partitionsOf, partitionsOf, ih]
    cases husable : usable p startSector e with
    | false => simp
    | true => cases hok : ok i <;> simp [hok]

theorem primaries_filter (cfg : KernelConfig) (drive : ℕ) (disk : HardDisk) (ok : ℕ → Bool) :
    primaries cfg drive disk (fun i _ => ok i) =
      (allPrimaries cfg drive disk).filter fun q => ok q.primaryNum := by
  rw [allPrimaries, primaries, primaries]
  split
  · rfl
  · split
    · rfl
    · exact partitionsOf_filter _ _ _ _ _ _ _

theorem allPrimaries_inj {cfg : KernelConfig} {drive : ℕ} {disk : HardDisk} {q q' : Partition}
    (hq : q ∈ allPrimaries cfg drive disk) (hq' : q' ∈ allPrimaries cfg drive disk)
    (hnum : q.primaryNum = q'.primaryNum) : q = q' := by
  refine List.inj_on_of_nodup_map (primaries_nodup cfg drive disk fun _ _ => true) hq hq' ?_
  obtain ⟨hd, he⟩ := primaries_place hq
  obtain ⟨hd', he'⟩ := primaries_place hq'
  rw [Partition.entry, Partition.entry, hd, he, hd', he', hnum]

/-- `SCAN_PRIMARY2` ignores the first partition only. -/
theorem primaries_rest (cfg : KernelConfig) (drive : ℕ) (disk : HardDisk) :
    primaries cfg drive disk (looksAt .primary2 (maskOf 0 (firstOf cfg drive disk))) =
      restOf cfg drive disk := by
  have hlooks : looksAt .primary2 (maskOf 0 (firstOf cfg drive disk)) =
      fun i _ => !(maskOf 0 (firstOf cfg drive disk)).testBit i := by
    funext i e
    rw [looksAt]
    exact Bool.and_true _
  rw [hlooks, primaries_filter, restOf]
  refine List.filter_congr fun q hq => ?_
  have hsub := firstOf_subset cfg drive disk
  have hlen := firstOf_length cfg drive disk
  rcases hfirst : firstOf cfg drive disk with _ | ⟨q₁, _ | ⟨q₂, l⟩⟩
  · simp [maskOf]
  · have hq₁ : q₁ ∈ allPrimaries cfg drive disk := hsub (hfirst ▸ List.mem_cons_self)
    have hiff : q₁.primaryNum = q.primaryNum ↔ q = q₁ :=
      ⟨fun hnum => allPrimaries_inj hq hq₁ hnum.symm, fun h => h ▸ rfl⟩
    rw [maskOf, List.foldl_cons, List.foldl_nil, Nat.zero_or, Nat.one_shiftLeft, Nat.testBit_two_pow]
    simp only [hiff, List.mem_singleton, decide_not]
  · rw [hfirst, List.length_cons, List.length_cons] at hlen
    omega

/-- The pass for the primary partitions that are left. -/
theorem secondPass_spec (cfg : KernelConfig) {fuel : ℕ} (hfuel : 31 ≤ fuel) (drive : ℕ)
    (disk : HardDisk) {s : Found} {parts : List Partition} (h : Filled s.toScan parts)
    (hfound : s.found drive = maskOf 0 (firstOf cfg drive disk)) :
    ∃ m', secondPass cfg fuel drive disk s = some ⟨m', s.found⟩ ∧
      Filled m' (parts ++ restOf cfg drive disk) := by
  obtain ⟨m', hrun, hm'⟩ := processDisk_primary cfg hfuel .primary2 (by decide) drive disk
    (s.found drive) h
  have hrest : ScanType.chosen .primary2 (primaries cfg drive disk
      (looksAt .primary2 (s.found drive))) = restOf cfg drive disk := by
    rw [hfound]
    exact primaries_rest cfg drive disk
  rw [hrest] at hm'
  exact ⟨m', by rw [secondPass, laterPass, hrun]; rfl, hm'⟩

/-- The pass for the logical partitions. -/
theorem extendedPass_spec (cfg : KernelConfig) {fuel : ℕ} (hfuel : 31 ≤ fuel) (drive : ℕ)
    (disk : HardDisk) {s : Found} {parts : List Partition} (h : Filled s.toScan parts) :
    ∃ m', extendedPass cfg fuel drive disk s = some ⟨m', s.found⟩ ∧
      Filled m' (parts ++ logicals cfg drive disk) := by
  obtain ⟨m', hrun, hm'⟩ := processDisk_extended cfg hfuel drive disk h
  exact ⟨m', by rw [extendedPass, laterPass, hrun]; rfl, hm'⟩

/-! ## The order of the units -/

/-- What a disk has of `f`. -/
def ofDisk (disks : List HardDisk) (f : ℕ → HardDisk → List Partition) (drive : ℕ) :
    List Partition :=
  match disks[drive]? with
  | none => []
  | some disk => f drive disk

/-- What the first `n` disks have of `f`. -/
def overDisks (disks : List HardDisk) (f : ℕ → HardDisk → List Partition) (n : ℕ) : List Partition :=
  (List.range n).flatMap (ofDisk disks f)

/-- `Drive Letter Assignment - DOS order` -/
def dosOrder (cfg : KernelConfig) (disks : List HardDisk) : List Partition :=
  overDisks disks (firstOf cfg) disks.length ++ overDisks disks (logicals cfg) disks.length ++
    overDisks disks (restOf cfg) disks.length

/-- The active partition of the disk that the system was started from. -/
def bootFirst (cfg : KernelConfig) (disks : List HardDisk) : List Partition :=
  match bootDisk cfg disks with
  | none => []
  | some (disk, drive) => activeOf cfg drive disk

/-- The partitions of a disk that has or has not got its first unit yet. -/
def afterBoot (cfg : KernelConfig) (boot : List Partition) (drive : ℕ) (disk : HardDisk) :
    List Partition :=
  (if boot.any (·.drive == drive) then [] else firstOf cfg drive disk) ++ logicals cfg drive disk ++
    restOf cfg drive disk

/-- `Drive Letter Assignment - sorted by drive` -/
def driveOrder (cfg : KernelConfig) (disks : List HardDisk) : List Partition :=
  bootFirst cfg disks ++ overDisks disks (afterBoot cfg (bootFirst cfg disks)) disks.length

/-- The order in which units are given to the partitions. -/
def letterOrder (cfg : KernelConfig) (disks : List HardDisk) : List Partition :=
  if !cfg.dlaSortByDriveNo then dosOrder cfg disks else driveOrder cfg disks

@[simp] theorem overDisks_zero (disks : List HardDisk) (f : ℕ → HardDisk → List Partition) :
    overDisks disks f 0 = [] := rfl

theorem overDisks_succ {disks : List HardDisk} (f : ℕ → HardDisk → List Partition) {k : ℕ}
    {disk : HardDisk} (h : disks[k]? = some disk) :
    overDisks disks f (k + 1) = overDisks disks f k ++ f k disk := by
  rw [overDisks, List.range_succ, List.flatMap_append, List.flatMap_singleton, ofDisk, h]
  rfl

/-- **A loop over the disks** keeps what each turn carries on. -/
theorem forDisks_rule {disks : List HardDisk} (body : ℕ → HardDisk → Found → Option Found)
    (I : ℕ → Found → Prop)
    (hstep : ∀ k disk s, disks[k]? = some disk → I k s → ∃ s', body k disk s = some s' ∧ I (k + 1) s')
    {s : Found} (h : I 0 s) : ∃ s', forDisks body 0 disks s = some s' ∧ I disks.length s' := by
  suffices hrest : ∀ (rest : List HardDisk) (k : ℕ) (s : Found), (∀ j, rest[j]? = disks[k + j]?) →
      I k s → ∃ s', forDisks body k rest s = some s' ∧ I (k + rest.length) s' by
    obtain ⟨s', hrun, hI⟩ := hrest disks 0 s (fun j => by rw [Nat.zero_add]) h
    rw [Nat.zero_add] at hI
    exact ⟨s', hrun, hI⟩
  intro rest
  induction rest with
  | nil => exact fun k s _ hI => ⟨s, rfl, hI⟩
  | cons disk rest ih =>
    intro k s hrest hI
    obtain ⟨s₁, hrun, hI₁⟩ := hstep k disk s (hrest 0).symm hI
    obtain ⟨s', hrun', hI'⟩ := ih (k + 1) s₁ (fun j => by
      rw [Nat.add_assoc, Nat.add_comm 1, ← hrest (j + 1)]
      rfl) hI₁
    refine ⟨s', by rw [forDisks, hrun]; exact hrun', ?_⟩
    rwa [List.length_cons, Nat.add_comm rest.length, ← Nat.add_assoc]

/-- The mask of each disk is that of its first partition. -/
def FoundFirst (cfg : KernelConfig) (disks : List HardDisk) (n : ℕ) (s : Found) : Prop :=
  ∀ k < n, ∀ disk, disks[k]? = some disk → s.found k = maskOf 0 (firstOf cfg k disk)

theorem readAll_dosOrder {cfg : KernelConfig} (hcfg : cfg.dlaSortByDriveNo = false) {fuel : ℕ}
    (hfuel : 31 ≤ fuel) (all : List HardDisk) :
    ∃ s, readAllPartitionTables cfg fuel all = some s ∧
      Filled s.toScan (dosOrder cfg (all.take maxHardDrive)) := by
  generalize hdisks : all.take maxHardDrive = disks
  obtain ⟨s₁, hrun₁, hfill₁, hfound₁⟩ := forDisks_rule (firstPass cfg fuel)
    (fun k s => Filled s.toScan (overDisks disks (firstOf cfg) k) ∧ FoundFirst cfg disks k s)
    (fun k disk s hk hI => by
      obtain ⟨m', hrun, hm'⟩ := firstPass_spec cfg hfuel k disk hI.1
      refine ⟨_, hrun, by rwa [overDisks_succ _ hk], fun j hj disk' hj' => ?_⟩
      dsimp only
      rcases Nat.lt_succ_iff_lt_or_eq.mp hj with hlt | rfl
      · rw [Function.update_of_ne (Nat.ne_of_lt hlt)]
        exact hI.2 j hlt disk' hj'
      · rw [hk] at hj'
        cases hj'
        exact Function.update_self _ _ _)
    (s := ⟨⟨[], false⟩, fun _ => 0⟩) ⟨rfl, fun j hj => absurd hj (Nat.not_lt_zero j)⟩
  obtain ⟨s₂, hrun₂, hfill₂, hfound₂⟩ := forDisks_rule (extendedPass cfg fuel)
    (fun k s => Filled s.toScan (overDisks disks (firstOf cfg) disks.length ++
      overDisks disks (logicals cfg) k) ∧ FoundFirst cfg disks disks.length s)
    (fun k disk s hk hI => by
      obtain ⟨m', hrun, hm'⟩ := extendedPass_spec cfg hfuel k disk hI.1
      exact ⟨_, hrun, by rwa [overDisks_succ _ hk, ← List.append_assoc], hI.2⟩)
    (s := s₁) ⟨by rwa [overDisks_zero, List.append_nil], hfound₁⟩
  obtain ⟨s₃, hrun₃, hfill₃, -⟩ := forDisks_rule (secondPass cfg fuel)
    (fun k s => Filled s.toScan (overDisks disks (firstOf cfg) disks.length ++
      overDisks disks (logicals cfg) disks.length ++ overDisks disks (restOf cfg) k) ∧
      FoundFirst cfg disks disks.length s)
    (fun k disk s hk hI => by
      obtain ⟨hlt, -⟩ := List.getElem?_eq_some_iff.mp hk
      obtain ⟨m', hrun, hm'⟩ := secondPass_spec cfg hfuel k disk hI.1 (hI.2 k hlt disk hk)
      exact ⟨_, hrun, by rwa [overDisks_succ _ hk, ← List.append_assoc], hI.2⟩)
    (s := s₂) ⟨by rwa [overDisks_zero, List.append_nil], hfound₂⟩
  refine ⟨s₃, ?_, hfill₃⟩
  rw [readAllPartitionTables, hcfg, hdisks]
  simp only [Bool.not_false, if_true, hrun₁, hrun₂, hrun₃, Option.bind_eq_bind, Option.bind_some]

theorem bootDisk_getElem {cfg : KernelConfig} {disks : List HardDisk} {disk : HardDisk} {drive : ℕ}
    (h : bootDisk cfg disks = some (disk, drive)) : disks[drive]? = some disk :=
  List.mem_zipIdx_iff_getElem?.mp (List.mem_of_find?_eq_some h)

theorem activeOf_place {cfg : KernelConfig} {drive : ℕ} {disk : HardDisk} {q : Partition}
    (hq : q ∈ activeOf cfg drive disk) : q.drive = drive :=
  (primaries_place (List.mem_of_mem_take hq)).1

/-- Whether a disk has got its first unit, as the scan knows it. -/
def FoundBoot (cfg : KernelConfig) (disks : List HardDisk) (n : ℕ) (s : Found) : Prop :=
  ∀ k, n ≤ k → ∀ disk, disks[k]? = some disk → s.found k =
    if (bootFirst cfg disks).any (·.drive == k) then maskOf 0 (firstOf cfg k disk) else 0

theorem activeOf_firstOf {cfg : KernelConfig} {drive : ℕ} {disk : HardDisk} :
    maskOf 0 (activeOf cfg drive disk) =
      if (activeOf cfg drive disk).any (·.drive == drive) then maskOf 0 (firstOf cfg drive disk)
      else 0 := by
  by_cases hactive : activeOf cfg drive disk = []
  · rw [hactive]
    rfl
  · obtain ⟨q, hq⟩ := List.exists_mem_of_ne_nil _ hactive
    have hany : (activeOf cfg drive disk).any (·.drive == drive) = true :=
      List.any_eq_true.mpr ⟨q, hq, by rw [activeOf_place hq, beq_self_eq_true]⟩
    rw [if_pos hany, firstOf, if_neg hactive]

/-- The first loop leaves off at the disk that the system was started from. -/
theorem bootPass_spec (cfg : KernelConfig) {fuel : ℕ} (hfuel : 31 ≤ fuel) (disks : List HardDisk) :
    ∃ s, bootPass cfg fuel disks ⟨⟨[], false⟩, fun _ => 0⟩ = some s ∧
      Filled s.toScan (bootFirst cfg disks) ∧ FoundBoot cfg disks 0 s := by
  have hempty : Filled ⟨[], false⟩ [] := rfl
  rw [bootPass]
  cases hboot : bootDisk cfg disks with
  | none =>
    refine ⟨_, rfl, ?_, fun k _ disk _ => ?_⟩
    · rw [bootFirst, hboot]
      exact hempty
    · rw [bootFirst, hboot]
      rfl
  | some d =>
    obtain ⟨disk, drive⟩ := d
    have hfirst : bootFirst cfg disks = activeOf cfg drive disk := by rw [bootFirst, hboot]
    obtain ⟨m', hrun, hm'⟩ := findFirst_primaryBoot cfg hfuel drive disk
      (s := ⟨⟨[], false⟩, fun _ => 0⟩) hempty
    refine ⟨_, hrun, by rwa [hfirst], fun k _ disk' hk => ?_⟩
    rw [hfirst]
    dsimp only
    by_cases hkd : k = drive
    · subst hkd
      rw [bootDisk_getElem hboot] at hk
      cases hk
      rw [Function.update_self, ← activeOf_firstOf]
    · rw [Function.update_of_ne hkd, if_neg]
      simp only [List.any_eq_true, beq_iff_eq, not_exists, not_and]
      intro q hq hqk
      exact hkd (hqk.symm.trans (activeOf_place hq))

/-- The first unit of a disk, if it has not got it yet. -/
theorem firstPass_boot (cfg : KernelConfig) {fuel : ℕ} (hfuel : 31 ≤ fuel) {disks : List HardDisk}
    {k : ℕ} {disk : HardDisk} (hk : disks[k]? = some disk) {s : Found} {parts : List Partition}
    (h : Filled s.toScan parts) (hfound : FoundBoot cfg disks k s) :
    ∃ s₁, (if s.found k = 0 then firstPass cfg fuel k disk s else some s) = some s₁ ∧
      Filled s₁.toScan (parts ++
        if (bootFirst cfg disks).any (·.drive == k) then [] else firstOf cfg k disk) ∧
      s₁.found k = maskOf 0 (firstOf cfg k disk) ∧ ∀ j, k < j → s₁.found j = s.found j := by
  have hmask := hfound k (Nat.le_refl k) disk hk
  obtain ⟨m', hrun, hm'⟩ := firstPass_spec cfg hfuel k disk h
  have hother : ∀ j, k < j →
      Function.update s.found k (maskOf 0 (firstOf cfg k disk)) j = s.found j :=
    fun j hj => Function.update_of_ne (Nat.ne_of_gt hj) _ _
  by_cases h0 : s.found k = 0
  · refine ⟨_, by rw [if_pos h0]; exact hrun, ?_, Function.update_self _ _ _, hother⟩
    by_cases hany : (bootFirst cfg disks).any (·.drive == k) = true
    · rw [if_pos hany, h0, eq_comm, maskOf_eq_zero (firstOf_length cfg k disk)] at hmask
      rwa [if_pos hany, ← hmask]
    · rwa [if_neg hany]
  · have hany : (bootFirst cfg disks).any (·.drive == k) = true := by
      by_contra hany
      rw [if_neg hany] at hmask
      exact h0 hmask
    rw [if_pos hany] at hmask
    rw [if_pos hany, List.append_nil]
    exact ⟨s, if_neg h0, h, hmask, fun _ _ => rfl⟩

theorem readAll_driveOrder {cfg : KernelConfig} (hcfg : cfg.dlaSortByDriveNo = true) {fuel : ℕ}
    (hfuel : 31 ≤ fuel) (all : List HardDisk) :
    ∃ s, readAllPartitionTables cfg fuel all = some s ∧
      Filled s.toScan (driveOrder cfg (all.take maxHardDrive)) := by
  generalize hdisks : all.take maxHardDrive = disks
  obtain ⟨s₁, hrun₁, hfill₁, hfound₁⟩ := bootPass_spec cfg hfuel disks
  obtain ⟨s₂, hrun₂, hfill₂, -⟩ := forDisks_rule (drivePass cfg fuel)
    (fun k s => Filled s.toScan (bootFirst cfg disks ++
      overDisks disks (afterBoot cfg (bootFirst cfg disks)) k) ∧ FoundBoot cfg disks k s)
    (fun k disk s hk hI => by
      obtain ⟨s₁, hrun₁, hfill₁, hmask, hother⟩ := firstPass_boot cfg hfuel hk hI.1 hI.2
      obtain ⟨m₂, hrun₂, hm₂⟩ := extendedPass_spec cfg hfuel k disk hfill₁
      obtain ⟨m₃, hrun₃, hm₃⟩ := secondPass_spec cfg hfuel k disk (s := ⟨m₂, s₁.found⟩) hm₂ hmask
      refine ⟨⟨m₃, s₁.found⟩, ?_, ?_, fun j hj disk' hj' => ?_⟩
      · rw [drivePass, hrun₁, Option.bind_some, hrun₂, Option.bind_some, hrun₃]
      · rw [overDisks_succ _ hk, afterBoot]
        simpa only [List.append_assoc] using hm₃
      · rw [← hI.2 j (Nat.le_of_lt hj) disk' hj']
        exact hother j hj)
    (s := s₁) ⟨by rwa [overDisks_zero, List.append_nil], hfound₁⟩
  refine ⟨s₂, ?_, hfill₂⟩
  rw [readAllPartitionTables, hcfg, hdisks]
  simp only [Bool.not_true, Bool.false_eq_true, if_false]
  rw [hrun₁, Option.bind_some, hrun₂]

/-- **The units are the partitions in their order**, and the scan ends on all tables. -/
theorem readAll_filled (cfg : KernelConfig) {fuel : ℕ} (hfuel : 31 ≤ fuel) (all : List HardDisk) :
    ∃ s, readAllPartitionTables cfg fuel all = some s ∧
      Filled s.toScan (letterOrder cfg (all.take maxHardDrive)) := by
  rw [letterOrder]
  cases hcfg : cfg.dlaSortByDriveNo with
  | false => exact readAll_dosOrder hcfg hfuel all
  | true => exact readAll_driveOrder hcfg hfuel all

/-! ## Each partition once -/

/-- The partitions of a disk in the order of their units. -/
def diskOrder (cfg : KernelConfig) (drive : ℕ) (disk : HardDisk) : List Partition :=
  firstOf cfg drive disk ++ logicals cfg drive disk ++ restOf cfg drive disk

theorem mem_logicalsOf {p : DriveParam} {drive num : ℕ} {tables : List (ℕ × List PartTableEntry)}
    {q : Partition} : q ∈ logicalsOf p drive num tables ↔ ∃ k address table i e,
      tables[k]? = some (address, table) ∧ table[i]? = some e ∧ usable p address e = true ∧
      q = ⟨drive, num + k, i, e.start address, e.numSect⟩ := by
  induction tables generalizing num with
  | nil => simp [logicalsOf]
  | cons t tables ih =>
    obtain ⟨address, table⟩ := t
    rw [logicalsOf, List.mem_append, mem_partitionsOf, ih]
    constructor
    · rintro (⟨i, e, he, husable, -, rfl⟩ | ⟨k, address', table', i, e, ht, he, husable, rfl⟩)
      · exact ⟨0, address, table, i, e, rfl, he, husable, by rw [Nat.zero_add, Nat.add_zero]⟩
      · exact ⟨k + 1, address', table', i, e, ht, he, husable, by rw [Nat.add_assoc, Nat.add_comm 1]⟩
    · rintro ⟨k, address', table', i, e, ht, he, husable, rfl⟩
      cases k with
      | zero =>
        cases ht
        exact Or.inl ⟨i, e, he, husable, rfl, by rw [Nat.zero_add, Nat.add_zero]⟩
      | succ k =>
        exact Or.inr ⟨k, address', table', i, e, ht, he, husable,
          by rw [Nat.add_assoc, Nat.add_comm 1]⟩

theorem logicalsOf_nodup (p : DriveParam) (drive num : ℕ) (tables : List (ℕ × List PartTableEntry)) :
    ((logicalsOf p drive num tables).map Partition.entry).Nodup := by
  induction tables generalizing num with
  | nil => exact List.nodup_nil
  | cons t tables ih =>
    obtain ⟨address, table⟩ := t
    rw [logicalsOf, List.map_append, List.nodup_append]
    refine ⟨partitionsOf_nodup _ _ _ _ _ _ _, ih (num + 1), ?_⟩
    simp only [List.mem_map]
    rintro _ ⟨q, hq, rfl⟩ _ ⟨q', hq', rfl⟩ heq
    obtain ⟨i, e, -, -, -, rfl⟩ := mem_partitionsOf.mp hq
    obtain ⟨k, address', table', i', e', -, -, -, rfl⟩ := mem_logicalsOf.mp hq'
    have hnum := congrArg (fun x : ℕ × ℕ × ℕ => x.2.1) heq
    simp only [Partition.entry] at hnum
    omega

theorem logicals_place {cfg : KernelConfig} {drive : ℕ} {disk : HardDisk} {q : Partition}
    (hq : q ∈ logicals cfg drive disk) : q.drive = drive ∧ q.extendedPartNo ≠ 0 := by
  rw [logicals] at hq
  split at hq
  · cases hq
  · split at hq
    · cases hq
    · obtain ⟨k, address, table, i, e, -, -, -, rfl⟩ := mem_logicalsOf.mp hq
      exact ⟨rfl, Nat.ne_of_gt (Nat.lt_of_lt_of_le Nat.one_pos (Nat.le_add_right 1 k))⟩

theorem mem_diskOrder {cfg : KernelConfig} {drive : ℕ} {disk : HardDisk} {q : Partition} :
    q ∈ diskOrder cfg drive disk ↔ q ∈ allPrimaries cfg drive disk ∨ q ∈ logicals cfg drive disk := by
  rw [diskOrder, List.mem_append, List.mem_append, restOf, List.mem_filter, decide_eq_true_iff]
  constructor
  · rintro ((hq | hq) | hq)
    · exact Or.inl (firstOf_subset _ _ _ hq)
    · exact Or.inr hq
    · exact Or.inl hq.1
  · rintro (hq | hq)
    · by_cases hfirst : q ∈ firstOf cfg drive disk
      · exact Or.inl (Or.inl hfirst)
      · exact Or.inr ⟨hq, hfirst⟩
    · exact Or.inl (Or.inr hq)

theorem diskOrder_nodup (cfg : KernelConfig) (drive : ℕ) (disk : HardDisk) :
    ((diskOrder cfg drive disk).map Partition.entry).Nodup := by
  have hlogicals : ((logicals cfg drive disk).map Partition.entry).Nodup := by
    rw [logicals]
    split
    · exact List.nodup_nil
    · split
      · exact List.nodup_nil
      · exact logicalsOf_nodup _ _ _ _
  have hfirst : ((firstOf cfg drive disk).map Partition.entry).Nodup := by
    rw [firstOf]
    split
    · exact (primaries_nodup cfg drive disk _).sublist ((List.take_sublist _ _).map _)
    · exact (primaries_nodup cfg drive disk _).sublist ((List.take_sublist _ _).map _)
  have hrest : ((restOf cfg drive disk).map Partition.entry).Nodup :=
    (primaries_nodup cfg drive disk _).sublist (List.filter_sublist.map _)
  rw [diskOrder, List.map_append, List.map_append, List.nodup_append, List.nodup_append]
  refine ⟨⟨hfirst, hlogicals, ?_⟩, hrest, ?_⟩
  · simp only [List.mem_map]
    rintro _ ⟨q, hq, rfl⟩ _ ⟨q', hq', rfl⟩ heq
    have hext := (primaries_place (firstOf_subset _ _ _ hq)).2
    refine (logicals_place hq').2 ?_
    rw [← hext]
    exact (congrArg (fun x : ℕ × ℕ × ℕ => x.2.1) heq).symm
  · simp only [List.mem_append, List.mem_map]
    rintro _ (⟨q, hq, rfl⟩ | ⟨q, hq, rfl⟩) _ ⟨q', hq', rfl⟩ heq
    · rw [restOf, List.mem_filter, decide_eq_true_iff] at hq'
      have hnum := congrArg (fun x : ℕ × ℕ × ℕ => x.2.2) heq
      exact hq'.2 (allPrimaries_inj (firstOf_subset _ _ _ hq) hq'.1 hnum ▸ hq)
    · rw [restOf, List.mem_filter] at hq'
      refine (logicals_place hq).2 ?_
      rw [← (primaries_place hq'.1).2]
      exact congrArg (fun x : ℕ × ℕ × ℕ => x.2.1) heq

/-! ### All disks -/

theorem ofDisk_drive {disks : List HardDisk} {f : ℕ → HardDisk → List Partition}
    (hf : ∀ k disk, ∀ q ∈ f k disk, q.drive = k) {k : ℕ} {q : Partition} (hq : q ∈ ofDisk disks f k) :
    q.drive = k := by
  rw [ofDisk] at hq
  split at hq
  · cases hq
  · exact hf _ _ q hq

/-- The partitions of one disk among those of several. -/
theorem overDisks_filter {disks : List HardDisk} {f : ℕ → HardDisk → List Partition}
    (hf : ∀ k disk, ∀ q ∈ f k disk, q.drive = k) (n k : ℕ) :
    (overDisks disks f n).filter (·.drive = k) = if k < n then ofDisk disks f k else [] := by
  induction n with
  | zero => rfl
  | succ n ih =>
    have hsplit : overDisks disks f (n + 1) = overDisks disks f n ++ ofDisk disks f n := by
      rw [overDisks, List.range_succ, List.flatMap_append, List.flatMap_singleton]
      rfl
    rw [hsplit, List.filter_append, ih]
    by_cases hk : n = k
    · subst hk
      rw [if_neg (Nat.lt_irrefl n), if_pos (Nat.lt_succ_self n), List.nil_append]
      exact List.filter_eq_self.mpr fun q hq => decide_eq_true (ofDisk_drive hf hq)
    · have hnone : (ofDisk disks f n).filter (·.drive = k) = [] :=
        List.filter_eq_nil_iff.mpr fun q hq => by simpa [ofDisk_drive hf hq] using hk
      have hlt : k < n + 1 ↔ k < n := by omega
      rw [hnone, List.append_nil]
      simp only [hlt]

theorem ofDisk_of_le {disks : List HardDisk} (f : ℕ → HardDisk → List Partition) {k : ℕ}
    (h : ¬ k < disks.length) : ofDisk disks f k = [] := by
  rw [ofDisk, List.getElem?_eq_none (Nat.le_of_not_lt h)]

theorem ofDisk_append (disks : List HardDisk) (f g : ℕ → HardDisk → List Partition) (k : ℕ) :
    ofDisk disks f k ++ ofDisk disks g k = ofDisk disks (fun k disk => f k disk ++ g k disk) k := by
  rw [ofDisk, ofDisk, ofDisk]
  split <;> rfl

theorem overDisks_filter_all {disks : List HardDisk} {f : ℕ → HardDisk → List Partition}
    (hf : ∀ k disk, ∀ q ∈ f k disk, q.drive = k) (k : ℕ) :
    (overDisks disks f disks.length).filter (·.drive = k) = ofDisk disks f k := by
  rw [overDisks_filter hf]
  split
  · rfl
  · rename_i hk
    rw [ofDisk_of_le f hk]

theorem restOf_drive {cfg : KernelConfig} (k : ℕ) (disk : HardDisk) :
    ∀ q ∈ restOf cfg k disk, q.drive = k :=
  fun _ hq => (primaries_place (List.mem_of_mem_filter hq)).1

theorem firstOf_drive {cfg : KernelConfig} (k : ℕ) (disk : HardDisk) :
    ∀ q ∈ firstOf cfg k disk, q.drive = k :=
  fun _ hq => (primaries_place (firstOf_subset _ _ _ hq)).1

theorem logicals_drive {cfg : KernelConfig} (k : ℕ) (disk : HardDisk) :
    ∀ q ∈ logicals cfg k disk, q.drive = k :=
  fun _ hq => (logicals_place hq).1

/-- The unit that a disk may have got before the others. -/
theorem bootFirst_filter (cfg : KernelConfig) {disks : List HardDisk} {k : ℕ} {disk : HardDisk}
    (hk : disks[k]? = some disk) :
    (bootFirst cfg disks).filter (·.drive = k) ++
      (if (bootFirst cfg disks).any (·.drive == k) then [] else firstOf cfg k disk) =
        firstOf cfg k disk := by
  by_cases hany : (bootFirst cfg disks).any (·.drive == k) = true
  · rw [if_pos hany, List.append_nil]
    obtain ⟨q, hq, hqk⟩ := List.any_eq_true.mp hany
    cases hboot : bootDisk cfg disks with
    | none =>
      rw [bootFirst, hboot] at hq
      cases hq
    | some d =>
      obtain ⟨disk', drive⟩ := d
      have hfirst : bootFirst cfg disks = activeOf cfg drive disk' := by rw [bootFirst, hboot]
      rw [hfirst] at hq
      have hdk : drive = k := (activeOf_place hq).symm.trans (beq_iff_eq.mp hqk)
      subst hdk
      rw [bootDisk_getElem hboot] at hk
      cases hk
      rw [hfirst, firstOf, if_neg (List.ne_nil_of_mem hq)]
      exact List.filter_eq_self.mpr fun q hq => decide_eq_true (activeOf_place hq)
  · have hnone : (bootFirst cfg disks).filter (·.drive = k) = [] := by
      refine List.filter_eq_nil_iff.mpr fun q hq hqk => hany ?_
      exact List.any_eq_true.mpr ⟨q, hq, beq_iff_eq.mpr (of_decide_eq_true hqk)⟩
    rw [if_neg hany, hnone, List.nil_append]

/-- **In both orders** a disk has its partitions in the same order. -/
theorem letterOrder_filter (cfg : KernelConfig) (disks : List HardDisk) (k : ℕ) :
    (letterOrder cfg disks).filter (·.drive = k) = ofDisk disks (diskOrder cfg) k := by
  rw [letterOrder]
  split
  · rw [dosOrder, List.filter_append, List.filter_append, overDisks_filter_all firstOf_drive,
      overDisks_filter_all logicals_drive, overDisks_filter_all restOf_drive, ofDisk_append,
      ofDisk_append]
    rfl
  · have hafter : ∀ k disk, ∀ q ∈ afterBoot cfg (bootFirst cfg disks) k disk, q.drive = k := by
      intro k disk q hq
      rw [afterBoot, List.mem_append, List.mem_append] at hq
      rcases hq with (hq | hq) | hq
      · split at hq
        · cases hq
        · exact firstOf_drive k disk q hq
      · exact logicals_drive k disk q hq
      · exact restOf_drive k disk q hq
    rw [driveOrder, List.filter_append, overDisks_filter_all hafter, ofDisk, ofDisk]
    cases hk : disks[k]? with
    | none =>
      refine List.append_eq_nil_iff.mpr ⟨List.filter_eq_nil_iff.mpr fun q hq hqk => ?_, rfl⟩
      rw [bootFirst] at hq
      split at hq
      · cases hq
      · rename_i hboot
        have hdrive := bootDisk_getElem hboot
        rw [← activeOf_place hq, of_decide_eq_true hqk, hk] at hdrive
        cases hdrive
    | some disk =>
      dsimp only
      rw [afterBoot, diskOrder, ← List.append_assoc, ← List.append_assoc, bootFirst_filter cfg hk]

theorem mem_letterOrder {cfg : KernelConfig} {disks : List HardDisk} {q : Partition} :
    q ∈ letterOrder cfg disks ↔ q ∈ ofDisk disks (diskOrder cfg) q.drive := by
  rw [← letterOrder_filter, List.mem_filter, decide_eq_true_iff]
  exact (and_iff_left rfl).symm

theorem letterOrder_nodup (cfg : KernelConfig) (disks : List HardDisk) :
    ((letterOrder cfg disks).map Partition.entry).Nodup := by
  rw [List.Nodup, List.pairwise_map, List.pairwise_iff_forall_sublist]
  intro q q' hsub heq
  -- Both are of one disk, on which each entry has one unit only.
  have hdrive : q.drive = q'.drive := congrArg Prod.fst heq
  have hpair : [q, q'].filter (·.drive = q.drive) = [q, q'] := by simp [hdrive]
  have hsub' := hsub.filter (·.drive = q.drive)
  rw [hpair, letterOrder_filter] at hsub'
  have hnodup : ((ofDisk disks (diskOrder cfg) q.drive).map Partition.entry).Nodup := by
    rw [ofDisk]
    split
    · exact List.nodup_nil
    · exact diskOrder_nodup cfg _ _
  rw [List.Nodup, List.pairwise_map, List.pairwise_iff_forall_sublist] at hnodup
  exact hnodup hsub' heq

/-! ## The extended chain -/

/-- The tables of the extended chain behind a table; a chain with a cycle is none. -/
inductive Chain (p : DriveParam) (disk : HardDisk) :
    ℕ → List PartTableEntry → List (ℕ × List PartTableEntry) → Prop
  | last {offset : ℕ} {table : List PartTableEntry} (h : nextLink offset table = none) :
      Chain p disk offset table []
  | broken {offset address offset' : ℕ} {table : List PartTableEntry}
      (h : nextLink offset table = some (address, offset')) (ht : tableAt p disk address = none) :
      Chain p disk offset table []
  | next {offset address offset' : ℕ} {table table' : List PartTableEntry}
      {tables : List (ℕ × List PartTableEntry)}
      (h : nextLink offset table = some (address, offset')) (ht : tableAt p disk address = some table')
      (hc : Chain p disk offset' table' tables) :
      Chain p disk offset table ((address, table') :: tables)

theorem Chain.walk_eq {p : DriveParam} {disk : HardDisk} {offset n : ℕ} {table : List PartTableEntry}
    {tables : List (ℕ × List PartTableEntry)} (h : Chain p disk offset table tables)
    (hn : tables.length ≤ n) : walk p disk n offset table = tables := by
  induction h generalizing n with
  | last h => cases n <;> simp [walk, h]
  | broken h ht => cases n <;> simp [walk, h, ht]
  | next h ht hc ih =>
    cases n with
    | zero => cases hn
    | succ n =>
      rw [walk, h]
      simp only [ht, ih (Nat.le_of_succ_le_succ hn)]

/-- The extended chains of the disks are acyclic, and have at most 30 links. -/
def HasChains (cfg : KernelConfig) (disks : List HardDisk) : Prop :=
  ∀ k disk p table, disks[k]? = some disk → lbaGetDriveParameters cfg k disk = some p →
    tableAt p disk 0 = some table → ∃ tables, Chain p disk 0 table tables ∧ tables.length ≤ 30

/-- A usable FAT primary partition. -/
def IsPrimary (cfg : KernelConfig) (disks : List HardDisk) (q : Partition) : Prop :=
  ∃ disk p table e, disks[q.drive]? = some disk ∧ lbaGetDriveParameters cfg q.drive disk = some p ∧
    tableAt p disk 0 = some table ∧ table[q.primaryNum]? = some e ∧ usable p 0 e = true ∧
    q = ⟨q.drive, 0, q.primaryNum, e.start 0, e.numSect⟩

/-- A usable FAT logical partition of the first extended chain. -/
def IsLogical (cfg : KernelConfig) (disks : List HardDisk) (q : Partition) : Prop :=
  ∃ disk p table tables k address table' e, disks[q.drive]? = some disk ∧
    lbaGetDriveParameters cfg q.drive disk = some p ∧ tableAt p disk 0 = some table ∧
    Chain p disk 0 table tables ∧ tables[k]? = some (address, table') ∧
    table'[q.primaryNum]? = some e ∧ usable p address e = true ∧
    q = ⟨q.drive, k + 1, q.primaryNum, e.start address, e.numSect⟩

theorem isPrimary_iff {cfg : KernelConfig} {disks : List HardDisk} {q : Partition} :
    IsPrimary cfg disks q ↔ q ∈ ofDisk disks (allPrimaries cfg) q.drive := by
  rw [IsPrimary, ofDisk]
  constructor
  · rintro ⟨disk, p, table, e, hk, hp, ht, he, husable, hq⟩
    rw [hk]
    dsimp only
    rw [allPrimaries, primaries, hp]
    dsimp only
    rw [ht]
    exact mem_partitionsOf.mpr ⟨q.primaryNum, e, he, husable, rfl, by rwa [Nat.zero_add]⟩
  · intro hq
    cases hk : disks[q.drive]? with
    | none =>
      rw [hk] at hq
      cases hq
    | some disk =>
      rw [hk] at hq
      dsimp only at hq
      rw [allPrimaries, primaries] at hq
      split at hq
      · cases hq
      · rename_i p hp
        split at hq
        · cases hq
        · rename_i table ht
          obtain ⟨j, e, he, husable, -, heq⟩ := mem_partitionsOf.mp hq
          have hj : q.primaryNum = j := by rw [heq, Nat.zero_add]
          rw [← hj, Nat.zero_add] at heq
          exact ⟨disk, p, table, e, rfl, hp, ht, hj ▸ he, husable, heq⟩

theorem isLogical_iff {cfg : KernelConfig} {disks : List HardDisk} (h : HasChains cfg disks)
    {q : Partition} : IsLogical cfg disks q ↔ q ∈ ofDisk disks (logicals cfg) q.drive := by
  rw [IsLogical, ofDisk]
  constructor
  · rintro ⟨disk, p, table, tables, k, address, table', e, hk, hp, ht, hchain, hlink, he, husable, hq⟩
    obtain ⟨tables', hchain', hlen⟩ := h q.drive disk p table hk hp ht
    have hwalk : walk p disk 30 0 table = tables := by
      rw [hchain'.walk_eq hlen, ← hchain'.walk_eq (Nat.le_max_left _ tables.length),
        hchain.walk_eq (Nat.le_max_right _ _)]
    rw [hk]
    dsimp only
    rw [logicals, hp]
    dsimp only
    rw [ht]
    dsimp only
    rw [hwalk]
    exact mem_logicalsOf.mpr ⟨k, address, table', q.primaryNum, e, hlink, he, husable,
      by rwa [Nat.add_comm]⟩
  · intro hq
    cases hk : disks[q.drive]? with
    | none =>
      rw [hk] at hq
      cases hq
    | some disk =>
      rw [hk] at hq
      dsimp only at hq
      rw [logicals] at hq
      split at hq
      · cases hq
      · rename_i p hp
        split at hq
        · cases hq
        · rename_i table ht
          obtain ⟨tables, hchain, hlen⟩ := h q.drive disk p table hk hp ht
          rw [hchain.walk_eq hlen] at hq
          obtain ⟨k, address, table', i, e, hlink, he, husable, heq⟩ := mem_logicalsOf.mp hq
          have hi : q.primaryNum = i := by rw [heq]
          rw [← hi, Nat.add_comm] at heq
          exact ⟨disk, p, table, tables, k, address, table', e, rfl, hp, ht, hchain, hlink, hi ▸ he,
            husable, heq⟩

theorem mem_letterOrder_iff {cfg : KernelConfig} {disks : List HardDisk} (h : HasChains cfg disks)
    {q : Partition} : q ∈ letterOrder cfg disks ↔ IsPrimary cfg disks q ∨ IsLogical cfg disks q := by
  rw [mem_letterOrder, isPrimary_iff, isLogical_iff h, ofDisk, ofDisk, ofDisk]
  split
  · simp
  · exact mem_diskOrder

/-! ## Drive letters -/

/-- The partitions that have a unit, in order. -/
def Scan.parts (m : Scan) : List Partition := m.units.map Unit.part

/-- **The scan for partitions** ends, and leaves at most `NDEV` units; the first primary partition
of a disk comes before its logical ones, and those before the others.  If the extended chains are
acyclic, each usable partition has exactly one unit while units remain, and nothing else has. -/
theorem readAllPartitionTables_letters (cfg : KernelConfig) {disks : List HardDisk}
    (hdisks : disks.length ≤ maxHardDrive) {fuel : ℕ} (hfuel : 31 ≤ fuel) :
    ∃ s, readAllPartitionTables cfg fuel disks = some s ∧ s.nUnits ≤ ndev ∧
      (∀ k, s.parts.filter (·.drive = k) <+: ofDisk disks (fun drive disk =>
        firstOf cfg drive disk ++ logicals cfg drive disk ++ restOf cfg drive disk) k) ∧
      (HasChains cfg disks → (s.parts.map Partition.entry).Nodup ∧
        (∀ q, IsPrimary cfg disks q ∨ IsLogical cfg disks q → q ∈ s.parts ∨ s.nUnits = ndev) ∧
        ∀ q ∈ s.parts, IsPrimary cfg disks q ∨ IsLogical cfg disks q) := by
  obtain ⟨s, hrun, hfill⟩ := readAll_filled cfg hfuel disks
  rw [List.take_of_length_le hdisks] at hfill
  have hparts : s.parts = (letterOrder cfg disks).take (ndev - 2) := hfill
  refine ⟨s, hrun, hfill.nUnits_le, fun k => ?_, fun hchains => ⟨?_, fun q hq => ?_, fun q hq => ?_⟩⟩
  · have hpre := (List.take_prefix (ndev - 2) (letterOrder cfg disks)).filter (·.drive = k)
    rw [letterOrder_filter] at hpre
    rw [hparts]
    exact hpre
  · rw [hparts]
    exact (letterOrder_nodup cfg disks).sublist ((List.take_sublist _ _).map _)
  · rw [← mem_letterOrder_iff hchains] at hq
    by_cases hlen : (letterOrder cfg disks).length ≤ ndev - 2
    · rw [hparts, List.take_of_length_le hlen]
      exact Or.inl hq
    · have hcount := congrArg List.length hparts
      rw [Scan.parts, List.length_map, List.length_take, Nat.min_eq_left (by omega)] at hcount
      exact Or.inr (by rw [Scan.nUnits, hcount]; rfl)
  · rw [hparts] at hq
    exact (mem_letterOrder_iff hchains).mp (List.mem_of_mem_take hq)

/-- A sector with a partition table. -/
def tableSector (bytes : List UInt8) : Sector := fun i =>
  if i = 0x1fe then 0x55
  else if i = 0x1ff then 0xaa
  else if 0x1be ≤ i then bytes.getD (i - 0x1be) 0
  else 0

/-- A FAT12 partition, an active FAT16 partition, and an extended one at sector 500. -/
def smallTable : Sector :=
  tableSector [0, 0, 0, 0, 1, 0, 0, 0, 63, 0, 0, 0, 100, 0, 0, 0,
    0x80, 0, 0, 0, 6, 0, 0, 0, 200, 0, 0, 0, 100, 0, 0, 0,
    0, 0, 0, 0, 5, 0, 0, 0, 0xf4, 1, 0, 0, 100, 0, 0, 0]

/-- A FAT12 partition in the extended one. -/
def smallLogical : Sector := tableSector [0, 0, 0, 0, 1, 0, 0, 0, 1, 0, 0, 0, 50, 0, 0, 0]

/-- A disk of three partitions, with 16 heads and 63 sectors per track. -/
def smallDisk : HardDisk where
  extensions := none
  geometry := some (0x0f00, 63)
  read address := if address = 0 then some smallTable else if address = 500 then some smallLogical
    else none

def dosConfig : KernelConfig where
  forceLBA := false
  globalEnableLBAsupport := true
  dlaSortByDriveNo := false
  bootdrv := 0x80

theorem smallDisk_hasChains : HasChains dosConfig [smallDisk] := by
  intro k disk p table hk hp ht
  cases k with
  | succ k => cases hk
  | zero =>
    cases hk
    cases hp
    obtain rfl : table = (tableAt ⟨0x80, 0, 16, 63⟩ smallDisk 0).getD [] := by
      rw [show tableAt ⟨0x80, 0, 16, 63⟩ smallDisk 0 = some table from ht]
      rfl
    refine ⟨[(500, (tableAt ⟨0x80, 0, 16, 63⟩ smallDisk 500).getD [])], ?_, by decide⟩
    exact .next (show nextLink _ _ = some (500, 500) by decide +kernel) (by decide +kernel)
      (.last (by decide +kernel))

/-- Unit 2 is `C`: the active partition has it, the logical one `D`, and the other primary one `E`. -/
theorem readAllPartitionTables_letters_small :
    ∃ s, readAllPartitionTables dosConfig 31 [smallDisk] = some s ∧ s.nUnits ≤ ndev ∧
      (∀ k, s.parts.filter (·.drive = k) <+: ofDisk [smallDisk] (fun drive disk =>
        firstOf dosConfig drive disk ++ logicals dosConfig drive disk ++
          restOf dosConfig drive disk) k) ∧
      (s.parts.map Partition.entry).Nodup ∧
      (∀ q, IsPrimary dosConfig [smallDisk] q ∨ IsLogical dosConfig [smallDisk] q →
        q ∈ s.parts ∨ s.nUnits = ndev) ∧
      (∀ q ∈ s.parts, IsPrimary dosConfig [smallDisk] q ∨ IsLogical dosConfig [smallDisk] q) ∧
      (s.parts.map Partition.entry).zipIdx 2 = [((0, 0, 1), 2), ((0, 1, 0), 3), ((0, 0, 0), 4)] := by
  obtain ⟨s, hrun, hcount, horder, hunits⟩ := readAllPartitionTables_letters dosConfig
    (show [smallDisk].length ≤ maxHardDrive by decide) (Nat.le_refl 31)
  have hentries : (readAllPartitionTables dosConfig 31 [smallDisk]).map
      (fun s => (s.parts.map Partition.entry).zipIdx 2) =
        some [((0, 0, 1), 2), ((0, 1, 0), 3), ((0, 0, 0), 4)] := by
    decide +kernel
  rw [hrun] at hentries
  obtain ⟨hnodup, hall, honly⟩ := hunits smallDisk_hasChains
  exact ⟨s, hrun, hcount, horder, hnodup, hall, honly, Option.some.inj hentries⟩

end Boot
end BurdahDos
