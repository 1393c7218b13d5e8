import BurdahDos.Boot.Defs
import Mathlib

/-!
# `SYS`

`put_boot` of `sys/sys.c` puts a new boot sector on a drive: code from a template, which is made of
`boot/*.asm`, and the BPB of the old boot sector.  Any check that fails ends the program.

`put_boot_iff` says when it writes to reserved sectors only, and `fsType_iff` when the type of FAT
that it takes the volume for is the one that the kernel does.
-/

set_option autoImplicit false

namespace BurdahDos
namespace Boot

open Fat

/-! ## The type of FAT -/

/-- `fs` -/
inductive FsType where
  | fat12
  | fat16
  | fat32
deriving DecidableEq

/-- `SEC_SIZE` -/
def secSize : ℕ := 512

/-- `bsBytesPerSec` -/
def bsBytesPerSec (s : Sector) : ℕ := getword s 0x0b
/-- `bsSecPerClust` -/
def bsSecPerClust (s : Sector) : ℕ := getbyte s 0x0d
/-- `bsResSectors` -/
def bsResSectors (s : Sector) : ℕ := getword s 0x0e
/-- `bsFATs` -/
def bsFATs (s : Sector) : ℕ := getbyte s 0x10
/-- `bsRootDirEnts` -/
def bsRootDirEnts (s : Sector) : ℕ := getword s 0x11
/-- `bsSectors` -/
def bsSectors (s : Sector) : ℕ := getword s 0x13
/-- `bsFATsecs` -/
def bsFATsecs (s : Sector) : ℕ := getword s 0x16
/-- `bsHiddenSecs` -/
def bsHiddenSecs (s : Sector) : ℕ := getlong s 0x1c
/-- `bsHugeSectors` -/
def bsHugeSectors (s : Sector) : ℕ := getlong s 0x20
/-- `bsBigFatSize` -/
def bsBigFatSize (s : Sector) : ℕ := getlong s 0x24
/-- `bsBackupBoot` -/
def bsBackupBoot (s : Sector) : ℕ := getword s 0x32

/-- The number of clusters that `put_boot` counts. -/
def countClusters (s : Sector) : ℕ :=
  let rootDirSectors :=
    (bsRootDirEnts s * direntSize + bsBytesPerSec s - 1) % 2 ^ 16 / bsBytesPerSec s
  let fatSize := if bsFATsecs s ≠ 0 then bsFATsecs s else bsBigFatSize s
  let totalSectors := if bsSectors s ≠ 0 then bsSectors s else bsHugeSectors s
  let used := bsResSectors s + bsFATs s * fatSize + rootDirSectors
  let dataSectors := (totalSectors + 2 ^ 32 - used % 2 ^ 32) % 2 ^ 32
  dataSectors / ((bsSecPerClust s + 2 ^ 8 - 1) % 2 ^ 8 + 1)

/-- `put_boot`, the type detection; `none` if it exits. -/
def detectType (s : Sector) : Option FsType :=
  if bsBytesPerSec s ≠ secSize then none
  else
    let clusters := countClusters s
    if bsFATsecs s = 0 then if 0xFFFFFF5 ≤ clusters then none else some .fat32
    else if clusters < fatMagic then some .fat12
    else if clusters < fatMagic16 then some .fat16
    else none

/-! ## The new boot sector -/

/-- `force` -/
inductive Force where
  | auto
  | lba
  | chs
deriving DecidableEq

/-- `SYSOptions`, as far as `put_boot` goes by them for the drive. -/
structure SysOptions where
  dstDrive : ℕ
  /-- Whether a FreeDOS boot sector is asked for. -/
  stdbs : Bool
  loadaddr : ℕ
  kernel : List UInt8
  defBootDrive : UInt8
  ignoreBIOS : Bool
  skipBakBSCopy : Bool
  writeBS : Bool
  force : Force

/-- What else `put_boot` goes by. -/
structure SysEnv where
  fat12com : Sector
  fat16com : Sector
  fat32lba : Sector
  fat32chs : Sector
  /-- `newboot` when nothing is copied to it: there are no OEM compatible boot sectors. -/
  newboot : Sector
  haveLBA : Bool
  /-- `generic_block_ioctl`: the default parameters of the drive, unless it fails. -/
  blockIoctl : ℕ → Option Sector
  /-- Whether the write to sector 0 fails. -/
  writeFails : Bool

/-- Put a byte at an offset. -/
def poke (s : Sector) (i : ℕ) (b : UInt8) : Sector := fun j => if j = i then b else s j

/-- Put a word at an offset. -/
def pokeWord (s : Sector) (i w : ℕ) : Sector :=
  poke (poke s i (.ofNat w)) (i + 1) (.ofNat (w / 2 ^ 8))

/-- `memcpy(&newboot[off], &oldboot[off], n)` -/
def copyBytes (newboot oldboot : Sector) (off n : ℕ) : Sector := fun i =>
  if off ≤ i ∧ i < off + n then oldboot i else newboot i

/-- `correct_bpb`: sectors per track, heads and hidden sectors, which begin at offset 0x18, are
those of the drive.  Its BPB is at offset 7 of the default parameters, not 11. -/
def correctBpb (defaultBpb oldboot : Sector) : Sector :=
  let d : Sector := fun i => defaultBpb (i + 7 - 11)
  if bsHiddenSecs d = 0 then oldboot else copyBytes oldboot d 0x18 8

/-- `default_bpb`, as far as it is asked for. -/
def correctOld (e : SysEnv) (opts : SysOptions) (fs : FsType) (oldboot : Sector) : Sector :=
  if 2 ≤ opts.dstDrive then
    match e.blockIoctl (if fs = .fat32 then 0x4860 else 0x860) with
    | some defaultBpb => correctBpb defaultBpb oldboot
    | none => oldboot
  else oldboot

/-- The template, with the code for LBA switched on or off. -/
def template (e : SysEnv) (opts : SysOptions) (fs : FsType) : Option Sector :=
  if fs = .fat32 then
    if !opts.stdbs then none
    else if opts.force = .lba ∨ opts.force = .auto ∧ e.haveLBA = true then some e.fat32lba
    else some e.fat32chs
  else if opts.stdbs then
    let newboot := if fs = .fat16 then e.fat16com else e.fat12com
    let offset := if fs = .fat16 then 0x178 else 0x17B
    -- test dl,dl
    if newboot offset = 0x84 ∧ newboot (offset + 1) = 0xD2 then
      if opts.force = .lba then some (poke (poke newboot (offset + 2) 0x90) (offset + 3) 0x90)
      else if opts.force = .chs then some (poke newboot offset 0x30)
      else some newboot
    else none
  else some e.newboot

/-- `SBOFFSET` -/
def sbOffset : ℕ := 11
/-- `SBSIZE` -/
def sbSize : ℕ := 62 - sbOffset
/-- `SBSIZE32` -/
def sbSize32 : ℕ := 90 - sbOffset

/-- `FRDOS5.1` -/
def oemName : List UInt8 := [0x46, 0x52, 0x44, 0x4f, 0x53, 0x35, 0x2e, 0x31]

/-- Put bytes at an offset. -/
def pokeBytes (s : Sector) (off : ℕ) (bytes : List UInt8) : Sector := fun i =>
  if off ≤ i ∧ i < off + bytes.length then bytes.getD (i - off) 0 else s i

/-- The number of the backup boot sector is made valid. -/
def forceBackup (s : Sector) : Sector :=
  if bsBackupBoot s < 1 ∨ bsBackupBoot s > bsResSectors s then pokeWord s 0x32 6 else s

/-- What the kernel is loaded to, and the offset of the code that saves the drive number. -/
def patchLoad (opts : SysOptions) (fs : FsType) (s : Sector) : Option (Sector × ℕ) :=
  if fs = .fat32 then
    if getword s 0x78 ≠ 0x60 ∧ getword s 0x78 ≠ 0x70 then none
    else some (pokeWord s 0x78 opts.loadaddr, 0x82)
  else if opts.stdbs then
    if getword s 0x5C ≠ 0x60 ∧ getword s 0x5C ≠ 0x70 then none
    else some (pokeWord s 0x5C opts.loadaddr, 0x66)
  else
    let off := if fs = .fat12 then 0x11A else 0x118
    if getword s off ≠ 0 ∧ getword s off ≠ 0x200 then none
    else some (pokeWord s off opts.loadaddr, 0x4F)

/-- The code that saves the drive number is removed if the BIOS is ignored. -/
def patchDrive (opts : SysOptions) (s : Sector) (bsBiosMovOff : ℕ) : Option Sector :=
  if s bsBiosMovOff = 0x88 ∧ s (bsBiosMovOff + 1) = 0x56 then
    some (if opts.ignoreBIOS then pokeBytes s bsBiosMovOff [0x90, 0x90, 0x90] else s)
  else none

/-- `toupper` -/
def toupper (c : UInt8) : UInt8 := if 0x61 ≤ c ∧ c ≤ 0x7a then c - 0x20 else c

/-- `.` -/
def dot : UInt8 := 0x2e

/-- The kernel's name in FCB format. -/
def kernelName (kernel : List UInt8) : List UInt8 :=
  let name := kernel.takeWhile (· ≠ dot)
  let ext := (kernel.dropWhile (· ≠ dot)).drop 1
  let pad (n : ℕ) (l : List UInt8) : List UInt8 := (l.take n ++ List.replicate n 0x20).take n
  pad 8 (name.map toupper) ++ pad 3 (ext.map toupper)

/-- `put_boot` up to its writes: the type of FAT and the new boot sector, unless it exits. -/
def newBoot (e : SysEnv) (opts : SysOptions) (oldboot : Sector) : Option (FsType × Sector) := do
  let fs ← detectType oldboot
  let oldboot := correctOld e opts fs oldboot
  let newboot ← template e opts fs
  let newboot := copyBytes newboot oldboot sbOffset (if fs = .fat32 then sbSize32 else sbSize)
  let newboot := pokeBytes newboot 3 oemName
  let newboot :=
    if fs = .fat32 then poke (forceBackup newboot) 0x40 opts.defBootDrive
    else poke newboot 0x24 opts.defBootDrive
  let (newboot, bsBiosMovOff) ← patchLoad opts fs newboot
  let newboot ← patchDrive opts newboot bsBiosMovOff
  return (fs, pokeBytes newboot 0x1f1 (kernelName opts.kernel))

/-- `put_boot`: what it writes to the drive, and to which sectors. -/
def putBoot (e : SysEnv) (opts : SysOptions) (oldboot : Sector) : List (ℕ × Sector) :=
  match newBoot e opts oldboot with
  | none => []
  | some (fs, newboot) =>
    if !opts.writeBS then []
    else
      (0, newboot) ::
        if e.writeFails then []
        else if fs = .fat32 ∧ !opts.skipBakBSCopy then [(bsBackupBoot newboot, newboot)] else []

/-! ## What is written -/

/-- The end of the BPB. -/
def bpbEnd (fs : FsType) : ℕ := if fs = .fat32 then 0x40 else 0x24

/-- The backup boot sector is not one of the reserved sectors behind the first, as far as `put_boot`
looks. -/
def BackupForced (s : Sector) : Prop := bsBackupBoot s < 1 ∨ bsBackupBoot s > bsResSectors s

instance (s : Sector) : Decidable (BackupForced s) := inferInstanceAs (Decidable (_ ∨ _))

theorem forceBackup_eq (s : Sector) :
    forceBackup s = if BackupForced s then pokeWord s 0x32 6 else s := rfl

/-- A new boot sector has the BPB of the old one, but for two corrections: the geometry may be that
of the drive, and an invalid number of the backup boot sector becomes 6. -/
structure KeepsBpb (e : SysEnv) (opts : SysOptions) (oldboot newboot : Sector) (fs : FsType) :
    Prop where
  geometry : ∀ i, 0x18 ≤ i → i < 0x20 → newboot i = correctOld e opts fs oldboot i
  backup : fs = .fat32 → BackupForced oldboot → bsBackupBoot newboot = 6
  rest : ∀ i, sbOffset ≤ i → i < bpbEnd fs → ¬ (0x18 ≤ i ∧ i < 0x20) →
    ¬ (fs = .fat32 ∧ BackupForced oldboot ∧ (i = 0x32 ∨ i = 0x33)) → newboot i = oldboot i

theorem poke_ne {s : Sector} {i j : ℕ} {b : UInt8} (h : j ≠ i) : poke s i b j = s j := if_neg h

theorem pokeWord_ne {s : Sector} {i j w : ℕ} (h : j ≠ i) (h' : j ≠ i + 1) :
    pokeWord s i w j = s j := by
  rw [pokeWord, poke_ne h', poke_ne h]

theorem getword_pokeWord {s : Sector} {i w : ℕ} (hw : w < 2 ^ 16) :
    getword (pokeWord s i w) i = w := by
  simp only [getword, getbyte, pokeWord, poke, if_true, if_neg (show i ≠ i + 1 by omega),
    UInt8.toNat_ofNat']
  omega

theorem pokeBytes_out {s : Sector} {off i : ℕ} {bytes : List UInt8}
    (h : i < off ∨ off + bytes.length ≤ i) : pokeBytes s off bytes i = s i :=
  if_neg (by omega)

theorem copyBytes_in {newboot oldboot : Sector} {off n i : ℕ} (h : off ≤ i) (h' : i < off + n) :
    copyBytes newboot oldboot off n i = oldboot i :=
  if_pos ⟨h, h'⟩

theorem copyBytes_out {newboot oldboot : Sector} {off n i : ℕ} (h : i < off ∨ off + n ≤ i) :
    copyBytes newboot oldboot off n i = newboot i :=
  if_neg (by omega)

/-- The geometry is corrected, and nothing else. -/
theorem correctOld_eq (e : SysEnv) (opts : SysOptions) (fs : FsType) (oldboot : Sector) {i : ℕ}
    (h : ¬ (0x18 ≤ i ∧ i < 0x20)) : correctOld e opts fs oldboot i = oldboot i := by
  rw [correctOld]
  generalize e.blockIoctl (if fs = .fat32 then 0x4860 else 0x860) = d
  split
  · cases d with
    | none => rfl
    | some d =>
      dsimp only [correctBpb]
      split
      · rfl
      · exact copyBytes_out (by omega)
  · rfl

theorem patchLoad_spec {opts : SysOptions} {fs : FsType} {s s' : Sector} {off : ℕ}
    (h : patchLoad opts fs s = some (s', off)) :
    bpbEnd fs ≤ off ∧ ∀ i < bpbEnd fs, s' i = s i := by
  have hend : bpbEnd fs ≤ 0x40 ∧ (fs ≠ .fat32 → bpbEnd fs = 0x24) := by
    cases fs <;> decide
  rw [patchLoad] at h
  split at h
  · split at h
    · exact (nomatch h)
    · cases h
      exact ⟨by omega, fun i hi => pokeWord_ne (by omega) (by omega)⟩
  · rename_i hfs
    have hend := hend.2 hfs
    split at h
    · split at h
      · exact (nomatch h)
      · cases h
        exact ⟨by omega, fun i hi => pokeWord_ne (by omega) (by omega)⟩
    · dsimp only at h
      have hoff : 0x118 ≤ if fs = .fat12 then 0x11A else 0x118 := by split <;> decide
      generalize (if fs = .fat12 then 0x11A else 0x118) = o at h hoff
      split at h
      · exact (nomatch h)
      · cases h
        exact ⟨by omega, fun i hi => pokeWord_ne (by omega) (by omega)⟩

theorem patchDrive_spec {opts : SysOptions} {s s' : Sector} {off : ℕ}
    (h : patchDrive opts s off = some s') : ∀ i < off, s' i = s i := by
  intro i hi
  rw [patchDrive] at h
  split at h
  · obtain rfl := Option.some.inj h
    split
    · exact pokeBytes_out (Or.inl hi)
    · rfl
  · exact (nomatch h)

/-- **The new boot sector** has the BPB of the old one. -/
theorem newBoot_spec {e : SysEnv} {opts : SysOptions} {oldboot newboot : Sector} {fs : FsType}
    (h : newBoot e opts oldboot = some (fs, newboot)) :
    detectType oldboot = some fs ∧ KeepsBpb e opts oldboot newboot fs ∧
      (fs = .fat32 →
        bsBackupBoot newboot = if BackupForced oldboot then 6 else bsBackupBoot oldboot) := by
  simp only [newBoot, Option.bind_eq_bind, Option.bind_eq_some_iff, Option.pure_def,
    Option.some.injEq, Prod.mk.injEq] at h
  obtain ⟨fs', hfs, t, -, ⟨patched, off⟩, hload, s, hdrive, rfl, rfl⟩ := h
  obtain ⟨hoff, hload⟩ := patchLoad_spec hload
  have hdrive := patchDrive_spec hdrive
  have hend : bpbEnd fs' ≤ 0x40 ∧ (fs' ≠ .fat32 → bpbEnd fs' = 0x24) ∧
      (fs' = .fat32 → bpbEnd fs' = 0x40) := by
    cases fs' <;> decide
  generalize hold : correctOld e opts fs' oldboot = old at hload
  generalize hcopied : pokeBytes (copyBytes t old sbOffset
    (if fs' = .fat32 then sbSize32 else sbSize)) 3 oemName = c at hload
  -- the BPB once it is copied
  have hc : ∀ i, sbOffset ≤ i → i < bpbEnd fs' → c i = old i := by
    intro i h1 h2
    rw [← hcopied, pokeBytes_out (Or.inr h1), copyBytes_in h1]
    rw [bpbEnd] at h2
    split at h2
    · rename_i h32
      rw [if_pos h32]
      exact Nat.lt_of_lt_of_le h2 (by decide)
    · rename_i h32
      rw [if_neg h32]
      exact Nat.lt_of_lt_of_le h2 (by decide)
  have hname : ∀ i < bpbEnd fs', pokeBytes s 0x1f1 (kernelName opts.kernel) i = patched i := by
    intro i hi
    rw [pokeBytes_out (by omega), hdrive i (by omega)]
  have holdeq : ∀ i, ¬ (0x18 ≤ i ∧ i < 0x20) → old i = oldboot i := fun i hi =>
    hold ▸ correctOld_eq e opts fs' oldboot hi
  have hforced : fs' = .fat32 → (bsBackupBoot c = bsBackupBoot oldboot ∧
      (BackupForced c ↔ BackupForced oldboot)) := by
    intro h32
    have hend := hend.2.2 h32
    have hbyte : ∀ i, sbOffset ≤ i → i < 0x40 → ¬ (0x18 ≤ i ∧ i < 0x20) → c i = oldboot i :=
      fun i h1 h2 h3 => (hc i h1 (by omega)).trans (holdeq i h3)
    have hword : ∀ i, sbOffset ≤ i → i < 0x3f → ¬ (0x17 ≤ i ∧ i < 0x20) →
        getword c i = getword oldboot i := by
      intro i h1 h2 h3
      rw [getword, getword, getbyte, getbyte, getbyte, getbyte, hbyte i h1 (by omega) (by omega),
        hbyte (i + 1) (by omega) (by omega) (by omega)]
    have hb : bsBackupBoot c = bsBackupBoot oldboot := hword 0x32 (by decide) (by decide) (by decide)
    have hr : bsResSectors c = bsResSectors oldboot := hword 0x0e (by decide) (by decide) (by decide)
    exact ⟨hb, by rw [BackupForced, BackupForced, hb, hr]⟩
  -- the fields that are forced
  have hnew : ∀ i < bpbEnd fs', pokeBytes s 0x1f1 (kernelName opts.kernel) i =
      if fs' = .fat32 ∧ BackupForced oldboot ∧ (i = 0x32 ∨ i = 0x33) then
        pokeWord c 0x32 6 i else c i := by
    intro i hi
    rw [hname i hi, hload i hi]
    by_cases h32 : fs' = .fat32
    · have hend := hend.2.2 h32
      obtain ⟨-, hiff⟩ := hforced h32
      rw [if_pos h32, poke_ne (by omega), forceBackup_eq]
      by_cases hb : BackupForced oldboot
      · rw [if_pos (hiff.mpr hb)]
        by_cases hi' : i = 0x32 ∨ i = 0x33
        · rw [if_pos ⟨h32, hb, hi'⟩]
        · rw [if_neg (fun h => hi' h.2.2), pokeWord_ne (by omega) (by omega)]
      · rw [if_neg (mt hiff.mp hb), if_neg (fun h => hb h.2.1)]
    · have hend := hend.2.1 h32
      rw [if_neg h32, poke_ne (by omega), if_neg (fun h => h32 h.1)]
  have hback : fs' = .fat32 → bsBackupBoot (pokeBytes s 0x1f1 (kernelName opts.kernel)) =
      if BackupForced oldboot then 6 else bsBackupBoot oldboot := by
    intro h32
    have hend := hend.2.2 h32
    rw [bsBackupBoot, getword, getbyte, getbyte, hnew 0x32 (by omega), hnew 0x33 (by omega)]
    split
    · rename_i hb
      rw [if_pos ⟨h32, hb.2.1, Or.inr rfl⟩, if_pos hb.2.1]
      exact getword_pokeWord (by decide)
    · rename_i hb
      have hb' : ¬ BackupForced oldboot := fun h => hb ⟨h32, h, Or.inl rfl⟩
      rw [if_neg (fun h => hb' h.2.1), if_neg hb', ← (hforced h32).1]
      rfl
  have hlow : 0x24 ≤ bpbEnd fs' := by cases fs' <;> decide
  refine ⟨hfs, ⟨fun i h1 h2 => ?_, fun h32 hb => ?_, fun i h1 h2 h3 h4 => ?_⟩, hback⟩
  · rw [hnew i (by omega), if_neg (by omega), hc i (by rw [sbOffset]; omega) (by omega), hold]
  · rw [hback h32, if_pos hb]
  · rw [hnew i h2, if_neg h4, hc i h1 h2, holdeq i h3]

theorem detectType_fat32 {s : Sector} {fs : FsType} (h : detectType s = some fs) :
    fs = .fat32 ↔ bsFATsecs s = 0 := by
  rw [detectType] at h
  split at h
  · exact (nomatch h)
  · dsimp only at h
    split at h
    · rename_i h0
      split at h
      · exact (nomatch h)
      · obtain rfl := Option.some.inj h
        exact iff_of_true rfl h0
    · rename_i h0
      split at h
      · obtain rfl := Option.some.inj h
        exact iff_of_false (by decide) h0
      · split at h
        · obtain rfl := Option.some.inj h
          exact iff_of_false (by decide) h0
        · exact (nomatch h)

/-- **When `SYS` writes to reserved sectors only**, once it gets to its writes.  There has to be a
reserved sector, and if the backup boot sector of a FAT32 volume is written its number has to be
below the number of reserved sectors, which the check for it also lets pass, or invalid while 6 is
below that number. -/
theorem put_boot_iff (e : SysEnv) (opts : SysOptions) (oldboot : Sector)
    (hw : putBoot e opts oldboot ≠ []) :
    (∀ w ∈ putBoot e opts oldboot, w.1 < bsResSectors oldboot ∧
        ∃ fs, detectType oldboot = some fs ∧ KeepsBpb e opts oldboot w.2 fs) ↔
      0 < bsResSectors oldboot ∧
        (bsFATsecs oldboot = 0 → opts.skipBakBSCopy = false → e.writeFails = false →
          bsBackupBoot oldboot ≠ bsResSectors oldboot ∧
            (BackupForced oldboot → 6 < bsResSectors oldboot)) := by
  rw [putBoot] at hw ⊢
  split at hw
  · exact absurd rfl hw
  · rename_i fs newboot hnew
    obtain ⟨hfs, hkeeps, hback⟩ := newBoot_spec hnew
    have hkept : ∃ fs, detectType oldboot = some fs ∧ KeepsBpb e opts oldboot newboot fs :=
      ⟨fs, hfs, hkeeps⟩
    have h32 := detectType_fat32 hfs
    split at hw
    · exact absurd rfl hw
    · rename_i hwrite
      rw [if_neg hwrite, List.forall_mem_cons, and_iff_left hkept]
      refine and_congr_right fun hres => ?_
      by_cases hfail : e.writeFails = true
      · rw [if_pos hfail]
        refine iff_of_true (fun w hw => absurd hw List.not_mem_nil) fun _ _ h => ?_
        exact absurd (hfail.symm.trans h) (Ne.symm Bool.false_ne_true)
      · rw [if_neg hfail]
        by_cases hcopy : fs = .fat32 ∧ (!opts.skipBakBSCopy) = true
        · rw [if_pos hcopy, List.forall_mem_singleton, and_iff_left hkept, hback hcopy.1]
          have hskip : opts.skipBakBSCopy = false := by simpa using hcopy.2
          have hvalid : ¬ BackupForced oldboot ↔
              1 ≤ bsBackupBoot oldboot ∧ bsBackupBoot oldboot ≤ bsResSectors oldboot := by
            rw [BackupForced]
            omega
          split
          · rename_i hb
            refine ⟨fun h _ _ _ => ⟨?_, fun _ => h⟩, fun h =>
              (h (h32.mp hcopy.1) hskip (by simpa using hfail)).2 hb⟩
            rw [BackupForced] at hb
            omega
          · rename_i hb
            have hv := hvalid.mp hb
            refine ⟨fun h _ _ _ => ⟨by dsimp only at h; omega, fun h' => absurd h' hb⟩, fun h => ?_⟩
            have := (h (h32.mp hcopy.1) hskip (by simpa using hfail)).1
            dsimp only
            omega
        · rw [if_neg hcopy]
          refine iff_of_true (fun w hw => absurd hw List.not_mem_nil) fun h0 hskip _ => ?_
          exact absurd ⟨h32.mpr h0, by rw [hskip]; rfl⟩ hcopy

/-! ## A backup in the FAT -/

/-- The boot sector of a FAT32 volume with 32 reserved sectors, and sector 32 for its backup. -/
def fat32Boot : Sector :=
  pokeWord (pokeBytes (fun _ => 0) btBpb [0, 2, 1, 32, 0, 2, 0, 0, 0, 0, 0xf8, 0, 0, 63, 0, 255, 0,
    0, 0, 0, 0, 0, 0, 0x20, 0, 0, 8]) 0x32 32

/-- A boot sector with what `put_boot` looks for in a template. -/
def codeTemplate : Sector :=
  pokeWord (pokeWord (pokeWord (pokeWord (pokeWord (fun _ => 0) 0x5C 0x60) 0x66 0x5688) 0x78 0x60)
    0x82 0x5688) 0x178 0xD284

/-- A run of `SYS` in which all goes well. -/
def smallEnv : SysEnv where
  fat12com := codeTemplate
  fat16com := codeTemplate
  fat32lba := codeTemplate
  fat32chs := codeTemplate
  newboot := fun _ => 0
  haveLBA := true
  blockIoctl := fun _ => none
  writeFails := false

/-- `SYS C:` -/
def smallOptions : SysOptions where
  dstDrive := 2
  stdbs := true
  loadaddr := 0x60
  kernel := [0x6b, 0x2e, 0x73, 0x79, 0x73]
  defBootDrive := 0x80
  ignoreBIOS := false
  skipBakBSCopy := false
  writeBS := true
  force := .auto

theorem fat32Boot_writes :
    (putBoot smallEnv smallOptions fat32Boot).map Prod.fst = [0, 32] := by
  decide +kernel

theorem put_boot_iff_fat32Boot :
    (∀ w ∈ putBoot smallEnv smallOptions fat32Boot, w.1 < bsResSectors fat32Boot ∧
        ∃ fs, detectType fat32Boot = some fs ∧ KeepsBpb smallEnv smallOptions fat32Boot w.2 fs) ↔
      0 < bsResSectors fat32Boot ∧
        (bsFATsecs fat32Boot = 0 → smallOptions.skipBakBSCopy = false →
          smallEnv.writeFails = false → bsBackupBoot fat32Boot ≠ bsResSectors fat32Boot ∧
            (BackupForced fat32Boot → 6 < bsResSectors fat32Boot)) :=
  put_boot_iff smallEnv smallOptions fat32Boot
    (fun h => absurd (h ▸ fat32Boot_writes) (by decide))

/-- **The first sector of the FAT is overwritten** with the boot sector. -/
theorem fat32Boot_overwritten : ¬ ∀ w ∈ putBoot smallEnv smallOptions fat32Boot,
    w.1 < bsResSectors fat32Boot ∧ ∃ fs, detectType fat32Boot = some fs ∧
      KeepsBpb smallEnv smallOptions fat32Boot w.2 fs := by
  intro h
  have hmem : 32 ∈ (putBoot smallEnv smallOptions fat32Boot).map Prod.fst := by
    rw [fat32Boot_writes]
    decide
  obtain ⟨w, hw, hfirst⟩ := List.mem_map.mp hmem
  have hlt := (h w hw).1
  rw [hfirst] at hlt
  exact absurd hlt (by decide +kernel)

end Boot
end BurdahDos
