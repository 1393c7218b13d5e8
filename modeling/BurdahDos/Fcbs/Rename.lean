import BurdahDos.Dir.Entry
import BurdahDos.Fcbs.Name
import BurdahDos.Fcbs.Search
import BurdahDos.Path.Relative
import Mathlib

/-!
# Renaming with FCBs

`FcbRename`, the function 17h: a new name with wildcards for all files that a name with wildcards
stands for.  The name that is found comes as text.  The function parses it to get its 11 bytes back,
lays the new name over them, and hands the result to `truename` as text again.

The parser is the one for command lines, and stops at a blank.  So a file whose name has a blank
inside loses what is behind it, its extension included, if the new name says nothing else there.

`fcbRename_iff` tells exactly which files get the name that they should.  It is about what the loop
records of its turns, and `turn_name` says that the new name of a record is on the volume.
-/

set_option autoImplicit false

namespace BurdahDos
namespace Fcbs

open File (Name Dirent FNode deAccess)
open Dir (Path Dta World blank dot convertName83ToNameSZ convertNameSZToName83)
open BurdahDos.Path (Kernel Plain colon isDeviceBit mode0 DeviceOnly EndsIn backslash)

/-! ## The code -/

/-- `DE_DEVICE` -/
def deDevice : ℤ := -17

/-- `rfcb`, extended or not.  The new name lies over fields of the FCB that are not used here. -/
structure Rfcb where
  xfcb : Xfcb
  /-- `renNewName` and `renNewExtent`, which follow each other. -/
  newName : Name

/-- What `FcbRename` finds around it, but for `truename` and the directories. -/
structure Around where
  /-- The byte in front of the path buffers. -/
  front : UInt8
  /-- `LocalFcb`, before anything is put into it. -/
  localFcb : Fcb
  /-- `fnode[1]` -/
  fnode1 : FNode
  /-- Whether `current_ldt` is that of a network drive or of none, after `truename` of a path. -/
  network : Path → Bool
  /-- The redirector's answer to `REM_RENAME`. -/
  remRename : Path → Path → UInt8 → ℤ
  /-- `IsShareInstalled(TRUE) && share_is_file_open` -/
  shareOpen : Path → Bool

/-- `cdsCurrentPath` of a drive. -/
def currentPath (k : Kernel) (drive : UInt8) : Path :=
  ((k.cds[drive.toNat]?).map fun cds => cds.currentPath).getD []

/-- `DosRenameTrue` -/
def dosRenameTrue (a : Around) (k : Kernel) (w : World) (path1 path2 : Path) (attrib : UInt8) :
    Option ℤ × World :=
  if path1.headD 0 ≠ path2.headD 0 then (some deDevice, w)
  else if a.network path2 then (some (a.remRename path1 path2 attrib), w)
  else if a.shareOpen path1 then (some deAccess, w)
  else
    let drive := Dir.driveNr path1
    let r := Dir.dosRename (w.vol drive) w.fnode a.fnode1 (currentPath k drive) path1 path2 attrib
    (r.1, { w with vol := Function.update w.vol drive r.2 })

/-- `dos_rename` once it has searched for both names, if that is what it needs to go on: the two
fnodes and the volume. -/
def renameFound (v : Fat.Volume) (fnode0 fnode1 : FNode) (cdsCurrentPath path1 path2 : Path)
    (attrib : UInt8) : Option (FNode × FNode × Fat.Volume) :=
  let r1 := Dir.findFname v fnode0 path1 attrib
  let r2 := Dir.findFname r1.2.2 fnode1 path2 attrib
  if path1 ≠ cdsCurrentPath ∧ r1.1 = File.success ∧ r2.1 = Dir.deFileNotFnd then
    some (r1.2.1, r2.2.1, r2.2.2)
  else none

/-- The entry that `DosRenameTrue` renames on a local drive: its name, and its new name. -/
def renames (a : Around) (k : Kernel) (w : World) (path1 path2 : Path) (attrib : UInt8) :
    Option (Name × Name) :=
  let drive := Dir.driveNr path1
  if (dosRenameTrue a k w path1 path2 attrib).1 = some File.success ∧ !a.network path2 then
    (renameFound (w.vol drive) w.fnode a.fnode1 (currentPath k drive) path1 path2 attrib).map
      fun f => (f.1.dir.name, f.2.1.dmNamePat)
  else none

/-- A record of what a turn of the loop has renamed. -/
structure Renamed where
  /-- The tables, as they are when the new name is qualified. -/
  kernel : Kernel
  /-- The name that the search has found. -/
  found : Name
  /-- The name of the entry that is renamed. -/
  old : Name
  new : Name

/-- What a turn of the loop leaves. -/
structure Turn where
  /-- Whether the loop goes on. -/
  again : Bool
  kernel : Kernel
  world : World
  renamed : Option Renamed

/-- `FcbRename`, a turn of its loop for the entry that was found, whose name as text is `dmName`.
Where `truename` goes astray the run ends. -/
def turn (a : Around) (attr : UInt8) (fcbDrive : ℕ) (buf : Name) (k : Kernel) (w : World)
    (found : Dirent) (dmName : Path) : Turn :=
  let localFcb := (fcbParseFname k 0 dmName a.localFcb).2.2
  let t1 := k.truename a.front (UInt8.ofNat (0x41 + fcbDrive - 1) :: colon :: dmName) mode0
  let k1 := { k with cds := t1.cds }
  if t1.astray ∨ t1.code < 0 ∨ t1.code.toNat &&& isDeviceBit ≠ 0 then ⟨false, k1, w, none⟩
  else
    let loc := fcbNameInit k.defaultDrive
      { localFcb with drive := fcbDrive, name := overlay buf localFcb.name }
    let t2 := k1.truename a.front loc.1 mode0
    let k2 := { k1 with cds := t2.cds }
    if t2.astray ∨ t2.code < 0 ∨
        t2.code.toNat &&& (Path.isNetworkBit ||| isDeviceBit) = isDeviceBit then
      ⟨false, k2, w, none⟩
    else
      let r := dosRenameTrue a k2 w t1.path t2.path attr
      ⟨r.1 = some File.success, k2, r.2, (renames a k2 w t1.path t2.path attr).map fun n =>
        ⟨k1, found.name, n.1, n.2⟩⟩

/-- `FcbRename`, its loop: what it returns in `AL`, unless the turns run out, and what it
renames. -/
def renameLoop (a : Around) (attr : UInt8) (fcbDrive : ℕ) (buf : Name) :
    ℕ → Kernel → World → Dta → Dirent → Option UInt8 × World × List Renamed
  | 0, _, w, _, _ => (none, w, [])
  | n + 1, k, w, dmatch, found =>
    let t := turn a attr fcbDrive buf k w found dmatch.fnd.name
    if !t.again then (some fcbError, t.world, t.renamed.toList)
    else
      let r := Dir.dosFindNext t.world dmatch
      match r.1 with
      | .error _ => (some fcbSuccess, r.2.2, t.renamed.toList)
      | .ok next =>
        let rest := renameLoop a attr fcbDrive buf n t.kernel r.2.2 r.2.1 next
        (rest.1, rest.2.1, t.renamed.toList ++ rest.2.2)

/-- `FcbRename`, for at most `n` turns of its loop. -/
def fcbRename (a : Around) (n : ℕ) (k : Kernel) (w : World) (lpXfcb : Rfcb) (dmatch : Dta) :
    Option UInt8 × World × List Renamed :=
  let name := fcbNameInit k.defaultDrive lpXfcb.xfcb.fcb
  let buf := pattern k.upFChar lpXfcb.newName
  if (k.isDevice name.1).isSome then (some fcbError, w, [])
  else
    let wAttr := lpXfcb.xfcb.setAttr Dir.dAll.toUInt16
    let r := Dir.dosFindFirst w wAttr name.1 dmatch
    match r.1 with
    | .error _ => (some fcbError, r.2.2, [])
    | .ok found => renameLoop a wAttr.toUInt8 name.2 buf n k r.2.2 r.2.1 found

/-! ## The name that a path leads to -/

/-- The name in FCB format that the last component of a path leaves, over the one that is there at
first.  `n` counts the characters. -/
def lastName : ℕ → Path → Name → Name
  | 0, _, name => name
  | _ + 1, [], name => name
  | n + 1, _ :: dirname, name =>
    if dirname = [] then name
    else
      let c := convertNameSZToName83 dirname
      if c.2 = [] then c.1 else lastName n c.2 c.1

theorem lastName_nil (n : ℕ) (name : Name) : lastName n [] name = name := by
  cases n <;> rfl

/-- The name that a walk along a path compares last. -/
theorem leads_lastName {v : Fat.Volume} {dirname : Path} {s s' : ℕ × Name}
    (h : Dir.Leads v true dirname s s') {n : ℕ} (hn : dirname.length ≤ n) :
    s'.2 = lastName n dirname s.2 := by
  induction h generalizing n with
  | nil s => rw [lastName_nil]
  | root c s =>
    obtain ⟨n, rfl⟩ := Nat.exists_eq_succ_of_ne_zero (Nat.ne_of_gt hn)
    rw [lastName, if_pos rfl]
  | last c dirname s hne _ hend =>
    obtain ⟨n, rfl⟩ := Nat.exists_eq_succ_of_ne_zero (Nat.ne_of_gt (Nat.zero_lt_of_lt hn))
    rw [lastName, if_neg hne]
    dsimp only
    rw [if_pos hend]
  | step c dirname s s' m e hne hlast _ _ _ ih =>
    obtain ⟨n, rfl⟩ := Nat.exists_eq_succ_of_ne_zero (Nat.ne_of_gt (Nat.zero_lt_of_lt hn))
    have hlen : (convertNameSZToName83 dirname).2.length ≤ dirname.length :=
      Dir.convertLoop_length 0 _ dirname
    rw [List.length_cons] at hn
    rw [lastName, if_neg hne]
    dsimp only
    rw [if_neg fun h => hlast ⟨rfl, h⟩]
    exact ih (by omega)

/-- `ConvertNameSZToName83` does not get past a backslash. -/
theorem convertLoop_backslash (i : ℕ) (name : Name) (q t : Path) :
    ∃ y, (Dir.convertLoop i name (q ++ backslash :: t)).2 = y ++ backslash :: t ∧
      y.length ≤ q.length := by
  induction q generalizing i name with
  | nil =>
    rw [List.nil_append, Dir.convertLoop]
    refine ⟨[], ?_, le_refl 0⟩
    split_ifs with h1 h2 h3
    · rfl
    · exact absurd h2 (by decide)
    · exact absurd rfl h3
    · rfl
  | cons c q ih =>
    rw [List.cons_append, Dir.convertLoop]
    split_ifs
    · exact ⟨c :: q, rfl, le_refl _⟩
    · obtain ⟨y, hy, hlen⟩ := ih 8 name
      exact ⟨y, hy, Nat.le_succ_of_le hlen⟩
    · obtain ⟨y, hy, hlen⟩ := ih (i + 1) (name.setIfInBounds i c)
      exact ⟨y, hy, Nat.le_succ_of_le hlen⟩
    · exact ⟨c :: q, rfl, le_refl _⟩

theorem lastName_append {t : Path} {name : Name} (hne : t ≠ [])
    (ht : convertNameSZToName83 t = (name, [])) (n : ℕ) (q : Path) (first : Name)
    (hn : q.length < n) : lastName n (q ++ backslash :: t) first = name := by
  induction n generalizing q first with
  | zero => exact absurd hn (Nat.not_lt_zero _)
  | succ n ih =>
    cases q with
    | nil =>
      rw [List.nil_append, lastName, if_neg hne, ht]
      rfl
    | cons c q =>
      obtain ⟨y, hy, hlen⟩ := convertLoop_backslash 0 (Vector.replicate 11 blank) q t
      have hy' : (convertNameSZToName83 (q ++ backslash :: t)).2 = y ++ backslash :: t := hy
      rw [List.length_cons] at hn
      rw [List.cons_append, lastName, if_neg (by simp)]
      dsimp only
      rw [hy', if_neg (by simp)]
      exact ih y _ (by omega)

/-- A path that ends in a name leads to it. -/
theorem splits_name {v : Fat.Volume} {path : Path} {pat : Name} {s : ℕ × Name} {name : Name}
    {t : Path} (h : Dir.Splits v path pat s) (hends : EndsIn path t) (hne : t ≠ [])
    (ht : convertNameSZToName83 t = (name, [])) : s.2 = name := by
  obtain ⟨r, hr, rfl⟩ := hends.resolve_left h.1
  have hdrop : (r ++ backslash :: t).drop 2 = r.drop 2 ++ backslash :: t :=
    List.drop_append_of_le_length hr
  have hleads := h.2
  rw [hdrop] at hleads
  rw [leads_lastName hleads (le_refl _)]
  refine lastName_append hne ht _ _ _ ?_
  rw [List.length_append, List.length_cons]
  omega

/-! ## What is renamed -/

variable {a : Around} {k : Kernel} {w : World}

/-- The entry that is renamed has the name that the first path ends in, and gets the one that the
second path ends in. -/
theorem renames_spec {path1 path2 : Path} {attrib : UInt8} {old new : Name}
    (h : renames a k w path1 path2 attrib = some (old, new)) :
    (∃ v pat s, Dir.Splits v path1 pat s ∧ old = s.2) ∧
      ∃ v s, Dir.Splits v path2 a.fnode1.dmNamePat s ∧ new = s.2 := by
  rw [renames] at h
  split at h
  · obtain ⟨⟨fnp1, fnp2, u⟩, hfound, heq⟩ := Option.map_eq_some_iff.mp h
    obtain ⟨rfl, rfl⟩ := Prod.mk.inj heq
    rw [renameFound] at hfound
    split at hfound
    · rename_i hcond
      obtain ⟨-, hrc1, hrc2⟩ := hcond
      obtain ⟨rfl, hpair⟩ := Prod.mk.inj (Option.some.inj hfound)
      obtain ⟨rfl, -⟩ := Prod.mk.inj hpair
      clear h hfound hpair
      have hfind1 := Dir.findFname_spec (w.vol (Dir.driveNr path1)) w.fnode path1 attrib
      generalize Dir.findFname (w.vol (Dir.driveNr path1)) w.fnode path1 attrib = r1
        at hfind1 hrc1 hrc2 ⊢
      have hfind2 := Dir.findFname_spec r1.2.2 a.fnode1 path2 attrib
      generalize Dir.findFname r1.2.2 a.fnode1 path2 attrib = r2 at hfind2 hrc2 ⊢
      have hne : Dir.dePathNotFnd ≠ File.success ∧ Dir.dePathNotFnd ≠ Dir.deFileNotFnd ∧
        Dir.deFileNotFnd ≠ File.success := by decide
      constructor
      · obtain ⟨-, -, s, hs, -, -, hres⟩ := hfind1.result.resolve_right fun h =>
          hne.1 (h.1.symm.trans hrc1)
        obtain ⟨-, place, -, hat, hfinds⟩ := hres.resolve_right fun h =>
          hne.2.2 (h.1.symm.trans hrc1)
        refine ⟨_, _, s, hs, ?_⟩
        have hmeets := hfinds.meets
        rw [Dir.found, Bool.and_eq_true, beq_iff_eq] at hmeets
        rw [hat.dir]
        exact hmeets.1
      · obtain ⟨-, -, s, hs, -, hpat, -⟩ := hfind2.result.resolve_right fun h =>
          hne.2.1 (h.1.symm.trans hrc2)
        exact ⟨_, s, hs, hpat⟩
    · cases hfound
  · cases h

/-- The name that the path of the current directory leads to. -/
def currentName (a : Around) (k : Kernel) (fcbDrive : ℕ) : Name :=
  let path := (k.truename a.front [UInt8.ofNat (0x41 + fcbDrive - 1), colon] mode0).path
  lastName (path.drop 2).length (path.drop 2) a.fnode1.dmNamePat

/-- The file gets the name that it should: the separators make no difference or, if no name is left
at all and the file goes to where the current directory is, that one happens to have the name. -/
def Proper (a : Around) (k : Kernel) (fcbDrive : ℕ) (renNewName name : Name) : Prop :=
  if overlay (pattern k.upFChar renNewName) (firstWords name) = Vector.replicate 11 blank then
    currentName a k fcbDrive = newName k.upFChar renNewName name
  else Preserves k.upFChar renNewName name

/-- The kernel's upper-case map leaves blanks and dots alone. -/
theorem upFChar_blank (k : Kernel) : k.upFChar blank = blank ∧ k.upFChar dot = dot := by
  simp only [Kernel.upFChar, Path.upChar]
  exact ⟨rfl, rfl⟩

/-- What `truename` makes of the text of a name. -/
theorem truename_text (hup : Path.UpcaseOk k.upFChar) (hq : k.Qualifies) {name : Name}
    (h : Storable k.upFChar name) (front x : UInt8)
    (hcode : ¬ (k.truename front (x :: colon :: convertName83ToNameSZ name) mode0).code < 0)
    (hdev : ¬ DeviceOnly
      (k.truename front (x :: colon :: convertName83ToNameSZ name) mode0).code.toNat) :
    (trimmed (name.toList.take 8) = [] → name = Vector.replicate 11 blank) ∧
      (trimmed (name.toList.take 8) ≠ [] → ∀ {v pat s}, Dir.Splits v
        (k.truename front (x :: colon :: convertName83ToNameSZ name) mode0).path pat s →
          s.2 = name) := by
  constructor
  · intro hnil
    refine eq_blank_iff.mpr ⟨hnil, ?_⟩
    by_contra hne
    refine hcode ?_
    rw [text_eq h.zero_ne_dot, hnil, List.nil_append, Path.dotted, if_neg hne]
    exact Kernel.truename_ext hq front x hne h.plain.2
      (lt_of_le_of_lt (length_trimmed_le _) (by simp [Path.fnameSize]))
  · intro hne v pat s hs
    have hends := Kernel.truename_component hup hq front x (h.component hne)
    rw [h.bytes_component hne, h.text_upper (upFChar_blank k).2] at hends
    refine splits_name hs (hends (not_lt.mp hcode) hdev) ?_ (convert_text h.literal)
    rw [text_eq h.zero_ne_dot]
    exact fun hnil => hne (List.append_eq_nil_iff.mp hnil).1

/-- The name that the second path leads to. -/
theorem proper_iff (hup : Path.UpcaseOk k.upFChar) (hq : k.Qualifies) {fcbDrive : ℕ}
    {renNewName name loc : Name} (h : Storable k.upFChar name)
    (hloc : overlay (pattern k.upFChar renNewName) (firstWords name) = loc)
    (hcode : ¬ (k.truename a.front (UInt8.ofNat (0x41 + fcbDrive - 1) :: colon ::
      convertName83ToNameSZ loc) mode0).code < 0)
    (hdev : ¬ DeviceOnly (k.truename a.front (UInt8.ofNat (0x41 + fcbDrive - 1) :: colon ::
      convertName83ToNameSZ loc) mode0).code.toNat) {v : Fat.Volume} {s : ℕ × Name}
    (hs : Dir.Splits v (k.truename a.front (UInt8.ofNat (0x41 + fcbDrive - 1) :: colon ::
      convertName83ToNameSZ loc) mode0).path a.fnode1.dmNamePat s) :
    s.2 = newName k.upFChar renNewName name ↔ Proper a k fcbDrive renNewName name := by
  have hstorable : Storable k.upFChar loc := hloc ▸ h.overlay hup (upFChar_blank k).1 renNewName
  obtain ⟨hnil, hname⟩ := truename_text hup hq hstorable a.front _ hcode hdev
  rw [Proper, hloc]
  split
  · rename_i hblank
    have htext : convertName83ToNameSZ loc = [] := by
      rw [hblank]
      decide
    rw [htext] at hs
    rw [leads_lastName hs.2 (le_refl _), currentName]
  · rename_i hblank
    rw [hname (fun hn => hblank (hnil hn)) hs, ← hloc]
    exact overlay_eq_iff k.upFChar renNewName name

/-- What a record of a renamed file should be: it is the one that was found, unless its name has
nothing but blanks, and it gets its proper name. -/
structure Renamed.Follows (ren : Renamed) (a : Around) (fcbDrive : ℕ) (renNewName : Name) :
    Prop where
  old : trimmed (ren.found.toList.take 8) ≠ [] → ren.old = ren.found
  new : ren.new = newName ren.kernel.upFChar renNewName ren.found ↔
    Proper a ren.kernel fcbDrive renNewName ren.found

/-- A turn changes nothing in the tables but the current directories. -/
theorem turn_kernel (a : Around) (attr : UInt8) (fcbDrive : ℕ) (buf : Name) (k : Kernel) (w : World)
    (found : Dirent) (dmName : Path) :
    ∃ cds, (turn a attr fcbDrive buf k w found dmName).kernel = { k with cds := cds } := by
  rw [turn]
  dsimp only
  split
  · exact ⟨_, rfl⟩
  · split
    · exact ⟨_, rfl⟩
    · exact ⟨_, rfl⟩

theorem not_device {result : ℕ} (h : DeviceOnly result) : result &&& isDeviceBit ≠ 0 := by
  have hbit : result &&& ((Path.isNetworkBit ||| isDeviceBit) &&& isDeviceBit) = isDeviceBit := by
    rw [← Nat.and_assoc, h]
    rfl
  intro h0
  exact absurd (h0.symm.trans hbit) (by decide)

theorem fcbNameInit_drive (defaultDrive : ℕ) (f : Fcb) {drive : ℕ} (h : drive ≠ 0) (name : Name) :
    (fcbNameInit defaultDrive { f with drive := drive, name := name }).1 =
      UInt8.ofNat (0x41 + drive - 1) :: colon :: convertName83ToNameSZ name := by
  rw [fcbNameInit, if_pos h]
  rfl

theorem turn_found {attr : UInt8} {fcbDrive : ℕ} {buf : Name} {found : Dirent} {dmName : Path}
    {ren : Renamed} (h : (turn a attr fcbDrive buf k w found dmName).renamed = some ren) :
    ren.found = found.name := by
  rw [turn] at h
  dsimp only at h
  split at h
  · cases h
  · split at h
    · cases h
    · obtain ⟨n, -, rfl⟩ := Option.map_eq_some_iff.mp h
      rfl

/-- **A turn of the loop.** -/
theorem turn_renamed (hup : Path.UpcaseOk k.upFChar) (hq : k.Qualifies) {fcbDrive : ℕ}
    (hdrive : fcbDrive ≠ 0) {attr : UInt8} {renNewName : Name} {found : Dirent} {ren : Renamed}
    (h : (turn a attr fcbDrive (pattern k.upFChar renNewName) k w found
      (convertName83ToNameSZ found.name)).renamed = some ren)
    (hfound : Storable k.upFChar found.name) :
    ren.Follows a fcbDrive renNewName := by
  rw [turn] at h
  dsimp only at h
  split at h
  · cases h
  · rename_i hcond1
    simp only [not_or, not_not] at hcond1
    obtain ⟨-, hcode1, hdev1⟩ := hcond1
    rw [fcbNameInit_drive _ _ hdrive] at h
    have hdevice : ¬ DeviceOnly (k.truename a.front (UInt8.ofNat (0x41 + fcbDrive - 1) :: colon ::
        convertName83ToNameSZ found.name) mode0).code.toNat := fun hd => not_device hd hdev1
    obtain ⟨hnil, hname⟩ := truename_text hup hq hfound a.front _ hcode1 hdevice
    rw [parse_text k hfound (fun hn => (eq_blank_iff.mp (hnil hn)).2) a.localFcb] at h
    generalize k.truename a.front (UInt8.ofNat (0x41 + fcbDrive - 1) :: colon ::
      convertName83ToNameSZ found.name) mode0 = t1 at *
    have hup1 : ({ k with cds := t1.cds } : Kernel).upFChar = k.upFChar := rfl
    have hq1 : ({ k with cds := t1.cds } : Kernel).Qualifies := ⟨hq.component, hq.ext⟩
    generalize ({ k with cds := t1.cds } : Kernel) = k1 at h hup1 hq1
    split at h
    · cases h
    · rename_i hcond2
      simp only [not_or] at hcond2
      obtain ⟨-, hcode2, hdev2⟩ := hcond2
      obtain ⟨⟨old, new⟩, hren, rfl⟩ := Option.map_eq_some_iff.mp h
      obtain ⟨⟨v, pat, s, hs, hold⟩, v', s', hs', hnew⟩ := renames_spec hren
      refine ⟨fun hne => hold.trans (hname hne hs), ?_⟩
      rw [hnew]
      exact proper_iff (hup1 ▸ hup) hq1 (hup1 ▸ hfound) (by rw [hup1]) hcode2 hdev2 hs'

/-! ## The entry on the volume -/

section
variable {v : Fat.Volume} {fnp fnp1 fnp2 : FNode} {path2 : Path}

/-- An entry that is read has fields of their widths. -/
theorem dirRead_fits (h : 0 < (Dir.dirRead v fnp).1) : Dir.Fits (Dir.dirRead v fnp).2.1.dir := by
  have hentry : ∀ (v : Fat.Volume) (fnp : FNode), 0 < (Dir.readEntry v fnp).1 →
      Dir.Fits (Dir.readEntry v fnp).2.1.dir := by
    intro v fnp hrc
    have hfail : ¬ (0 : ℤ) < Dir.deBlkInvld := by decide
    rw [Dir.readEntry] at hrc ⊢
    dsimp only at hrc ⊢
    split at hrc
    · exact absurd hrc hfail
    · rename_i hok
      rw [if_neg hok]
      exact (Dir.ofBytes_fits _).swapDeleted
  have hseek : ¬ (0 : ℤ) < File.deSeek := by decide
  rw [Dir.dirRead] at h ⊢
  dsimp only at h ⊢
  split_ifs at h ⊢
  · exact absurd h hseek
  · exact absurd h hseek
  · exact hentry _ _ h
  · exact absurd h hseek
  · exact hentry _ _ h

theorem removeLfnLoop_code (n : ℕ) (v : Fat.Volume) (fnp : FNode) :
    (Dir.removeLfnLoop n v fnp).1 = File.success ∨ (Dir.removeLfnLoop n v fnp).1 = deAccess := by
  induction n generalizing v fnp with
  | zero => exact Or.inl rfl
  | succ n ih =>
    rw [Dir.removeLfnLoop]
    dsimp only
    split_ifs
    · exact Or.inl rfl
    · exact Or.inr rfl
    · exact Or.inl rfl
    · exact Or.inr rfl
    · exact ih _ _

/-- The entry that `remove_lfn_entries` reads again at its end. -/
theorem removeLfnEntries_fits (h : 0 ≤ (Dir.removeLfnEntries v fnp).1) :
    Dir.Fits (Dir.removeLfnEntries v fnp).2.1.dir := by
  have hneg : ¬ (0 : ℤ) ≤ deAccess := by decide
  have hcode := removeLfnLoop_code (fnp.dmEntry + 1) v fnp
  rw [Dir.removeLfnEntries] at h ⊢
  dsimp only at h ⊢
  split at h
  · rename_i hrc
    exact absurd (hcode.resolve_left hrc ▸ h) hneg
  · rename_i hrc
    rw [if_neg hrc]
    dsimp only at h ⊢
    split at h
    · exact absurd h hneg
    · rename_i hread
      exact dirRead_fits (not_le.mp hread)

theorem moveEntry_fits (h : (Dir.moveEntry v fnp1 fnp2 path2).1 = some File.success) :
    Dir.Fits (Dir.moveEntry v fnp1 fnp2 path2).2.1.dir := by
  have hne : some deAccess ≠ some File.success := by decide
  rw [Dir.moveEntry] at h ⊢
  dsimp only at h ⊢
  split_ifs at h ⊢ with hsame hdir halloc hlfn
  · exact removeLfnEntries_fits (Option.some.inj h).ge
  · exact absurd h hne
  · exact absurd h halloc
  · exact absurd (Option.some.inj h) (ne_of_lt hlfn)
  all_goals exact removeLfnEntries_fits (not_lt.mp hlfn)

/-- **The new name is in the directory** once `dos_rename` has succeeded. -/
theorem dosRename_name {v : Fat.Volume} {fnode0 fnode1 : FNode} {cdsCurrentPath path1 path2 : Path}
    {attrib : UInt8} (h : (Dir.dosRename v fnode0 fnode1 cdsCurrentPath path1 path2 attrib).1 =
      some File.success) : ∃ f, renameFound v fnode0 fnode1 cdsCurrentPath path1 path2 attrib =
        some f ∧ ∃ place, (Dir.entryAt
          (Dir.dosRename v fnode0 fnode1 cdsCurrentPath path1 path2 attrib).2 place).name =
            f.2.1.dmNamePat := by
  have hcur : some Dir.deRmvCuDir ≠ some File.success := by decide
  have hacc : some deAccess ≠ some File.success := by decide
  rw [Dir.dosRename] at h ⊢
  rw [renameFound]
  dsimp only at h ⊢
  generalize Dir.findFname v fnode0 path1 attrib = r1 at h ⊢
  generalize Dir.findFname r1.2.2 fnode1 path2 attrib = r2 at h ⊢
  by_cases h1 : path1 = cdsCurrentPath
  · rw [if_pos h1] at h
    exact absurd h hcur
  by_cases h2 : r1.1 = File.success
  swap
  · rw [if_neg h1, if_pos h2] at h
    exact absurd (Option.some.inj h) h2
  by_cases h3 : r2.1 = Dir.deFileNotFnd
  swap
  · rw [if_neg h1, if_neg (not_not_intro h2), if_pos h3] at h
    split at h
    · exact absurd h hacc
    · rename_i hne
      exact absurd (Option.some.inj h) hne
  rw [if_neg h1, if_neg (not_not_intro h2), if_neg (not_not_intro h3)] at h ⊢
  refine ⟨_, if_pos ⟨h1, h2, h3⟩, ?_⟩
  have hfits : (Dir.moveEntry r2.2.2 r1.2.1 r2.2.1 path2).1 = some File.success → _ :=
    moveEntry_fits
  generalize Dir.moveEntry r2.2.2 r1.2.1 r2.2.1 path2 = m at h hfits ⊢
  split at h
  · rename_i hmove
    exact absurd h hmove
  · rename_i hmove
    rw [if_neg hmove]
    generalize hfnp : ({ m.2.1 with dir := { m.2.1.dir with name := r2.2.1.dmNamePat } } :
      FNode) = fnp at h ⊢
    have hw := Dir.dirWrite_spec m.2.2 fnp
    split at h
    swap
    · exact absurd h hacc
    rename_i hrc
    have hdisk := hw.disk
    rw [if_pos (hw.result hrc)] at hdisk
    have hfits := hfits (not_not.mp hmove)
    refine ⟨(fnp.dirsector, fnp.diridx), ?_⟩
    rw [Dir.entryAt_put (e := fnp.dir) ?_ hdisk, ← hfnp]
    rw [← hfnp]
    exact ⟨hfits.crtime, hfits.crdate, hfits.accdate, hfits.startHigh, hfits.time, hfits.date,
      hfits.start, hfits.size⟩

/-- The entry that is renamed has its new name on the volume. -/
theorem renames_name {a : Around} {k : Kernel} {w : World} {path1 path2 : Path} {attrib : UInt8}
    {old new : Name} (h : renames a k w path1 path2 attrib = some (old, new)) : ∃ place,
      (Dir.entryAt ((dosRenameTrue a k w path1 path2 attrib).2.vol (Dir.driveNr path1)) place).name =
        new := by
  have hdev : some deDevice ≠ some File.success := by decide
  have hacc : some deAccess ≠ some File.success := by decide
  rw [renames] at h
  split at h
  · rename_i hcond
    rw [Bool.not_eq_true'] at hcond
    obtain ⟨hrc, hnet⟩ := hcond
    obtain ⟨f, hf, hnames⟩ := Option.map_eq_some_iff.mp h
    rw [dosRenameTrue] at hrc ⊢
    split_ifs at hrc ⊢ with h1 h2 h3
    · exact absurd hrc hdev
    · exact absurd (h2.symm.trans hnet) (by decide)
    · exact absurd hrc hacc
    · obtain ⟨f', hf', place, hplace⟩ := dosRename_name hrc
      obtain rfl := Option.some.inj (hf.symm.trans hf')
      refine ⟨place, ?_⟩
      dsimp only at hplace ⊢
      rw [Function.update_self, hplace]
      exact (Prod.mk.inj hnames).2
  · cases h

/-- **What a turn records has happened**: the new name is in a directory when the turn ends. -/
theorem turn_name {a : Around} {k : Kernel} {w : World} {attr : UInt8} {fcbDrive : ℕ} {buf : Name}
    {found : Dirent} {dmName : Path} {ren : Renamed}
    (h : (turn a attr fcbDrive buf k w found dmName).renamed = some ren) : ∃ drive place,
      (Dir.entryAt ((turn a attr fcbDrive buf k w found dmName).world.vol drive) place).name =
        ren.new := by
  rw [turn] at h ⊢
  dsimp only at h ⊢
  split at h
  · cases h
  · rename_i hcond1
    rw [if_neg hcond1]
    split at h
    · cases h
    · rename_i hcond2
      rw [if_neg hcond2]
      obtain ⟨n, hn, rfl⟩ := Option.map_eq_some_iff.mp h
      exact ⟨_, renames_name hn⟩

end

/-! ## All of the loop -/

/-- What a search tells is the name of the entry that it returns. -/
theorem popDmp_name {r : Dir.Hit} {dmp : Dta} {e : Dirent} (h : (Dir.popDmp r dmp).1 = .ok e) :
    (Dir.popDmp r dmp).2.fnd.name = convertName83ToNameSZ e.name := by
  cases r with
  | error rc => cases h
  | ok hit =>
    cases h
    rfl

theorem dosFindNext_name {dmp : Dta} {e : Dirent} (h : (Dir.dosFindNext w dmp).1 = .ok e) :
    (Dir.dosFindNext w dmp).2.1.fnd.name = convertName83ToNameSZ e.name := by
  rw [Dir.dosFindNext] at h ⊢
  dsimp only at h ⊢
  split at h
  · cases h
  · rename_i hcond
    rw [if_neg hcond]
    exact popDmp_name h

theorem dosFindFirst_name {attr : UInt16} {name : Path} {dmp : Dta} {e : Dirent}
    (h : (Dir.dosFindFirst w attr name dmp).1 = .ok e) :
    (Dir.dosFindFirst w attr name dmp).2.1.fnd.name = convertName83ToNameSZ e.name := by
  rw [Dir.dosFindFirst] at h ⊢
  dsimp only at h ⊢
  split at h
  · cases h
  · rename_i hcond
    rw [if_neg hcond]
    exact popDmp_name h

/-- **The loop of `FcbRename`.** -/
theorem renameLoop_follows (a : Around) (attr : UInt8) {fcbDrive : ℕ} (hdrive : fcbDrive ≠ 0)
    (renNewName : Name) (n : ℕ) {k : Kernel} (hup : Path.UpcaseOk k.upFChar) (hq : k.Qualifies)
    (w : World) {dmatch : Dta} {found : Dirent}
    (hname : dmatch.fnd.name = convertName83ToNameSZ found.name) :
    ∀ ren ∈ (renameLoop a attr fcbDrive (pattern k.upFChar renNewName) n k w dmatch found).2.2,
      Storable k.upFChar ren.found → ren.Follows a fcbDrive renNewName := by
  induction n generalizing k w dmatch found with
  | zero => exact fun ren hren => (nomatch hren)
  | succ n ih =>
    intro ren hren hstorable
    rw [renameLoop, hname] at hren
    have hturn : ∀ ren ∈ (turn a attr fcbDrive (pattern k.upFChar renNewName) k w found
        (convertName83ToNameSZ found.name)).renamed.toList,
        Storable k.upFChar ren.found → ren.Follows a fcbDrive renNewName := fun ren hren hst => by
      have hsome := Option.mem_toList.mp hren
      exact turn_renamed hup hq hdrive hsome (turn_found hsome ▸ hst)
    obtain ⟨cds, hkernel⟩ := turn_kernel a attr fcbDrive (pattern k.upFChar renNewName) k w found
      (convertName83ToNameSZ found.name)
    generalize turn a attr fcbDrive (pattern k.upFChar renNewName) k w found
      (convertName83ToNameSZ found.name) = t at hren hturn hkernel
    dsimp only at hren
    split at hren
    · exact hturn ren hren hstorable
    · cases hnext : (Dir.dosFindNext t.world dmatch).1 with
      | error rc =>
        rw [hnext] at hren
        exact hturn ren hren hstorable
      | ok next =>
        rw [hnext] at hren
        rcases List.mem_append.mp hren with hren | hren
        · exact hturn ren hren hstorable
        · have hup' : t.kernel.upFChar = k.upFChar := by rw [hkernel]; rfl
          have hq' : t.kernel.Qualifies := by rw [hkernel]; exact ⟨hq.component, hq.ext⟩
          rw [← hup'] at hren hstorable
          exact ih (hup' ▸ hup) hq' _ (dosFindNext_name hnext) ren hren hstorable

/-- **`FcbRename`** gives a file the name that it should get exactly if that is proper: nothing of
the new name is behind a separator, and at its question marks the first words of the old name are
just where the name has them. -/
theorem fcbRename_iff (a : Around) (n : ℕ) {k : Kernel} (hup : Path.UpcaseOk k.upFChar)
    (hq : k.Qualifies) (w : World) (lpXfcb : Rfcb) (dmatch : Dta) :
    ∀ ren ∈ (fcbRename a n k w lpXfcb dmatch).2.2, Storable k.upFChar ren.found →
      ren.Follows a (fcbNameInit k.defaultDrive lpXfcb.xfcb.fcb).2 lpXfcb.newName := by
  have hdrive : (fcbNameInit k.defaultDrive lpXfcb.xfcb.fcb).2 ≠ 0 := by
    rw [fcbNameInit]
    split
    · assumption
    · exact Nat.succ_ne_zero _
  intro ren hren hstorable
  rw [fcbRename] at hren
  dsimp only at hren
  split at hren
  · cases hren
  · split at hren
    · cases hren
    · rename_i found hfound
      exact renameLoop_follows a _ hdrive lpXfcb.newName n hup hq _ (dosFindFirst_name hfound) ren
        hren hstorable

/-! ## A file with a blank in its name -/

/-- `TEST E.TXT` -/
def nameTestE : Name := #v[0x54, 0x45, 0x53, 0x54, blank, 0x45, blank, blank, 0x54, 0x58, 0x54]

/-- `????????BAK` -/
def nameAllBak : Name := toName (List.replicate 8 Path.quest ++ [0x42, 0x41, 0x4b])

/-- A volume with the file `TEST E.TXT` in its root directory. -/
def oneFile : Fat.Volume :=
  { Dir.smallTree [] with
    disk := Dir.putBytes (fun _ _ => 0) 7 0 (Dir.initDirentry File.dArchive 0 nameTestE 0 0).bytes }

/-- The drive A: with that volume. -/
def oneFileWorld : World :=
  { Dir.smallWorld 0 [] with
    truename := fun name =>
      let r := Path.smallKernel.truename 0 name ⟨false, true, true⟩
      (r.code, r.path)
    vol := fun _ => oneFile }

def smallAround : Around where
  front := 0
  localFcb := (searchFcb nameTestE).fcb
  fnode1 := Dir.smallFNode
  network := fun _ => false
  remRename := fun _ _ _ => File.success
  shareOpen := fun _ => false

/-- `REN *.* *.BAK` on the drive A:. -/
def allToBak : Rfcb where
  xfcb :=
    { header := none
      fcb := { (searchFcb (Vector.replicate 11 Path.quest)).fcb with drive := 1 } }
  newName := nameAllBak

theorem qualifies_small : Path.smallKernel.Qualifies :=
  ⟨fun _ _ _ h => (nomatch h), fun _ _ _ h => (nomatch h)⟩

theorem oneFile_renamed :
    (fcbRename smallAround 2 Path.smallKernel oneFileWorld allToBak Dir.smallDta).2.2.map
      (fun ren => (ren.found, ren.new)) =
    [(nameTestE,
      toName [0x54, 0x45, 0x53, 0x54, blank, blank, blank, blank, 0x42, 0x41, 0x4b])] := by
  decide +kernel

theorem fcbRename_iff_oneFile :
    ∃ ren ∈ (fcbRename smallAround 2 Path.smallKernel oneFileWorld allToBak Dir.smallDta).2.2,
      ren.found = nameTestE ∧ ren.Follows smallAround 1 nameAllBak := by
  have hmem := List.mem_singleton_self
    (nameTestE, toName [0x54, 0x45, 0x53, 0x54, blank, blank, blank, blank, 0x42, 0x41, 0x4b])
  rw [← oneFile_renamed] at hmem
  obtain ⟨ren, hren, heq⟩ := List.mem_map.mp hmem
  have hfound : ren.found = nameTestE := congrArg Prod.fst heq
  exact ⟨ren, hren, hfound, fcbRename_iff smallAround 2 Path.upcaseOk_small qualifies_small
    oneFileWorld allToBak Dir.smallDta ren hren (by rw [hfound]; decide +kernel)⟩

/-- `TEST E.TXT` becomes `TEST.BAK`. -/
theorem testE_loses_word :
    ¬ ∀ ren ∈ (fcbRename smallAround 2 Path.smallKernel oneFileWorld allToBak Dir.smallDta).2.2,
      Storable Path.smallKernel.upFChar ren.found →
        ren.new = newName Path.smallKernel.upFChar nameAllBak ren.found := by
  intro h
  have hmem := List.mem_singleton_self
    (nameTestE, toName [0x54, 0x45, 0x53, 0x54, blank, blank, blank, blank, 0x42, 0x41, 0x4b])
  rw [← oneFile_renamed] at hmem
  obtain ⟨ren, hren, heq⟩ := List.mem_map.mp hmem
  have hfound : ren.found = nameTestE := congrArg Prod.fst heq
  have hnew := h ren hren (by rw [hfound]; decide +kernel)
  rw [hfound, show ren.new = _ from congrArg Prod.snd heq] at hnew
  exact absurd hnew (by decide +kernel)

end Fcbs
end BurdahDos
