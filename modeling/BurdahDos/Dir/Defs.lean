import BurdahDos.File.Defs
import Mathlib

/-!
# Directories

`kernel/fatdir.c`, and the functions of `kernel/fatfs.c` that find, make, rename and remove the
entries of directories.  An fnode stands in a directory: `dm_dircluster` is where the directory
starts, 0 for a root directory of fixed size, and `dm_entry` is the number of the entry.

A path is what `truename` makes of a name, such as `C:\A\B`: the list of its bytes up to the NUL.

Directory sectors are read and written through the buffers, as in `Fat`.  The functions write a
sector and flush the buffers at once, so a failed write shows here, as far as it is one of that
sector; what else such a flush may lose is left out, as it is in `Fat`.
-/

set_option autoImplicit false

namespace BurdahDos
namespace Dir

open Fat File

/-! ## Return codes and attributes -/

/-- `DE_FILENOTFND` -/
def deFileNotFnd : ℤ := -2
/-- `DE_PATHNOTFND` -/
def dePathNotFnd : ℤ := -3
/-- `DE_TOOMANY` -/
def deTooMany : ℤ := -4
/-- `DE_RMVCUDIR` -/
def deRmvCuDir : ℤ := -16
/-- `DE_BLKINVLD` -/
def deBlkInvld : ℤ := -20

/-- `D_LFN` -/
def dLfn : UInt8 := 0x0f
/-- `D_ALL` -/
def dAll : UInt8 := 0x37

/-- `DELETED` -/
def deleted : UInt8 := 0x05
/-- `EXT_DELETED` -/
def extDeleted : UInt8 := 0xe5

/-- `DE_FILEEXISTS` -/
def deFileExists : ℤ := -80

/-- `S_OPENED` -/
def sOpened : ℤ := 1
/-- `S_CREATED` -/
def sCreated : ℤ := 2
/-- `S_REPLACED` -/
def sReplaced : ℤ := 3

/-- `O_ACCMODE` -/
def oAccmode : ℕ := 0x0003
/-- `O_OPEN` -/
def oOpen : ℕ := 0x0100
/-- `O_TRUNC` -/
def oTrunc : ℕ := 0x0200
/-- `O_CREAT` -/
def oCreat : ℕ := 0x0400
/-- `O_FCB` -/
def oFcb : ℕ := 0x8000

/-- `MAX_CDSPATH` -/
def maxCdsPath : ℕ := 67

/-! ## Names -/

/-- A fully qualified path. -/
abbrev Path := List UInt8

/-- `\` -/
def backslash : UInt8 := 0x5c
/-- `.` -/
def dot : UInt8 := 0x2e
/-- ` ` -/
def blank : UInt8 := 0x20

/-- The loop of `ConvertNameSZToName83` from index `i` on. -/
def convertLoop : ℕ → Name → Path → Name × Path
  | _, fcbname, [] => (fcbname, [])
  | i, fcbname, c :: dirname =>
    if 11 ≤ i then (fcbname, c :: dirname)
    else if c = dot then convertLoop 8 fcbname dirname
    else if c ≠ backslash then convertLoop (i + 1) (fcbname.setIfInBounds i c) dirname
    else (fcbname, c :: dirname)

/-- `ConvertNameSZToName83`: the first component of a path in FCB format, and what follows it. -/
def convertNameSZToName83 (dirname : Path) : Name × Path :=
  convertLoop 0 (Vector.replicate 11 blank) dirname

/-- `.` in a directory. -/
def dotName : Name := (Vector.replicate 11 blank).setIfInBounds 0 dot

/-- `..` in a directory. -/
def dotDotName : Name := dotName.setIfInBounds 1 dot

/-- `dir_name[0]` -/
abbrev firstOf (name : Name) : UInt8 := name[0]

/-- Set `dir_name[0]`. -/
def setFirst (c : UInt8) (e : Dirent) : Dirent := { e with name := e.name.set 0 c }

/-- `swap_deleted`: swap internal and external delete flags. -/
def swapDeleted (e : Dirent) : Dirent :=
  if e.name[0] = deleted ∨ e.name[0] = extDeleted then
    setFirst (e.name[0] ^^^ (extDeleted - deleted)) e
  else e

/-! ## Reading -/

/-- `dir_init_fnode`: let the fnode point to the directory that starts at a cluster, or to the root
directory. -/
def dirInitFnode (d : Dpb) (fnp : FNode) (dirstart : ℕ) : FNode :=
  let dirstart := if dirstart = 0 ∧ d.isFat32 = true then d.xrootclst else dirstart
  { fnp with
    sftIdx := 0xff, offset := 0, clusterOffset := 0, cluster := dirstart, dmDircluster := dirstart }

/-- Entries of a directory that fit in a sector. -/
def perSector (d : Dpb) : ℕ := d.secsize / 32

/-- The end of `dir_read`: get the entry from its sector. -/
def readEntry (v : Volume) (fnp : FNode) : ℤ × FNode × Volume :=
  let a := v.access
  if a.1.isSome then (deBlkInvld, fnp, a.2)
  else
    let diridx := fnp.dmEntry % perSector v.dpb
    let dir := swapDeleted (Dirent.ofBytes fun i => v.disk fnp.dirsector (diridx * 32 + i))
    (if dir.name[0] ≠ 0 then 1 else 0, { fnp with diridx := diridx, dir := dir }, a.2)

/-- `dir_read`: read the entry.  1 means that it is not empty, 0 that it is; it is a negative code
behind the end of the directory, and if an access fails. -/
def dirRead (v : Volume) (fnp : FNode) : ℤ × FNode × Volume :=
  if 65535 ≤ fnp.dmEntry then (deSeek, fnp, v)
  else if fnp.dmDircluster = 0 then
    if v.dpb.dirents ≤ fnp.dmEntry then (deSeek, fnp, v)
    else readEntry v { fnp with dirsector := fnp.dmEntry / perSector v.dpb + v.dpb.dirstrt }
  else
    let m := mapCluster v (fnp.seek (fnp.dmEntry * 32)) .read
    if m.1 ≠ success then (deSeek, m.2)
    else
      let d := m.2.2.dpb
      let sector := m.2.1.offset / d.secsize % 256 &&& d.clsmask
      readEntry m.2.2 { m.2.1 with dirsector := d.clus2phys m.2.1.cluster + sector }

/-- The loop `while (dir_read(fnp) == 1)`, which ends too at an entry that meets `stop`.  The answer
is that of the last `dir_read`. -/
def searchLoop (stop : Dirent → Bool) : ℕ → Volume → FNode → ℤ × FNode × Volume
  | 0, v, fnp => (deSeek, fnp, v)
  | n + 1, v, fnp =>
    let r := dirRead v fnp
    if r.1 ≠ 1 then r
    else if stop r.2.1.dir then r
    else searchLoop stop n r.2.2 { r.2.1 with dmEntry := r.2.1.dmEntry + 1 }

/-- The loop from the current entry on; no entry is read from number 65535 on. -/
def search (stop : Dirent → Bool) (v : Volume) (fnp : FNode) : ℤ × FNode × Volume :=
  searchLoop stop (65536 - fnp.dmEntry) v fnp

/-- The test of `dir_open`. -/
def named (fcbname : Name) (e : Dirent) : Bool := e.attrib &&& dVolid == 0 && fcbname == e.name

/-- The loop of `dir_open` over the components of a path: whether all are found. -/
def openLoop (split : Bool) : ℕ → Path → Volume → FNode → Bool × FNode × Volume
  | 0, _, v, fnp => (true, fnp, v)
  | _ + 1, [], v, fnp => (true, fnp, v)
  | n + 1, _ :: dirname, v, fnp =>
    -- the root directory
    if dirname.isEmpty then (true, fnp, v)
    else
      let c := convertNameSZToName83 dirname
      let fnp := { fnp with dmNamePat := c.1 }
      if split && c.2.isEmpty then (true, fnp, v)
      else
        let r := search (named c.1) v fnp
        if r.1 = 1 ∧ r.2.1.dir.attrib &&& dDir ≠ 0 then
          let fnp := dirInitFnode r.2.2.dpb r.2.1 (getdstart r.2.2.dpb r.2.1.dir)
          openLoop split n c.2 r.2.2 { fnp with dmEntry := 0 }
        else (false, r.2)

/-- `dir_open`: go to the directory a path names, or with `split` to the one that its last component
is in. -/
def dirOpen (v : Volume) (fnp : FNode) (dirname : Path) (split : Bool) : Bool × FNode × Volume :=
  let fnp := { fnp with dcb := (dirname.headD 0).toNat - 0x41 }
  openLoop split dirname.length (dirname.drop 2) v
    { dirInitFnode v.dpb fnp 0 with dmEntry := 0 }

/-- `split_path` -/
def splitPath (v : Volume) (fnp : FNode) (path : Path) : Bool × FNode × Volume :=
  if path.getLast? = some backslash then (false, fnp, v) else dirOpen v fnp path true

/-- The test of `find_fname`. -/
def found (name : Name) (attr : UInt8) (e : Dirent) : Bool :=
  e.name == name && e.attrib &&& ~~~(dRdonly ||| dArchive ||| attr) == 0

/-- `find_fname` -/
def findFname (v : Volume) (fnp : FNode) (path : Path) (attr : UInt8) : ℤ × FNode × Volume :=
  let o := splitPath v fnp path
  if !o.1 then (dePathNotFnd, o.2)
  else
    let r := search (found o.2.1.dmNamePat attr) o.2.2 o.2.1
    (if r.1 = 1 then success else deFileNotFnd, r.2)

/-! ## Writing -/

/-- Put bytes into a sector, from an offset on. -/
def putBytes (disk : ℕ → ℕ → UInt8) (sector off : ℕ) (bytes : List UInt8) : ℕ → ℕ → UInt8 :=
  fun s i =>
    if s = sector ∧ off ≤ i ∧ i < off + bytes.length then bytes.getD (i - off) 0 else disk s i

/-- What `dir_write_update` puts into the sector: the whole entry, or with `update` the "fields that
are also in the SFT". -/
def putEntry (d : Dpb) (disk : ℕ → ℕ → UInt8) (sector off : ℕ) (e : Dirent) (update : Bool) :
    ℕ → ℕ → UInt8 :=
  if !update then putBytes disk sector off e.bytes
  else
    let disk := putBytes disk sector off (e.name.toList ++ [e.attrib])
    let disk := putBytes disk sector (off + 22) (word e.time ++ word e.date ++ word e.start)
    let disk := if d.isFat32 then putBytes disk sector (off + 20) (word e.startHigh) else disk
    putBytes disk sector (off + 28) (word e.size ++ word (e.size / 2 ^ 16))

/-- `flush_buffers` once a buffer for a sector has been written to, by which the sectors become
`disk`. A failure may be one of this buffer, which is thrown away then, so that the sector is as it
was, or of another one.  The first byte of the outcome tells which. -/
def flushSector (v : Volume) (disk : ℕ → ℕ → UInt8) (sector : ℕ) : Bool × Volume :=
  let a := v.access
  match a.1 with
  | none => (true, { a.2 with disk := disk })
  | some content => (false, if content sector 0 = 0 then a.2 else { a.2 with disk := disk })

/-- `dir_write_update` -/
def dirWriteUpdate (v : Volume) (fnp : FNode) (update : Bool) : Bool × Volume :=
  if !update || !(fnp.fclean && !fnp.fdate) then
    let a := v.access
    if a.1.isSome then (false, a.2)
    else
      let disk := putEntry v.dpb v.disk fnp.dirsector (fnp.diridx * 32) (swapDeleted fnp.dir) update
      flushSector a.2 disk fnp.dirsector
  else v.flushBuffers

/-- `dir_write` -/
def dirWrite (v : Volume) (fnp : FNode) : Bool × Volume := dirWriteUpdate v fnp false

/-- Mark the entry deleted. -/
def FNode.delete (fnp : FNode) : FNode := { fnp with dir := setFirst deleted fnp.dir }

/-- The loop of `remove_lfn_entries`. -/
def removeLfnLoop : ℕ → Volume → FNode → ℤ × FNode × Volume
  | 0, v, fnp => (success, fnp, v)
  | n + 1, v, fnp =>
    if fnp.dmEntry = 0 then (success, fnp, v)
    else
      let r := dirRead v { fnp with dmEntry := fnp.dmEntry - 1 }
      if r.1 ≤ 0 then (deAccess, r.2)
      else if r.2.1.dir.attrib ≠ dLfn then (success, r.2)
      else
        let fnp := FNode.delete r.2.1
        let w := dirWrite r.2.2 fnp
        if !w.1 then (deAccess, fnp, w.2) else removeLfnLoop n w.2 fnp

/-- `remove_lfn_entries`: remove the long name in front of the entry, and read the entry again. -/
def removeLfnEntries (v : Volume) (fnp : FNode) : ℤ × FNode × Volume :=
  let r := removeLfnLoop (fnp.dmEntry + 1) v fnp
  if r.1 ≠ success then r
  else
    let d := dirRead r.2.2 { r.2.1 with dmEntry := fnp.dmEntry }
    (if d.1 ≤ 0 then deAccess else success, d.2)

/-- `wipe_out` -/
def wipeOut (v : Volume) (fnp : FNode) : Volume :=
  let cluster := getdstart v.dpb fnp.dir
  if cluster ≠ free then wipeOutClusters v cluster else v

/-- `delete_dir_entry` -/
def deleteDirEntry (v : Volume) (fnp : FNode) : ℤ × Volume :=
  let r := removeLfnEntries v fnp
  if r.1 < 0 then (r.1, r.2.2)
  else
    let w := dirWrite (wipeOut r.2.2 r.2.1) (FNode.delete r.2.1)
    (if w.1 then success else deAccess, w.2)

/-- `init_direntry` -/
def initDirentry (attrib : UInt8) (cluster : ℕ) (name : Name) (time date : ℕ) : Dirent :=
  { name := name, attrib := attrib, case := 0, crtimems := 0, crtime := time, crdate := date
    accdate := 0, startHigh := cluster / 2 ^ 16 % 2 ^ 16, time := time, date := date
    start := cluster % 2 ^ 16, size := 0 }

/-! ## Free entries -/

/-- `find_free` -/
def findFree (v : Volume) (fnp : FNode) : Bool × FNode × Volume :=
  let r := search (fun e => e.name[0] == deleted) v fnp
  (decide (0 ≤ r.1), r.2)

/-- The loop of `clear_dir` over the sectors from `sector` on. -/
def clearLoop : ℕ → ℕ → Volume → ℤ × Volume
  | 0, _, v => (success, v)
  | n + 1, sector, v =>
    let a := v.access
    if a.1.isSome then (deAccess, a.2)
    else
      clearLoop n (sector + 1)
        { a.2 with disk := fun s i => if s = sector then 0 else a.2.disk s i }

/-- `clear_dir`: clear out the sectors of a cluster. -/
def clearDir (v : Volume) (cluster : ℕ) : ℤ × Volume :=
  clearLoop (v.dpb.clsmask + 1) (v.dpb.clus2phys cluster) v

/-- `extend_dir` -/
def extendDir (v : Volume) (fnp : FNode) : ℤ × FNode × Volume :=
  let cluster := extend v fnp
  if cluster.1 = longLastCluster then (deHndlDskFull, cluster.2)
  else
    let c := clearDir cluster.2.2 cluster.1
    if c.1 ≠ success then (c.1, cluster.2.1, c.2)
    else
      let f := findFree c.2 cluster.2.1
      if !f.1 then (deHndlDskFull, f.2)
      else
        let b := f.2.2.flushBuffers
        (if b.1 then success else deAccess, f.2.1, b.2)

/-- `alloc_find_free`: find a spare entry in the directory of a path, or extend the directory.  The
result of `split_path` is not looked at, and `none` is the null pointer that is used if it fails. -/
def allocFindFree (v : Volume) (fnp : FNode) (path : Path) : Option ℤ × FNode × Volume :=
  let o := splitPath v fnp path
  if !o.1 then (none, o.2)
  else
    let f := findFree o.2.2 o.2.1
    if f.1 then (some success, f.2)
    else if f.2.1.dmDircluster = 0 then (some deTooMany, f.2)
    else
      let e := extendDir f.2.2 f.2.1
      (some e.1, e.2)

/-! ## The calls

`fnode` is what is left in `fnode[0]` and `fnode[1]` by earlier calls, and `cdsCurrentPath` is the
current directory of the drive.  A result of `none` is a null pointer used, as above.
-/

/-- An entry that keeps its directory from being removed. -/
def occupied (e : Dirent) : Bool := e.name[0] != deleted && e.attrib != dLfn

/-- `dos_rmdir`, the first two entries of the directory at the fnode, which should be `.` and `..`.
The fnode goes on to the next one. -/
def dotEntries (v : Volume) (fnp : FNode) : Bool × FNode × Volume :=
  let r := (dirRead v fnp).2
  if r.1.dir.name[0] ≠ dot ∨ r.1.dir.name[1] ≠ blank then (false, r)
  else
    let r := (dirRead r.2 { r.1 with dmEntry := r.1.dmEntry + 1 }).2
    if r.1.dir.name[0] ≠ dot ∨ r.1.dir.name[1] ≠ dot then (false, r)
    else (true, { r.1 with dmEntry := r.1.dmEntry + 1 }, r.2)

/-- `dos_rmdir`, the removal of the directory once it has passed for empty. -/
def removeDir (v : Volume) (fnp : FNode) (path : Path) : ℤ × Volume :=
  let r := findFname v fnp path dAll
  if r.1 ≠ success then (dePathNotFnd, r.2.2) else deleteDirEntry r.2.2 r.2.1

/-- `dos_rmdir` -/
def dosRmdir (v : Volume) (fnode : FNode) (cdsCurrentPath path : Path) : ℤ × Volume :=
  if path = cdsCurrentPath then (deRmvCuDir, v)
  else if path.drop 2 = [backslash] then (deAccess, v)
  else
    let o := dirOpen v fnode path false
    if !o.1 then (dePathNotFnd, o.2.2)
    else if o.2.1.dir.attrib &&& ~~~(dDir ||| dRdonly ||| dArchive) ≠ 0 then (deAccess, o.2.2)
    else
      let d := dotEntries o.2.2 o.2.1
      if !d.1 then (deAccess, d.2.2)
      else
        let r := search occupied d.2.2 d.2.1
        if r.1 = 1 then (deAccess, r.2.2) else removeDir r.2.2 r.2.1 path

/-- What `dos_rename` does after both searches, to put the source entry under its new name: in
place, or by a new entry in the directory of `path2` for which the old one is deleted.  The result
is the fnode for the new entry. -/
def moveEntry (v : Volume) (fnp1 fnp2 : FNode) (path2 : Path) : Option ℤ × FNode × Volume :=
  if fnp1.dmDircluster = fnp2.dmDircluster then
    let r := removeLfnEntries v fnp1
    (some r.1, r.2)
  else if fnp1.dir.attrib &&& dDir ≠ 0 then (some deAccess, fnp2, v)
  else
    let a := allocFindFree v fnp2 path2
    if a.1 ≠ some success then a
    else
      let r := removeLfnEntries a.2.2 fnp1
      if r.1 < 0 then (some r.1, r.2)
      else
        let w := dirWrite r.2.2 (FNode.delete r.2.1)
        (some (if w.1 then success else deAccess), { a.2.1 with dir := r.2.1.dir }, w.2)

/-- `dos_rename` -/
def dosRename (v : Volume) (fnode0 fnode1 : FNode) (cdsCurrentPath path1 path2 : Path)
    (attrib : UInt8) : Option ℤ × Volume :=
  if path1 = cdsCurrentPath then (some deRmvCuDir, v)
  else
    let r1 := findFname v fnode0 path1 attrib
    if r1.1 ≠ success then (some r1.1, r1.2.2)
    else
      let r2 := findFname r1.2.2 fnode1 path2 attrib
      if r2.1 ≠ deFileNotFnd then (some (if r2.1 = success then deAccess else r2.1), r2.2.2)
      else
        let m := moveEntry r2.2.2 r1.2.1 r2.2.1 path2
        if m.1 ≠ some success then (m.1, m.2.2)
        else
          let w := dirWrite m.2.2
            { m.2.1 with dir := { m.2.1.dir with name := r2.2.1.dmNamePat } }
          (some (if w.1 then success else deAccess), w.2)

/-- `dos_mkdir`, the two entries that a new directory begins with. -/
def craftDir (v : Volume) (fnp : FNode) (freeFat parent time date : ℕ) : ℤ × Volume :=
  let fnp := { dirInitFnode v.dpb fnp freeFat with dmEntry := 0 }
  let f := (findFree v fnp).2
  let fnp := { f.1 with dir := initDirentry dDir freeFat dotName time date }
  let w := dirWrite f.2 fnp
  if !w.1 then (deAccess, w.2)
  else
    let f := findFree w.2 fnp
    let e := if f.1 then (success, f.2) else extendDir f.2.2 f.2.1
    if e.1 ≠ success then (e.1, e.2.2)
    else
      let d := e.2.2.dpb
      let parent := if d.isFat32 = true ∧ parent = d.xrootclst then 0 else parent
      let w := dirWrite e.2.2 { e.2.1 with dir := initDirentry dDir parent dotDotName time date }
      (if w.1 then success else deAccess, w.2)

/-- `dos_mkdir` -/
def dosMkdir (v : Volume) (fnode : FNode) (dir : Path) (time date : ℕ) : Option ℤ × Volume :=
  if maxCdsPath ≤ dir.length then (some dePathNotFnd, v)
  else
    let r := findFname v fnode dir dAll
    if r.1 ≠ deFileNotFnd then (some (if r.1 = success then deAccess else r.1), r.2.2)
    else
      let a := allocFindFree r.2.2 r.2.1 dir
      if a.1 ≠ some success then (a.1, a.2.2)
      else
        let freeFat := findFatFree a.2.2
        if freeFat.1 = longLastCluster then (some deHndlDskFull, freeFat.2)
        else
          let fnp := { a.2.1 with
            dir := initDirentry dDir freeFat.1 a.2.1.dmNamePat time date }
          let link := linkFat freeFat.2 freeFat.1 longLastCluster
          if link.1 ≠ 0 then (some deHndlDskFull, link.2)
          else
            let c := clearDir link.2 freeFat.1
            if c.1 ≠ success then (some c.1, c.2)
            else
              let w := dirWrite c.2 fnp
              if !w.1 then (some deAccess, w.2)
              else
                let r := craftDir w.2 fnp freeFat.1 r.2.1.dmDircluster time date
                (some r.1, r.2)

/-! ## Opening and closing files -/

/-- The access that `dos_open` checks for: an FCB is forced to read only if the file is. -/
def accessMode (flags : ℕ) (dirAttrib : UInt8) : ℕ :=
  if flags &&& oFcb ≠ 0 ∧ dirAttrib &&& dRdonly ≠ 0 then 0 else flags &&& oAccmode

/-- `dos_open`, what becomes of the file before the fnode is one for a file: the status, or an
error.  An existing file is replaced or opened, else one is created. -/
def prepareOpen (v : Volume) (fnp : FNode) (path : Path) (flags : ℕ) (attrib : UInt8) :
    Option ℤ × FNode × Volume :=
  let r := findFname v fnp path (dAll ||| attrib)
  if r.1 = success then
    let dirAttrib := r.2.1.dir.attrib
    if flags &&& oTrunc ≠ 0 then
      if dirAttrib &&& (dRdonly ||| dDir ||| dVolid) ≠ 0 ∨
          dirAttrib &&& ~~~dArchive &&& ~~~attrib ≠ 0 then (some deAccess, r.2)
      else (some sReplaced, r.2.1, wipeOut r.2.2 r.2.1)
    else if flags &&& oOpen ≠ 0 then
      if dirAttrib &&& (dDir ||| dVolid) ≠ 0 ∨
          dirAttrib &&& dRdonly ≠ 0 ∧ accessMode flags dirAttrib ≠ 0 then (some deAccess, r.2)
      else (some sOpened, r.2)
    else (some deFileExists, r.2)
  else if r.1 = deFileNotFnd ∧ flags &&& oCreat ≠ 0 then
    let a := allocFindFree r.2.2 r.2.1 path
    (if a.1 = some success then some sCreated else a.1, a.2)
  else (some r.1, r.2)

/-- The fnode changes to one for a file. -/
def FNode.toFile (fnp : FNode) (fd : ℕ) : FNode :=
  { fnp with sftIdx := fd, offset := 0, clusterOffset := 0, fdate := false, fclean := true }

/-- `dos_open` -/
def dosOpen (s : System) (path : Path) (flags : ℕ) (attrib : UInt8) (fd : ℕ) : Option ℤ × System :=
  let p := prepareOpen s.vol (sftToFnode s fd) path flags attrib
  let s := { s with vol := p.2.2 }
  match p.1 with
  | none => (none, s)
  | some status =>
    if status < 0 then (some status, s)
    else
      let fnp := FNode.toFile p.2.1 fd
      if status = sOpened then
        let fnp := collectFileChanges s fnp
        let fnp := { fnp with cluster := getdstart s.vol.dpb fnp.dir }
        (some status, fnodeToSft s fnp)
      else
        let dir := initDirentry attrib free fnp.dmNamePat s.time s.date
        let fnp := { fnp with dir := dir }
        let w := dirWrite s.vol fnp
        let s := { s with vol := w.2 }
        if !w.1 then (some deAccess, s)
        else
          let s := mergeFileChanges s fnp
          (some status, fnodeToSft s { fnp with cluster := getdstart s.vol.dpb fnp.dir })

/-- The time stamp that `dos_close` gives a file that was written to. -/
def FNode.stamp (fnp : FNode) (time date : ℕ) : FNode :=
  if fnp.fdate then fnp else { fnp with dir := { fnp.dir with time := time, date := date } }

/-- `dos_close` -/
def dosClose (s : System) (fd : ℕ) : ℤ × System :=
  let fnp := sftToFnode s fd
  let fnp := if fnp.fclean then fnp else FNode.stamp fnp s.time s.date
  let s := if fnp.fclean then s else mergeFileChanges s fnp
  let w := dirWriteUpdate s.vol { fnp with sftIdx := 0xff } true
  (if w.1 then success else deInvldHndl, { s with vol := w.2 })

end Dir
end BurdahDos
