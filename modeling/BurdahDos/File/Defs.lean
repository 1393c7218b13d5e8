import BurdahDos.Fat.Defs
import Mathlib

/-!
# Open files

The functions of `kernel/fatfs.c` behind a handle: `rwblock` and `dos_close`, with what they need
to follow, extend and cut the chain of a file.  A system file table entry (SFT) is what remains of
an open file between calls.  A call copies it into an fnode, works on that, and copies it back, at
least on most of its ways out.

There is one volume.  SFTs that are open on another drive have another `dcb`.

Offsets and sizes are `ULONG`.  They are natural numbers here, as none of the sums below exceeds `2
^ 32`, apart from the one that `rwblock` tests for it.
-/

set_option autoImplicit false

namespace BurdahDos
namespace File

open Fat

/-! ## Return codes and attributes -/

/-- `SUCCESS` -/
def success : ℤ := 0
/-- `DE_ACCESS` -/
def deAccess : ℤ := -5
/-- `DE_INVLDHNDL` -/
def deInvldHndl : ℤ := -6
/-- `DE_SEEK` -/
def deSeek : ℤ := -25
/-- `DE_HNDLDSKFULL` -/
def deHndlDskFull : ℤ := -28

/-- `D_RDONLY` -/
def dRdonly : UInt8 := 0x01
/-- `D_VOLID` -/
def dVolid : UInt8 := 0x08
/-- `D_DIR` -/
def dDir : UInt8 := 0x10
/-- `D_ARCHIVE` -/
def dArchive : UInt8 := 0x20

/-- `XFR_READ` and `XFR_WRITE` -/
inductive XfrMode where
  | read
  | write
  deriving DecidableEq

/-! ## Directory entries -/

/-- A name in FCB format. -/
abbrev Name := Vector UInt8 11

/-- `struct dirent` -/
structure Dirent where
  name : Name
  attrib : UInt8
  case : UInt8
  crtimems : UInt8
  crtime : ℕ
  crdate : ℕ
  accdate : ℕ
  startHigh : ℕ
  time : ℕ
  date : ℕ
  start : ℕ
  size : ℕ

/-- `getdstart` -/
def getdstart (d : Dpb) (dentry : Dirent) : ℕ :=
  if d.isFat32 then dentry.startHigh * 2 ^ 16 + dentry.start else dentry.start

/-- `setdstart` -/
def setdstart (d : Dpb) (dentry : Dirent) (value : ℕ) : Dirent :=
  { dentry with
    start := value % 2 ^ 16
    startHigh := if d.isFat32 then value / 2 ^ 16 % 2 ^ 16 else dentry.startHigh }

/-- The two bytes of a word. -/
def word (w : ℕ) : List UInt8 := [UInt8.ofNat w, UInt8.ofNat (w / 256)]

/-- `putdirent`: the 32 bytes of an entry. -/
def Dirent.bytes (e : Dirent) : List UInt8 :=
  e.name.toList ++ [e.attrib, e.case, e.crtimems] ++ word e.crtime ++ word e.crdate ++
    word e.accdate ++ word e.startHigh ++ word e.time ++ word e.date ++ word e.start ++
    word e.size ++ word (e.size / 2 ^ 16)

/-- `getdirent`, from 32 bytes. -/
def Dirent.ofBytes (b : ℕ → UInt8) : Dirent :=
  let word (i : ℕ) : ℕ := (b i).toNat + 256 * (b (i + 1)).toNat
  { name := Vector.ofFn fun i => b i
    attrib := b 11
    case := b 12
    crtimems := b 13
    crtime := word 14
    crdate := word 16
    accdate := word 18
    startHigh := word 20
    time := word 22
    date := word 24
    start := word 26
    size := word 28 + 2 ^ 16 * word 30 }

/-! ## SFTs and fnodes -/

/-- A system file table entry. -/
structure Sft where
  count : ℕ
  mode : ℕ
  attrib : UInt8
  /-- `SFT_FCLEAN`: not written to. -/
  fclean : Bool
  /-- `SFT_FDATE`: the date was set. -/
  fdate : Bool
  /-- The drive it is open on. -/
  dcb : ℕ
  stclust : ℕ
  time : ℕ
  date : ℕ
  size : ℕ
  posit : ℕ
  relclust : ℕ
  dirsector : ℕ
  diridx : ℕ
  name : Name
  cuclust : ℕ

/-- `struct f_node`, with what it uses of its `dmatch`. -/
structure FNode where
  fclean : Bool
  fdate : Bool
  dir : Dirent
  dirsector : ℕ
  diridx : ℕ
  dcb : ℕ
  offset : ℕ
  clusterOffset : ℕ
  cluster : ℕ
  sftIdx : ℕ
  dmDircluster : ℕ
  dmEntry : ℕ
  dmNamePat : Name

/-- What the functions work on: a volume and the SFTs, the first `total` of a function, whether
SHARE is installed, and the clock. -/
structure System where
  vol : Volume
  sft : ℕ → Sft
  total : ℕ
  shareInstalled : Bool
  time : ℕ
  date : ℕ

/-- `sft_to_fnode`.  What it leaves alone in the fnode is nothing that is used before it is set. -/
def sftToFnode (s : System) (fd : ℕ) : FNode :=
  let sft := s.sft fd
  let dir : Dirent :=
    { name := sft.name, attrib := sft.attrib, case := 0, crtimems := 0, crtime := 0, crdate := 0
      accdate := 0, startHigh := 0, time := sft.time, date := sft.date, start := 0
      size := sft.size }
  { fclean := sft.fclean
    fdate := sft.fdate
    dir := setdstart s.vol.dpb dir sft.stclust
    dirsector := sft.dirsector
    diridx := sft.diridx
    dcb := sft.dcb
    offset := sft.posit
    clusterOffset := sft.relclust
    cluster := sft.cuclust
    sftIdx := fd
    dmDircluster := 0
    dmEntry := 0
    dmNamePat := sft.name }

/-- `fnode_to_sft` -/
def fnodeToSft (s : System) (fnp : FNode) : System :=
  let sft := s.sft fnp.sftIdx
  { s with
    sft := Function.update s.sft fnp.sftIdx
      { sft with
        fclean := fnp.fclean
        fdate := fnp.fdate
        attrib := fnp.dir.attrib
        name := fnp.dir.name
        time := fnp.dir.time
        date := fnp.dir.date
        size := fnp.dir.size
        stclust := getdstart s.vol.dpb fnp.dir
        diridx := fnp.diridx
        dirsector := fnp.dirsector
        dcb := fnp.dcb
        posit := fnp.offset
        cuclust := fnp.cluster
        relclust := fnp.clusterOffset } }

/-- "Same file, but different FD". -/
def FNode.sameFile (fnp : FNode) (i : ℕ) (sft : Sft) : Bool :=
  i != fnp.sftIdx && sft.count != 0 && fnp.dcb == sft.dcb && fnp.dir.attrib &&& dVolid == 0 &&
    sft.attrib &&& dVolid == 0 && fnp.diridx == sft.diridx && fnp.dirsector == sft.dirsector

/-- `merge_file_changes` with `collect` false: tell the other SFTs that are open on the file, if
SHARE is installed. -/
def mergeFileChanges (s : System) (fnp : FNode) : System :=
  { s with
    sft := fun i =>
      if s.shareInstalled && decide (i < s.total) && fnp.sameFile i (s.sft i) then
        { s.sft i with
          stclust := getdstart s.vol.dpb fnp.dir
          size := fnp.dir.size
          date := fnp.dir.date
          time := fnp.dir.time }
      else s.sft i }

/-- `merge_file_changes` with `collect` true: ask the first other SFT that may have changed the
file. -/
def collectFileChanges (s : System) (fnp : FNode) : FNode :=
  if !s.shareInstalled then fnp
  else
    match (List.range s.total).find? fun i =>
        fnp.sameFile i (s.sft i) && (s.sft i).mode &&& 3 != 0 with
    | none => fnp
    | some i =>
      let sft := s.sft i
      { fnp with
        dir := { setdstart s.vol.dpb fnp.dir sft.stclust with
          size := sft.size, date := sft.date, time := sft.time } }

/-! ## Following and extending a chain -/

/-- `extend`: extend a file or directory by one cluster. -/
def extend (v : Volume) (fnp : FNode) : ℕ × FNode × Volume :=
  let freeFat := findFatFree v
  if freeFat.1 = longLastCluster then (longLastCluster, fnp, freeFat.2)
  else
    let link := linkFat freeFat.2 freeFat.1 longLastCluster
    if link.1 ≠ 0 then (longLastCluster, fnp, link.2)
    else if fnp.cluster = free then
      (freeFat.1, { fnp with dir := setdstart link.2.dpb fnp.dir freeFat.1 }, link.2)
    else
      let next := nextCluster link.2 fnp.cluster
      -- "FAT chain size bad!"
      if next.1 ≠ longLastCluster then (longLastCluster, fnp, next.2)
      else
        let link := linkFat next.2 fnp.cluster freeFat.1
        if link.1 ≠ 0 then (longLastCluster, fnp, link.2) else (freeFat.1, fnp, link.2)

/-- One turn of the loop of `map_cluster`: go to the next cluster, which may have to be added. -/
def stepCluster (v : Volume) (fnp : FNode) (mode : XfrMode) : ℤ × FNode × Volume :=
  let next := nextCluster v fnp.cluster
  if next.1 ≤ 1 then (deSeek, fnp, next.2)
  else if next.1 = longLastCluster then
    if mode = .read then (deSeek, fnp, next.2)
    else
      let r := extend next.2 fnp
      if r.1 = longLastCluster then (deHndlDskFull, r.2)
      else (success, { r.2.1 with cluster := r.1, clusterOffset := fnp.clusterOffset + 1 }, r.2.2)
  else (success, { fnp with cluster := next.1, clusterOffset := fnp.clusterOffset + 1 }, next.2)

/-- The loop of `map_cluster`, with the number of turns it takes. -/
def mapLoop (mode : XfrMode) : ℕ → FNode → Volume → ℤ × FNode × Volume
  | 0, fnp, v => (success, fnp, v)
  | n + 1, fnp, v =>
    let r := stepCluster v fnp mode
    if r.1 ≠ success then r else mapLoop mode n r.2.1 r.2.2

/-- The cluster of the file, counted from its first one, that has the byte at `f_offset`. -/
def FNode.relcluster (fnp : FNode) (d : Dpb) : ℕ := (fnp.offset / d.secsize) >>> d.shftcnt

/-- If the seek is to earlier in the file than the current position, follow the chain from the
beginning again. -/
def FNode.rewind (fnp : FNode) (d : Dpb) : FNode :=
  if fnp.relcluster d < fnp.clusterOffset then
    { fnp with
      cluster := if fnp.sftIdx = 0xff then fnp.dmDircluster else getdstart d fnp.dir
      clusterOffset := 0 }
  else fnp

/-- `map_cluster` once the fnode has a cluster. -/
def seekCluster (v : Volume) (fnp : FNode) (mode : XfrMode) : ℤ × FNode × Volume :=
  let fnp := fnp.rewind v.dpb
  mapLoop mode (fnp.relcluster v.dpb - fnp.clusterOffset) fnp v

/-- `map_cluster`: find the cluster with the byte at `f_offset`, extending the chain for it when
writing. -/
def mapCluster (v : Volume) (fnp : FNode) (mode : XfrMode) : ℤ × FNode × Volume :=
  if fnp.cluster = free then
    if mode = .read then (deSeek, fnp, v)
    else
      let r := extend v fnp
      if r.1 = longLastCluster then (deHndlDskFull, r.2)
      else seekCluster r.2.2 { r.2.1 with cluster := r.1 } mode
  else seekCluster v fnp mode

/-! ## Growing and cutting a file -/

/-- Set `f_offset`. -/
def FNode.seek (fnp : FNode) (offset : ℕ) : FNode := { fnp with offset := offset }

/-- Set `f_dir.dir_size`. -/
def FNode.setSize (fnp : FNode) (size : ℕ) : FNode :=
  { fnp with dir := { fnp.dir with size := size } }

/-- The size of a file of which nothing is known but that its chain ends at the current cluster. -/
def FNode.fullSize (fnp : FNode) (d : Dpb) : ℕ :=
  (((fnp.clusterOffset + 1) * d.secsize) <<< d.shftcnt) % 2 ^ 32

/-- `dos_extend`: extend a file from `dir_size` to `f_offset`. -/
def dosExtend (s : System) (fnp : FNode) (emptywrite : Bool) : ℤ × FNode × System :=
  if fnp.offset ≤ fnp.dir.size then (success, fnp, s)
  else
    -- an empty write does not need the cluster that begins at `f_offset`
    let offset := if emptywrite &&
      fnp.offset &&& ((s.vol.dpb.secsize <<< s.vol.dpb.shftcnt) - 1) == 0 then fnp.offset - 1
      else fnp.offset
    let r := mapCluster s.vol (fnp.seek offset) .write
    let s := { s with vol := r.2.2 }
    let fnp := r.2.1.seek fnp.offset
    if r.1 ≠ success then
      if fnp.cluster ≠ free then
        let fnp := fnp.setSize (fnp.fullSize s.vol.dpb)
        (deHndlDskFull, fnp, mergeFileChanges s fnp)
      else (deHndlDskFull, fnp, s)
    else
      let fnp := fnp.setSize fnp.offset
      (success, fnp, mergeFileChanges s fnp)

/-- `shrink_file` once the last cluster to keep is current: `next` is the one after it. -/
def cutAfter (v : Volume) (fnp : FNode) (next : ℕ) : ℤ × FNode × Volume :=
  let st := fnp.cluster
  if fnp.dir.size ≠ 0 ∧ next = longLastCluster then (success, fnp, v)
  else
    let last := if fnp.dir.size = 0 then free else longLastCluster
    let fnp := if fnp.dir.size = 0 then
      { fnp with cluster := free, dir := setdstart v.dpb fnp.dir free } else fnp
    let link := linkFat v st last
    if link.1 ≠ 0 then (deAccess, fnp, link.2)
    else
      let r := (wipeOutClusters link.2 next).flushBuffers
      (if r.1 then success else deAccess, fnp, r.2)

/-- `shrink_file`: free the clusters behind the end of the file, which is at `f_offset`. -/
def shrinkFile (v : Volume) (fnp : FNode) : ℤ × FNode × Volume :=
  let lastoffset := fnp.offset
  if fnp.offset = 0 ∧ fnp.cluster = free then (success, fnp, v)
  else
    let r := mapCluster v (fnp.seek (fnp.offset - 1)) .read
    if r.1 ≠ success then (deAccess, r.2.1.seek lastoffset, r.2.2)
    else
      let next := nextCluster r.2.2 r.2.1.cluster
      if next.1 ≤ 1 then (deAccess, r.2.1.seek lastoffset, next.2)
      else
        let c := cutAfter next.2 r.2.1 next.1
        (c.1, c.2.1.seek lastoffset, c.2.2)

/-! ## Transfers -/

/-- How a turn of the loop of `rwblock` ends: the call returns, or so many bytes are done. -/
inductive Turn where
  | exit (ret : ℤ)
  | transferred (xfrCnt : ℕ)

/-- The caller's buffer. -/
abbrev Bytes := ℕ → UInt8

/-- The loop of `rwblock` that adds clusters to a transfer as long as they are on the disk behind
one another.  It is given the number of sectors so far. -/
def coalesce (mode : XfrMode) (currentblock startoffset sectorsWanted : ℕ) :
    ℕ → ℕ → FNode → Volume → ℕ × FNode × Volume
  | 0, sectors, fnp, v => (sectors, fnp, v)
  | n + 1, sectors, fnp, v =>
    if sectors < sectorsWanted then
      let r := mapCluster v fnp mode
      if r.1 ≠ success then (sectors, r.2)
      else if r.2.2.dpb.clus2phys r.2.1.cluster ≠ currentblock + sectors then (sectors, r.2)
      else
        let sectors := min (sectors + r.2.2.dpb.clsmask + 1) sectorsWanted
        coalesce mode currentblock startoffset sectorsWanted n sectors
          (r.2.1.seek (startoffset + sectors * r.2.2.dpb.secsize)) r.2.2
    else (sectors, fnp, v)

/-- `dskxfer` on `sectors` sectors from `currentblock` on, to or from the buffer at `pos`. -/
def dskxfer (v : Volume) (mode : XfrMode) (currentblock sectors : ℕ) (buffer : Bytes) (pos : ℕ) :
    Bool × Bytes × Volume :=
  let a := v.access
  let v := a.2
  let secsize := v.dpb.secsize
  match mode with
  | .read =>
    let content := a.1.getD v.disk
    let buffer := fun i =>
      if pos ≤ i ∧ i < pos + sectors * secsize then
        content (currentblock + (i - pos) / secsize) ((i - pos) % secsize)
      else buffer i
    (a.1.isNone, buffer, v)
  | .write =>
    let content := a.1.getD fun sector i => buffer (pos + (sector - currentblock) * secsize + i)
    let disk := fun sector i =>
      if currentblock ≤ sector ∧ sector < currentblock + sectors ∧ i < secsize then
        content sector i
      else v.disk sector i
    (a.1.isNone, buffer, { v with disk := disk })

/-- A turn that transfers complete sectors directly. -/
def directXfer (v : Volume) (fnp : FNode) (mode : XfrMode) (buffer : Bytes) (ret : ℕ)
    (currentblock sector sectorsWanted : ℕ) : Turn × FNode × Bytes × Volume :=
  let startoffset := fnp.offset
  let secsize := v.dpb.secsize
  let first := min (v.dpb.clsmask + 1 - sector) sectorsWanted
  let r := coalesce mode currentblock startoffset sectorsWanted sectorsWanted first
    (fnp.seek (startoffset + first * secsize)) v
  let x := dskxfer r.2.2 mode currentblock r.1 buffer ret
  if !x.1 then (.exit deAccess, r.2.1.seek startoffset, x.2)
  else (.transferred (r.1 * secsize), r.2.1, x.2)

/-- A turn that goes through a sector buffer. -/
def normalXfer (v : Volume) (fnp : FNode) (mode : XfrMode) (buffer : Bytes) (ret toXfer : ℕ)
    (currentblock boff : ℕ) : Turn × FNode × Bytes × Volume :=
  let a := v.access
  let v := a.2
  if a.1.isSome then (.exit ret, fnp, buffer, v)
  else
    match mode with
    | .write =>
      let xfrCnt := min toXfer (v.dpb.secsize - boff)
      let disk := fun sector i =>
        if sector = currentblock ∧ boff ≤ i ∧ i < boff + xfrCnt then buffer (ret + (i - boff))
        else v.disk sector i
      (.transferred xfrCnt, fnp.seek (fnp.offset + xfrCnt), buffer, { v with disk := disk })
    | .read =>
      let xfrCnt := min (min toXfer (v.dpb.secsize - boff)) (fnp.dir.size - fnp.offset)
      let buffer := fun i =>
        if ret ≤ i ∧ i < ret + xfrCnt then v.disk currentblock (boff + (i - ret)) else buffer i
      (.transferred xfrCnt, fnp.seek (fnp.offset + xfrCnt), buffer, v)

/-- How much there is to transfer, "to avoid EOF problems". -/
def FNode.wanted (fnp : FNode) (toXfer : ℕ) : XfrMode → ℕ
  | .read => min toXfer (fnp.dir.size - fnp.offset)
  | .write => toXfer

/-- The transfer of a turn, the fnode being at its cluster. -/
def xfer (v : Volume) (fnp : FNode) (mode : XfrMode) (buffer : Bytes) (ret toXfer : ℕ) :
    Turn × FNode × Bytes × Volume :=
  let secsize := v.dpb.secsize
  let sector := fnp.offset / secsize % 256 &&& v.dpb.clsmask
  let boff := fnp.offset % secsize
  let currentblock := v.dpb.clus2phys fnp.cluster + sector
  let sectorsWanted := fnp.wanted toXfer mode / secsize
  if boff = 0 ∧ sectorsWanted ≠ 0 then
    directXfer v fnp mode buffer ret currentblock sector sectorsWanted
  else normalXfer v fnp mode buffer ret toXfer currentblock boff

/-- One turn of the loop of `rwblock`.  `ret` bytes are done and `toXfer` are to do. -/
def rwTurn (s : System) (fnp : FNode) (mode : XfrMode) (buffer : Bytes) (ret toXfer : ℕ) :
    Turn × FNode × Bytes × System :=
  if mode = .read ∧ fnp.dir.size ≤ fnp.offset then (.exit ret, fnp, buffer, s)
  else
    let m := mapCluster s.vol fnp mode
    let s := { s with vol := m.2.2 }
    if m.1 ≠ success then (.exit ret, m.2.1, buffer, s)
    else
      let s := if mode = .write then mergeFileChanges s m.2.1 else s
      let x := xfer s.vol m.2.1 mode buffer ret toXfer
      (x.1, x.2.1, x.2.2.1, { s with vol := x.2.2.2 })

/-- What follows a transfer: a write may have moved the end of the file. -/
def afterXfer (s : System) (fnp : FNode) : XfrMode → FNode × System
  | .read => (fnp, s)
  | .write =>
    let fnp := if fnp.offset > fnp.dir.size then fnp.setSize fnp.offset else fnp
    (fnp, mergeFileChanges s fnp)

/-- The loop of `rwblock`; each turn but the last transfers something. -/
def rwLoop (mode : XfrMode) : ℕ → System → FNode → Bytes → ℕ → ℕ → ℤ × FNode × Bytes × System
  | 0, s, fnp, buffer, ret, _ => (ret, fnp, buffer, s)
  | n + 1, s, fnp, buffer, ret, toXfer =>
    if toXfer = 0 then (ret, fnp, buffer, s)
    else
      let t := rwTurn s fnp mode buffer ret toXfer
      match t.1 with
      | .exit code => (code, t.2)
      | .transferred xfrCnt =>
        let a := afterXfer t.2.2.2 t.2.1 mode
        rwLoop mode n a.2 a.1 t.2.2.1 (ret + xfrCnt) (toXfer - xfrCnt)

/-- `rwblock` after `dos_extend`.  The SFT is as it was where a failed `shrink_file` or an offset
that overflows ends it. -/
def rwTransfer (s : System) (fnp : FNode) (buffer : Bytes) (count : ℕ) (mode : XfrMode) :
    ℤ × Bytes × System :=
  if count = 0 then
    match mode with
    | .read => (0, buffer, fnodeToSft s fnp)
    | .write =>
      let r := shrinkFile s.vol (fnp.setSize fnp.offset)
      let s := { s with vol := r.2.2 }
      if r.1 < 0 then (deAccess, buffer, s) else (0, buffer, fnodeToSft s r.2.1)
  else if (fnp.offset + count) % 2 ^ 32 < fnp.offset ∧ mode = .write then
    (deHndlDskFull, buffer, s)
  else
    let r := rwLoop mode count s fnp buffer 0 count
    (r.1, r.2.2.1, fnodeToSft r.2.2.2 r.2.1)

/-- What a write does to the fnode first: the file is to be archived, and its date set. -/
def FNode.modified (fnp : FNode) : FNode :=
  { fnp with
    dir := { fnp.dir with attrib := fnp.dir.attrib ||| dArchive }
    fclean := false
    fdate := false }

/-- `rwblock`: read or write `count` bytes at the position of an SFT. -/
def rwblock (s : System) (fd : ℕ) (buffer : Bytes) (count : UInt16) (mode : XfrMode) :
    ℤ × Bytes × System :=
  let fnp := sftToFnode s fd
  match mode with
  | .read => rwTransfer s fnp buffer count.toNat .read
  | .write =>
    let r := dosExtend s fnp.modified (count == 0)
    if r.1 ≠ success then (0, buffer, fnodeToSft r.2.2 r.2.1)
    else rwTransfer r.2.2 r.2.1 buffer count.toNat .write

end File
end BurdahDos
