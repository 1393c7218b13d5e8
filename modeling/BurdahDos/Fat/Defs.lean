import Mathlib

/-!
# The file allocation table

`kernel/fattab.c`, and the functions of `kernel/fatfs.c` that search the table for a free cluster
and free a chain.  The table is kept by entries: `fat c` is the number stored for cluster `c`, of
12, 16 or 28 bits, and `Dpb.decode` is what `link_fat` makes of it.  How the entries are packed into
sectors is left out.

Sectors are a plain array of bytes.  `Cache` has the buffers in front of them and what makes them
one.  A volume also holds the outcomes of the sector accesses to come, apart for the table and for
all the rest; once these are used up, accesses succeed.

An access to the table that fails is one that cannot read its sector, and leaves the table as it was.
Two things that a failing transfer may do through the buffers are left out.  A changed sector of the
table that cannot be written back is lost with its buffer (`flush1`), so that the table is again what
it was on the disk: `Dir.Lost` is about that.  And a read that fails leaves its bytes in a buffer
which still counts as another sector (`getblk`): `Cache.staleVictim_reads` shows it.

`write_fsinfo` copies two fields of the DPB to a sector that nothing here reads, and is left out.
-/

set_option autoImplicit false

namespace BurdahDos
namespace Fat

/-! ## Cluster numbers -/

/-- `FREE` -/
def free : ℕ := 0
/-- `READ_CLUSTER`: an impossible `Cluster2`. -/
def readCluster : ℕ := 1
/-- `LONG_LAST_CLUSTER` -/
def longLastCluster : ℕ := 0x0FFFFFFF
/-- `LONG_BAD` -/
def longBad : ℕ := 0x0FFFFFF7
/-- `MASK16` -/
def mask16 : ℕ := 0xFFF8
/-- `BAD16` -/
def bad16 : ℕ := 0xFFF7
/-- `MASK12` -/
def mask12 : ℕ := 0xFF8
/-- `BAD12` -/
def bad12 : ℕ := 0xFF7
/-- `FAT_MAGIC` -/
def fatMagic : ℕ := 4085
/-- `FAT_MAGIC16` -/
def fatMagic16 : ℕ := 65525
/-- `UNKNCLUSTER` -/
def unknCluster : ℕ := 0
/-- `UNKNCLSTFREE` -/
def unknClstFree : ℕ := 0xFFFF
/-- `XUNKNCLSTFREE` -/
def xunknClstFree : ℕ := 0xFFFFFFFF

/-! ## The drive parameter block -/

/-- `struct dpb` -/
structure Dpb where
  unit : ℕ
  secsize : ℕ
  /-- Sectors per cluster, less one. -/
  clsmask : ℕ
  /-- Log base 2 of the sectors per cluster. -/
  shftcnt : ℕ
  /-- Number of entries of the root directory. -/
  dirents : ℕ
  /-- Start of the data area. -/
  data : ℕ
  /-- Number of clusters and one more: the last cluster.  It is 0 for FAT32. -/
  size : ℕ
  fatsize : ℕ
  /-- Start sector of the root directory. -/
  dirstrt : ℕ
  /-- Where to look for a free cluster first. -/
  cluster : ℕ
  /-- Number of free clusters; its low word is `dpb_nfreeclst`. -/
  xnfreeclst : ℕ
  xdata : ℕ
  xsize : ℕ
  xrootclst : ℕ
  xcluster : ℕ

/-- `ISFAT32` -/
def Dpb.isFat32 (d : Dpb) : Bool := d.fatsize == 0

/-- `ISFAT12`; the difference `dpb_size - 1` is unsigned, and `dpb_size` is 0 for FAT32. -/
def Dpb.isFat12 (d : Dpb) : Bool := 0 < d.size && d.size ≤ fatMagic

/-- `ISFAT16` -/
def Dpb.isFat16 (d : Dpb) : Bool := fatMagic < d.size && d.size ≤ fatMagic16

/-- `max_cluster` -/
def Dpb.maxCluster (d : Dpb) : ℕ := if d.isFat32 then d.xsize else d.size

/-- `dpb_cluster` or `dpb_xcluster` -/
def Dpb.hint (d : Dpb) : ℕ := if d.isFat32 then d.xcluster else d.cluster

def Dpb.setHint (d : Dpb) (c : ℕ) : Dpb :=
  if d.isFat32 then { d with xcluster := c } else { d with cluster := c % 65536 }

/-- `clus2phys` -/
def Dpb.clus2phys (d : Dpb) (clNo : ℕ) : ℕ :=
  let data := if d.isFat32 then d.xdata else d.data
  (((clNo - 2) <<< d.shftcnt) + data) % 2 ^ 32

/-- What `link_fat` returns for an entry of the table; 1 if the DPB is bad. -/
def Dpb.decode (d : Dpb) (raw : ℕ) : ℕ :=
  if d.isFat12 then
    if raw ≥ mask12 then longLastCluster else if raw = bad12 then longBad else raw
  else if d.isFat16 then
    if raw ≥ mask16 then longLastCluster else if raw = bad16 then longBad else raw
  else if d.isFat32 then
    if raw > longBad then longLastCluster else raw
  else 1

/-- What `link_fat` writes to an entry of the table. -/
def Dpb.encode (d : Dpb) (cluster2 : ℕ) : ℕ :=
  if d.isFat12 then cluster2 % 2 ^ 12
  else if d.isFat16 then cluster2 % 2 ^ 16
  else cluster2 % 2 ^ 28

/-- The update of the free space count, with `adjust` modulo the width of the count. -/
def Dpb.adjustFree (d : Dpb) (wasfree : Bool) (cluster2 : ℕ) : Dpb :=
  if cluster2 = free ∨ wasfree then
    let adjust := if !wasfree then 1 else if cluster2 ≠ free then 2 ^ 32 - 1 else 0
    if d.isFat32 && d.xnfreeclst != xunknClstFree then
      { d with xnfreeclst := (d.xnfreeclst + adjust) % 2 ^ 32 }
    else
      let low := d.xnfreeclst % 2 ^ 16
      if low ≠ unknClstFree then
        { d with xnfreeclst := d.xnfreeclst - low + (low + adjust) % 2 ^ 16 }
      else d
  else d

/-! ## Volumes -/

/-- What becomes of a sector access: it succeeds, or fails and leaves these bytes in the sectors or
the memory that it should have filled.  No other sector changes. -/
abbrev Outcome := Option (ℕ → ℕ → UInt8)

/-- A volume. -/
structure Volume where
  dpb : Dpb
  /-- The entries of the table. -/
  fat : ℕ → ℕ
  /-- The bytes of the sectors. -/
  disk : ℕ → ℕ → UInt8
  /-- Whether the accesses to the table to come succeed.  Those that fail are reads, of sectors that
  are in no buffer. -/
  fatOutcomes : List Bool
  /-- The outcomes of the other transfers to come. -/
  outcomes : List Outcome

/-- What `link_fat` reads for a cluster. -/
def Volume.entry (v : Volume) (c : ℕ) : ℕ := v.dpb.decode (v.fat c)

/-- `getFATblock`; if it fails the table stays as it is. -/
def Volume.getFATblock (v : Volume) : Bool × Volume :=
  match v.fatOutcomes with
  | [] => (true, v)
  | ok :: rest => (ok, { v with fatOutcomes := rest })

/-- The outcome of the next transfer that is not of the table. -/
def Volume.access (v : Volume) : Outcome × Volume :=
  match v.outcomes with
  | [] => (none, v)
  | r :: rest => (r, { v with outcomes := rest })

/-- `flush_buffers`; if it fails, no changed sector of the table is among those that are lost. -/
def Volume.flushBuffers (v : Volume) : Bool × Volume :=
  let r := v.access
  (r.1.isNone, r.2)

/-- The writing half of `link_fat`. -/
def Volume.setEntry (v : Volume) (cluster1 cluster2 : ℕ) : Volume :=
  { v with
    fat := Function.update v.fat cluster1 (v.dpb.encode cluster2)
    dpb := v.dpb.adjustFree (v.fat cluster1 == free) cluster2 }

/-- `link_fat`: read the entry of `Cluster1`, if `Cluster2` is `READ_CLUSTER`, or write it. -/
def linkFat (v : Volume) (cluster1 cluster2 : ℕ) : ℕ × Volume :=
  if cluster1 ≤ 1 ∨ cluster1 > v.dpb.maxCluster then (1, v)
  else if cluster2 < longBad ∧ cluster2 > v.dpb.maxCluster then (1, v)
  else
    let r := v.getFATblock
    if !r.1 then (1, r.2)
    else if !(v.dpb.isFat12 || v.dpb.isFat16 || v.dpb.isFat32) then (1, r.2)
    else if cluster2 = readCluster then (r.2.entry cluster1, r.2)
    else (0, r.2.setEntry cluster1 cluster2)

/-- `next_cluster`: the next cluster in the chain or 0 if there is no chain, 1 on error,
`LONG_LAST_CLUSTER` at the end. -/
def nextCluster (v : Volume) (clusterNum : ℕ) : ℕ × Volume :=
  let candidate := linkFat v clusterNum readCluster
  if candidate.1 < 2 ∨ candidate.1 ≥ longBad then candidate
  else
    let following := linkFat candidate.2 candidate.1 readCluster
    if following.1 < 2 ∨ following.1 < longBad ∧ following.1 > v.dpb.maxCluster then
      (1, following.2)
    else (candidate.1, following.2)

/-- `is_free_cluster` -/
def isFreeCluster (v : Volume) (clusterNum : ℕ) : Bool × Volume :=
  let r := linkFat v clusterNum readCluster
  (r.1 == free, r.2)

/-- The cluster that `find_fat_free` looks at after `idx`. -/
def nextIdx (size idx : ℕ) : ℕ := if idx + 1 > size then 2 else idx + 1

/-- The loop of `find_fat_free`, which began at `cluster`: the free cluster if there is one.  If it
began at a cluster of the volume, it makes less than `size` turns. -/
def searchFree (size cluster : ℕ) : ℕ → ℕ → Volume → Option ℕ × Volume
  | 0, _, v => (none, v)
  | n + 1, idx, v =>
    let r := isFreeCluster v idx
    if r.1 then (some idx, r.2)
    else
      if nextIdx size idx = cluster then (none, r.2)
      else searchFree size cluster n (nextIdx size idx) r.2

/-- `find_fat_free`: find a free cluster, `LONG_LAST_CLUSTER` if the disk is full. -/
def findFatFree (v : Volume) : ℕ × Volume :=
  let idx := if v.dpb.hint ≠ unknCluster then v.dpb.hint else 2
  let size := v.dpb.maxCluster
  let r := searchFree size idx size idx v
  match r.1 with
  | some idx => (idx, { r.2 with dpb := r.2.dpb.setHint idx })
  | none => (longLastCluster, { r.2 with dpb := r.2.dpb.setHint unknCluster })

/-- The start of free space is not behind `st`. -/
def Volume.lowerHint (v : Volume) (st : ℕ) : Volume :=
  let d := v.dpb
  if d.hint = unknCluster ∨ d.hint > (if d.isFat32 then st else st % 65536) then
    { v with dpb := d.setHint st }
  else v

/-- The loop of `wipe_out_clusters`; each turn frees a cluster. -/
def wipeLoop : ℕ → ℕ → Volume → Volume
  | 0, _, v => v
  | n + 1, st, v =>
    if st = longLastCluster then v
    else
      let next := nextCluster v st
      -- a damaged file system
      if next.1 ≤ 1 then next.2
      else
        let r := linkFat next.2 st free
        if r.1 ≠ 0 then r.2 else wipeLoop n next.1 (r.2.lowerHint st)

/-- `wipe_out_clusters`: free the chain from `st` on. -/
def wipeOutClusters (v : Volume) (st : ℕ) : Volume := wipeLoop v.dpb.maxCluster st v

/-- The loop of `dos_free` over `n` clusters from `i` on.  The first free cluster it finds is where
to look for one. -/
def countFree : ℕ → ℕ → ℕ → Volume → ℕ × Volume
  | 0, _, cnt, v => (cnt, v)
  | n + 1, i, cnt, v =>
    let r := isFreeCluster v i
    if r.1 then
      let v := if cnt = 0 then { r.2 with dpb := r.2.dpb.setHint i } else r.2
      countFree n (i + 1) (cnt + 1) v
    else countFree n (i + 1) cnt r.2

/-- The number of free clusters is not known. -/
def Dpb.unknown (d : Dpb) : Bool :=
  if d.isFat32 then d.xnfreeclst == xunknClstFree else d.xnfreeclst % 2 ^ 16 == unknClstFree

/-- Set the number of free clusters. -/
def Dpb.setFree (d : Dpb) (cnt : ℕ) : Dpb :=
  if d.isFat32 then { d with xnfreeclst := cnt }
  else { d with xnfreeclst := d.xnfreeclst - d.xnfreeclst % 2 ^ 16 + cnt % 2 ^ 16 }

/-- `dos_free`: the number of free clusters. -/
def dosFree (v : Volume) : ℕ × Volume :=
  if !v.dpb.unknown then
    (if v.dpb.isFat32 then v.dpb.xnfreeclst else v.dpb.xnfreeclst % 2 ^ 16, v)
  else
    let r := countFree (v.dpb.maxCluster - 1) 2 0 v
    (r.1, { r.2 with dpb := r.2.dpb.setFree r.1 })

end Fat
end BurdahDos
