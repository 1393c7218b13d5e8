import BurdahDos.Dir.Find
import Mathlib

/-!
# What is left in the fnode

`fnode[0]` serves every call that walks over a directory, and is not cleared in between.  A search
sets what it uses of it: two searches that differ only in what an earlier call has left there return
the same, also when accesses fail.
-/

set_option autoImplicit false

namespace BurdahDos
namespace Dir

open Fat File

/-! ## Walking over a directory -/

/-- The fnode, with what a search sets before it uses it as it is in another one. -/
def stale (f fnp : FNode) : FNode :=
  { fnp with
    fclean := f.fclean, fdate := f.fdate
    dir := f.dir, dirsector := f.dirsector, diridx := f.diridx }

/-- The two fnodes of a directory differ at most in what is set before it is used. -/
def Alike (fnp fnp' : FNode) : Prop := fnp.sftIdx = 0xff ∧ ∃ f, fnp' = stale f fnp

/-- What a function that walks over a directory comes to for alike fnodes. -/
structure AlikeResult {α : Type} (r r' : α × FNode × Volume) : Prop where
  result : r'.1 = r.1
  fnode : Alike r.2.1 r'.2.1
  volume : r'.2.2 = r.2.2

theorem stepCluster_stale (f : FNode) {fnp : FNode} (h : fnp.sftIdx = 0xff) (v : Volume) :
    let r := stepCluster v fnp .read
    stepCluster v (stale f fnp) .read = (r.1, stale f r.2.1, r.2.2) ∧ r.2.1.sftIdx = 0xff := by
  have hcluster : (stale f fnp).cluster = fnp.cluster := rfl
  simp only [stepCluster, hcluster, if_true]
  split_ifs <;> exact ⟨rfl, h⟩

theorem mapLoop_alike (f : FNode) (n : ℕ) {fnp : FNode} (h : fnp.sftIdx = 0xff) (v : Volume) :
    AlikeResult (mapLoop .read n fnp v) (mapLoop .read n (stale f fnp) v) := by
  induction n generalizing fnp v with
  | zero => exact ⟨rfl, ⟨h, f, rfl⟩, rfl⟩
  | succ n ih =>
    obtain ⟨heq, hidx⟩ := stepCluster_stale f h v
    rw [mapLoop, mapLoop, heq]
    dsimp only
    split
    · exact ⟨rfl, ⟨hidx, f, rfl⟩, rfl⟩
    · exact ih hidx _

theorem rewind_stale (f : FNode) {fnp : FNode} (h : fnp.sftIdx = 0xff) (d : Dpb) :
    (stale f fnp).rewind d = stale f (fnp.rewind d) ∧ (fnp.rewind d).sftIdx = 0xff := by
  rw [FNode.rewind, FNode.rewind, if_pos h, if_pos (show (stale f fnp).sftIdx = 0xff from h)]
  by_cases hlt : fnp.relcluster d < fnp.clusterOffset
  · rw [if_pos hlt, if_pos (show (stale f fnp).relcluster d < (stale f fnp).clusterOffset from hlt)]
    exact ⟨rfl, h⟩
  · rw [if_neg hlt,
      if_neg (show ¬ (stale f fnp).relcluster d < (stale f fnp).clusterOffset from hlt)]
    exact ⟨rfl, h⟩

theorem mapCluster_alike (f : FNode) {fnp : FNode} (h : fnp.sftIdx = 0xff) (v : Volume) :
    AlikeResult (mapCluster v fnp .read) (mapCluster v (stale f fnp) .read) := by
  rw [mapCluster, mapCluster]
  by_cases hfree : fnp.cluster = free
  · rw [if_pos hfree, if_pos (show (stale f fnp).cluster = free from hfree), if_pos rfl, if_pos rfl]
    exact ⟨rfl, ⟨h, f, rfl⟩, rfl⟩
  · rw [if_neg hfree, if_neg (show (stale f fnp).cluster ≠ free from hfree), seekCluster,
      seekCluster]
    obtain ⟨heq, hidx⟩ := rewind_stale f h v.dpb
    rw [heq]
    exact mapLoop_alike f _ hidx v

/-- What a function that reads entries comes to: if there is one, it is the same. -/
structure AlikeRead (r r' : ℤ × FNode × Volume) : Prop extends AlikeResult r r' where
  dir : r.1 = 1 → r'.2.1.dir = r.2.1.dir

theorem readEntry_alike (f : FNode) {fnp : FNode} (h : fnp.sftIdx = 0xff) (v : Volume) :
    AlikeRead (readEntry v fnp)
      (readEntry v (stale { f with dirsector := fnp.dirsector } fnp)) := by
  rw [readEntry, readEntry]
  dsimp only
  split
  · exact ⟨⟨rfl, ⟨h, _, rfl⟩, rfl⟩, fun h1 => absurd h1 (show deBlkInvld ≠ 1 by decide)⟩
  · exact ⟨⟨rfl, ⟨h, { f with
      dirsector := fnp.dirsector, diridx := fnp.dmEntry % perSector v.dpb
      dir := swapDeleted (Dirent.ofBytes fun i =>
        v.disk fnp.dirsector (fnp.dmEntry % perSector v.dpb * 32 + i)) }, rfl⟩, rfl⟩, fun _ => rfl⟩

theorem dirRead_alike {fnp fnp' : FNode} (h : Alike fnp fnp') (v : Volume) :
    AlikeRead (dirRead v fnp) (dirRead v fnp') := by
  obtain ⟨hidx, f, rfl⟩ := id h
  have hseek : deSeek ≠ 1 := by decide
  have hentry : (stale f fnp).dmEntry = fnp.dmEntry := rfl
  have hcluster : (stale f fnp).dmDircluster = fnp.dmDircluster := rfl
  rw [dirRead, dirRead, hentry, hcluster]
  split
  · exact ⟨⟨rfl, h, rfl⟩, fun h1 => absurd h1 hseek⟩
  · split
    · split
      · exact ⟨⟨rfl, h, rfl⟩, fun h1 => absurd h1 hseek⟩
      · exact @readEntry_alike f { fnp with
          dirsector := fnp.dmEntry / perSector v.dpb + v.dpb.dirstrt } hidx v
    · have hmap := @mapCluster_alike f (fnp.seek (fnp.dmEntry * 32)) hidx v
      change AlikeResult _ (mapCluster v ((stale f fnp).seek (fnp.dmEntry * 32)) .read) at hmap
      generalize mapCluster v (fnp.seek (fnp.dmEntry * 32)) .read = m at hmap ⊢
      generalize mapCluster v ((stale f fnp).seek (fnp.dmEntry * 32)) .read = m' at hmap ⊢
      obtain ⟨rc, fnp', v'⟩ := m'
      obtain ⟨rc', fnp'', v''⟩ := m
      obtain ⟨hrc, ⟨hidx', f', hfnode⟩, hvol⟩ := hmap
      dsimp only at hrc hidx' hfnode hvol ⊢
      subst hrc hfnode hvol
      split
      · exact ⟨⟨rfl, ⟨hidx', f', rfl⟩, rfl⟩, fun h1 => absurd h1 hseek⟩
      · exact @readEntry_alike f' { fnp'' with
          dirsector := v'.dpb.clus2phys fnp''.cluster +
            (fnp''.offset / v'.dpb.secsize % 256 &&& v'.dpb.clsmask) } hidx' v'

theorem AlikeRead.advance {r r' : ℤ × FNode × Volume} (h : AlikeRead r r') :
    Alike { r.2.1 with dmEntry := r.2.1.dmEntry + 1 }
      { r'.2.1 with dmEntry := r'.2.1.dmEntry + 1 } := by
  obtain ⟨⟨-, ⟨hidx, f, hfnode⟩, -⟩, -⟩ := h
  exact ⟨hidx, f, by rw [hfnode]; rfl⟩

theorem searchLoop_alike (stop : Dirent → Bool) (n : ℕ) {fnp fnp' : FNode} (h : Alike fnp fnp')
    (v : Volume) : AlikeRead (searchLoop stop n v fnp) (searchLoop stop n v fnp') := by
  induction n generalizing fnp fnp' v with
  | zero => exact ⟨⟨rfl, h, rfl⟩, fun h1 => absurd h1 (show deSeek ≠ 1 by decide)⟩
  | succ n ih =>
    have hread := dirRead_alike h v
    rw [searchLoop, searchLoop]
    dsimp only
    rw [hread.result, hread.volume]
    split
    · exact hread
    · rename_i hrc
      rw [congrArg stop (hread.dir (not_not.mp hrc))]
      split
      · exact hread
      · exact ih hread.advance _

/-- A search that starts with alike fnodes finds the same. -/
theorem search_alike (stop : Dirent → Bool) {fnp fnp' : FNode} (h : Alike fnp fnp') (v : Volume) :
    AlikeRead (search stop v fnp) (search stop v fnp') := by
  have hentry : fnp'.dmEntry = fnp.dmEntry := by
    obtain ⟨-, f, rfl⟩ := h
    rfl
  rw [search, search, hentry]
  exact searchLoop_alike stop _ h v

theorem openLoop_alike (split : Bool) (n : ℕ) (dirname : Path) {fnp fnp' : FNode}
    (h : Alike fnp fnp') (v : Volume) :
    AlikeResult (openLoop split n dirname v fnp) (openLoop split n dirname v fnp') := by
  induction n generalizing dirname fnp fnp' v with
  | zero => exact ⟨rfl, h, rfl⟩
  | succ n ih =>
    rcases dirname with - | ⟨c, dirname⟩
    · exact ⟨rfl, h, rfl⟩
    · rw [openLoop, openLoop]
      dsimp only
      split
      · exact ⟨rfl, h, rfl⟩
      · have h' : Alike { fnp with dmNamePat := (convertNameSZToName83 dirname).1 }
            { fnp' with dmNamePat := (convertNameSZToName83 dirname).1 } := by
          obtain ⟨hidx, f, rfl⟩ := h
          exact ⟨hidx, f, rfl⟩
        have hsearch := search_alike (named (convertNameSZToName83 dirname).1) h' v
        split
        · exact ⟨rfl, h', rfl⟩
        · generalize search _ v { fnp with dmNamePat := (convertNameSZToName83 dirname).1 } = r
            at hsearch ⊢
          generalize search _ v { fnp' with dmNamePat := (convertNameSZToName83 dirname).1 } = r'
            at hsearch ⊢
          rw [hsearch.result, hsearch.volume]
          by_cases hrc : r.1 = 1
          · rw [hsearch.dir hrc]
            split
            · refine ih _ ?_ _
              obtain ⟨-, f, hfnode⟩ := hsearch.fnode
              exact ⟨rfl, f, by rw [hfnode]; rfl⟩
            · exact ⟨rfl, hsearch.fnode, hsearch.volume⟩
          · rw [if_neg fun h => hrc h.1, if_neg fun h => hrc h.1]
            exact ⟨rfl, hsearch.fnode, hsearch.volume⟩

/-! ## The calls -/

/-- The world, with another fnode left by the calls before. -/
def World.leave (w : World) (f : FNode) : World := { w with fnode := f }

theorem dosFindnext_leave (w : World) (f : FNode) (dm : Dmatch) :
    (dosFindnext (w.leave f) dm).1 = (dosFindnext w dm).1 := by
  have hsearch := @search_alike (wanted dm)
    { dirInitFnode (w.vol dm.drive).dpb w.fnode dm.dircluster with
      dcb := dm.drive.toNat, dmEntry := dm.entry, dmNamePat := dm.namePat }
    { dirInitFnode (w.vol dm.drive).dpb f dm.dircluster with
      dcb := dm.drive.toNat, dmEntry := dm.entry, dmNamePat := dm.namePat }
    ⟨rfl, f, rfl⟩ (w.vol dm.drive)
  rw [dosFindnext, dosFindnext]
  change Prod.fst (if (!w.mediaCheck dm.drive) = true then _ else _) = _
  split
  · rfl
  · dsimp only [World.leave]
    generalize search (wanted dm) _ { dirInitFnode (w.vol dm.drive).dpb w.fnode dm.dircluster with
      dcb := dm.drive.toNat, dmEntry := dm.entry, dmNamePat := dm.namePat } = r at hsearch ⊢
    generalize search (wanted dm) _ { dirInitFnode (w.vol dm.drive).dpb f dm.dircluster with
      dcb := dm.drive.toNat, dmEntry := dm.entry, dmNamePat := dm.namePat } = r' at hsearch ⊢
    obtain ⟨⟨hrc, ⟨-, f', hfnode⟩, -⟩, hdir⟩ := hsearch
    rw [hrc]
    split
    · rename_i hone
      rw [hdir hone, hfnode]
      rfl
    · rfl

theorem dosFindfirst_leave (w : World) (f : FNode) (attr : UInt16) (name : Path) :
    (dosFindfirst (w.leave f) attr name).1 = (dosFindfirst w attr name).1 := by
  rw [dosFindfirst, dosFindfirst]
  split
  · rfl
  · dsimp only [World.leave]
    by_cases hlast : name.getLast? = some backslash
    · simp only [splitPath, if_pos hlast]
      rfl
    · simp only [splitPath, if_neg hlast]
      have hopen : AlikeResult
          (dirOpen (w.vol (driveNr name)) { w.fnode with dmNamePat := noDmatch.namePat } name true)
          (dirOpen (w.vol (driveNr name)) { f with dmNamePat := noDmatch.namePat } name true) :=
        openLoop_alike true _ _ ⟨rfl, f, rfl⟩ _
      generalize dirOpen _ { w.fnode with dmNamePat := noDmatch.namePat } name true = o at hopen ⊢
      generalize dirOpen _ { f with dmNamePat := noDmatch.namePat } name true = o' at hopen ⊢
      obtain ⟨rc', fnp', v'⟩ := o'
      obtain ⟨rc, fnp, v⟩ := o
      obtain ⟨hrc, ⟨-, f', hfnode⟩, hvol⟩ := hopen
      dsimp only at hrc hfnode hvol ⊢
      subst hrc hfnode hvol
      split
      · rfl
      · split
        · exact dosFindnext_leave { w.put (driveNr name) (fnp, v') with
            fnode := dirInitFnode v'.dpb fnp 0 } (dirInitFnode v'.dpb (stale f' fnp) 0) _
        · exact dosFindnext_leave (w.put (driveNr name) (fnp, v')) (stale f' fnp) _

/-- What `DosFindFirst` returns does not depend on the fnode. -/
theorem dosFindFirst_leave (w : World) (f : FNode) (attr : UInt16) (name : Path) (dmp : Dta) :
    (dosFindFirst (w.leave f) attr name dmp).1 = (dosFindFirst w attr name dmp).1 ∧
      (dosFindFirst (w.leave f) attr name dmp).2.1 = (dosFindFirst w attr name dmp).2.1 := by
  have hfirst := dosFindfirst_leave w f attr (w.truename name).2
  have htruename : (w.leave f).truename name = w.truename name := rfl
  rw [dosFindFirst, dosFindFirst, htruename]
  dsimp only
  split
  · exact ⟨rfl, rfl⟩
  · split
    · exact ⟨rfl, rfl⟩
    · split
      · exact ⟨rfl, rfl⟩
      · rw [hfirst]
        exact ⟨rfl, rfl⟩

/-- Nor does what `DosFindNext` returns. -/
theorem dosFindNext_leave (w : World) (f : FNode) (dmp : Dta) :
    (dosFindNext (w.leave f) dmp).1 = (dosFindNext w dmp).1 ∧
      (dosFindNext (w.leave f) dmp).2.1 = (dosFindNext w dmp).2.1 := by
  have hnext := dosFindnext_leave w f dmp.dm
  rw [dosFindNext, dosFindNext]
  dsimp only
  split
  · exact ⟨rfl, rfl⟩
  · split
    · exact ⟨rfl, rfl⟩
    · rw [hnext]
      exact ⟨rfl, rfl⟩

end Dir
end BurdahDos
