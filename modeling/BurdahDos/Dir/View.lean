import BurdahDos.Dir.Defs
import BurdahDos.File.Call
import Mathlib

/-!
# What is in a directory

The functions of `Dir.Defs` walk over a directory, and any read may fail on the way.  Here is the
directory itself: `Volume.dirent v dir n` is entry `n` of the directory that starts at `dir`, found
by following the chain of `dir`, and `Volume.resolve` is the directory that a path names.

`dirRead_spec` says that `dir_read` returns that entry or an error, and `search_spec` and
`dirOpen_spec` say the same of the loops.  Nothing is assumed of the volume: chains may lead
anywhere.
-/

set_option autoImplicit false

namespace BurdahDos
namespace Dir

open Fat File

variable {v v' v'' : Volume} {fnp : FNode} {dir : ℕ}

/-! ## Volumes that are only read -/

/-- No access to come fails. -/
def Sound (v : Volume) : Prop := v.fatOutcomes = [] ∧ v.outcomes = []

/-- Nothing but the outcomes to come has changed. -/
structure ReadOnly (v v' : Volume) : Prop where
  dpb : v'.dpb = v.dpb
  fat : v'.fat = v.fat
  disk : v'.disk = v.disk
  fatOutcomes : v.fatOutcomes = [] → v'.fatOutcomes = []
  outcomes : v.outcomes = [] → v'.outcomes = []

theorem ReadOnly.refl (v : Volume) : ReadOnly v v := ⟨rfl, rfl, rfl, id, id⟩

theorem ReadOnly.trans (h : ReadOnly v v') (h' : ReadOnly v' v'') : ReadOnly v v'' :=
  ⟨h'.dpb.trans h.dpb, h'.fat.trans h.fat, h'.disk.trans h.disk,
    h'.fatOutcomes ∘ h.fatOutcomes, h'.outcomes ∘ h.outcomes⟩

theorem ReadOnly.sound (h : ReadOnly v v') (hs : Sound v) : Sound v' :=
  ⟨h.fatOutcomes hs.1, h.outcomes hs.2⟩

theorem ReadOnly.eq_of_sound (h : ReadOnly v v') (hs : Sound v) : v' = v := by
  obtain ⟨d, f, k, fo, o⟩ := v
  obtain ⟨d', f', k', fo', o'⟩ := v'
  obtain ⟨rfl, rfl, rfl, hfo, ho⟩ := h
  obtain ⟨rfl, rfl⟩ := hs
  rw [show fo' = [] from hfo rfl, show o' = [] from ho rfl]

theorem access_readOnly (v : Volume) : ReadOnly v v.access.2 := by
  rw [Volume.access]
  split
  · exact .refl v
  · rename_i h
    exact ⟨rfl, rfl, rfl, id, fun h0 => by rw [h0] at h; exact (by cases h)⟩

theorem access_of_sound (h : Sound v) : v.access.1 = none := by rw [Volume.access, h.2]

/-! ## Chains -/

/-- What `link_fat` reads for `c`, 1 if nothing. -/
def linked (v : Volume) (c : ℕ) : ℕ :=
  if c ≤ 1 ∨ c > v.dpb.maxCluster then 1
  else if readCluster < longBad ∧ readCluster > v.dpb.maxCluster then 1
  else if v.dpb.isFat12 || v.dpb.isFat16 || v.dpb.isFat32 then v.entry c
  else 1

/-- Where `next_cluster` leads from `c`, 0 or 1 if nowhere. -/
def next (v : Volume) (c : ℕ) : ℕ :=
  if linked v c < 2 ∨ linked v c ≥ longBad then linked v c
  else if linked v (linked v c) < 2 ∨
      linked v (linked v c) < longBad ∧ linked v (linked v c) > v.dpb.maxCluster then 1
  else linked v c

/-- Cluster `k` of the chain that starts at `c`. -/
def follow (v : Volume) (c : ℕ) : ℕ → Option ℕ
  | 0 => some c
  | k + 1 => if next v c ≤ 1 ∨ next v c = longLastCluster then none else follow v (next v c) k

theorem linked_congr (hd : v'.dpb = v.dpb) (hf : v'.fat = v.fat) (c : ℕ) :
    linked v' c = linked v c := by
  rw [linked, linked, Volume.entry, Volume.entry, hd, hf]

theorem next_congr (hd : v'.dpb = v.dpb) (hf : v'.fat = v.fat) (c : ℕ) :
    next v' c = next v c := by
  simp only [next, linked_congr hd hf, hd]

theorem follow_congr (hd : v'.dpb = v.dpb) (hf : v'.fat = v.fat) (c k : ℕ) :
    follow v' c k = follow v c k := by
  induction k generalizing c with
  | zero => rfl
  | succ k ih => rw [follow, follow, next_congr hd hf, ih]

/-- The way to cluster `j + k` leads over cluster `j`. -/
theorem follow_add (v : Volume) (c j k : ℕ) :
    follow v c (j + k) = (follow v c j).bind fun c' => follow v c' k := by
  induction j generalizing c with
  | zero => rw [Nat.zero_add]; rfl
  | succ j ih =>
    rw [Nat.succ_add, follow, follow]
    split
    · rfl
    · exact ih _

theorem getFATblock_readOnly (v : Volume) : ReadOnly v v.getFATblock.2 := by
  rw [Volume.getFATblock]
  split
  · exact .refl v
  · rename_i h
    exact ⟨rfl, rfl, rfl, fun h0 => by rw [h0] at h; exact (by cases h), id⟩

/-- `link_fat` reads an entry, or fails. -/
theorem linkFat_linked (v : Volume) (c : ℕ) : ReadOnly v (linkFat v c readCluster).2 ∧
    ((linkFat v c readCluster).1 = linked v c ∨
      v.fatOutcomes ≠ [] ∧ (linkFat v c readCluster).1 = 1) := by
  have hblock := getFATblock_readOnly v
  have hfail : v.getFATblock.1 = false → v.fatOutcomes ≠ [] := by
    rintro h h0
    rw [Volume.getFATblock, h0] at h
    exact Bool.false_ne_true h.symm
  have hentry : v.getFATblock.2.entry c = v.entry c := by
    rw [Volume.entry, Volume.entry, hblock.dpb, hblock.fat]
  simp only [linkFat, linked, if_true, hentry]
  by_cases h1 : c ≤ 1 ∨ c > v.dpb.maxCluster
  · rw [if_pos h1, if_pos h1]
    exact ⟨.refl v, Or.inl rfl⟩
  · rw [if_neg h1, if_neg h1]
    by_cases h2 : readCluster < longBad ∧ readCluster > v.dpb.maxCluster
    · rw [if_pos h2, if_pos h2]
      exact ⟨.refl v, Or.inl rfl⟩
    · rw [if_neg h2, if_neg h2]
      cases hok : v.getFATblock.1 with
      | false => exact ⟨by simpa using hblock, Or.inr ⟨hfail hok, by simp⟩⟩
      | true =>
        by_cases h3 : (v.dpb.isFat12 || v.dpb.isFat16 || v.dpb.isFat32) = true <;>
          simp [h3, hblock]

/-- `next_cluster` finds what is next, or fails. -/
theorem nextCluster_next (v : Volume) (c : ℕ) : ReadOnly v (nextCluster v c).2 ∧
    ((nextCluster v c).1 = next v c ∨ v.fatOutcomes ≠ [] ∧ (nextCluster v c).1 = 1) := by
  obtain ⟨hread, hval⟩ := linkFat_linked v c
  simp only [nextCluster, next]
  rcases hval with hval | ⟨hfail, hval⟩
  · rw [hval]
    split
    · exact ⟨hread, Or.inl hval⟩
    · obtain ⟨hread', hval'⟩ := linkFat_linked (linkFat v c readCluster).2 (linked v c)
      rw [linked_congr hread.dpb hread.fat] at hval'
      rcases hval' with hval' | ⟨hfail', hval'⟩
      · rw [hval']
        split <;> exact ⟨hread.trans hread', Or.inl rfl⟩
      · rw [hval', if_pos (Or.inl Nat.one_lt_two)]
        exact ⟨hread.trans hread', Or.inr ⟨fun h0 => hfail' (hread.fatOutcomes h0), rfl⟩⟩
  · rw [if_pos (Or.inl (by omega))]
    exact ⟨hread, Or.inr ⟨hfail, hval⟩⟩

/-! ## Finding a cluster -/

/-- The fnode is one of the directory that starts at `dir`, and the cluster it has is one of its
chain. -/
structure Stands (v : Volume) (dir : ℕ) (fnp : FNode) : Prop where
  sftIdx : fnp.sftIdx = 0xff
  dmDircluster : fnp.dmDircluster = dir
  cluster : dir ≠ 0 → follow v dir fnp.clusterOffset = some fnp.cluster

theorem Stands.congr (h : Stands v dir fnp) (hd : v'.dpb = v.dpb) (hf : v'.fat = v.fat) :
    Stands v' dir fnp :=
  ⟨h.sftIdx, h.dmDircluster, fun h0 => by rw [follow_congr hd hf]; exact h.cluster h0⟩

/-- The two differ at most in what `dir_read` sets. -/
def Walked (fnp fnp' : FNode) : Prop :=
  ∃ dir dirsector diridx offset clusterOffset cluster,
    fnp' = { fnp with
      dir := dir, dirsector := dirsector, diridx := diridx, offset := offset
      clusterOffset := clusterOffset, cluster := cluster }

theorem Walked.refl (fnp : FNode) : Walked fnp fnp := ⟨_, _, _, _, _, _, rfl⟩

theorem Walked.trans {fnp' fnp'' : FNode} (h : Walked fnp fnp') (h' : Walked fnp' fnp'') :
    Walked fnp fnp'' := by
  obtain ⟨_, _, _, _, _, _, rfl⟩ := h
  obtain ⟨a, b, c, d, e, f, rfl⟩ := h'
  exact ⟨a, b, c, d, e, f, rfl⟩

/-- What a walk along the chain of a directory comes to: `n` clusters behind its start, unless the
chain is shorter or an access fails. -/
def WalkedTo (v : Volume) (dir n : ℕ) (fnp : FNode) (r : ℤ × FNode × Volume) : Prop :=
  ∃ rc c k v', r = (rc, fnp.to c k, v') ∧ ReadOnly v v' ∧ Stands v dir (fnp.to c k) ∧
    (rc = success ∧ k = n ∨
      rc = deSeek ∧ (v.fatOutcomes ≠ [] ∨ follow v dir n = none))

/-- The loop of `map_cluster`, reading. -/
theorem mapLoop_read (n : ℕ) (hst : Stands v dir fnp) (hdir : dir ≠ 0) :
    WalkedTo v dir (fnp.clusterOffset + n) fnp (mapLoop .read n fnp v) := by
  induction n generalizing v fnp with
  | zero => exact ⟨success, fnp.cluster, fnp.clusterOffset, v, rfl, .refl v, hst, Or.inl ⟨rfl, rfl⟩⟩
  | succ n ih =>
    obtain ⟨hread, hval⟩ := nextCluster_next v fnp.cluster
    have hfollow : follow v dir (fnp.clusterOffset + (n + 1)) = follow v fnp.cluster (n + 1) := by
      rw [follow_add, hst.cluster hdir]
      rfl
    simp only [mapLoop, stepCluster]
    by_cases h1 : (nextCluster v fnp.cluster).1 ≤ 1
    · rw [if_pos h1, if_pos (show deSeek ≠ success by decide)]
      refine ⟨deSeek, fnp.cluster, fnp.clusterOffset, _, rfl, hread, hst, Or.inr ⟨rfl, ?_⟩⟩
      rcases hval with hval | ⟨hfail, -⟩
      · rw [hfollow, follow, if_pos (Or.inl (hval ▸ h1))]
        exact Or.inr rfl
      · exact Or.inl hfail
    · rw [if_neg h1]
      have hval := hval.resolve_right fun h => by omega
      by_cases h2 : (nextCluster v fnp.cluster).1 = longLastCluster
      · rw [if_pos h2, if_pos trivial, if_pos (show deSeek ≠ success by decide)]
        refine ⟨deSeek, fnp.cluster, fnp.clusterOffset, _, rfl, hread, hst, Or.inr ⟨rfl, Or.inr ?_⟩⟩
        rw [hfollow, follow, if_pos (Or.inr (hval ▸ h2))]
      · rw [if_neg h2, if_neg (fun h => h rfl)]
        change WalkedTo v dir _ fnp (mapLoop .read n
          (fnp.to (nextCluster v fnp.cluster).1 (fnp.clusterOffset + 1)) (nextCluster v fnp.cluster).2)
        have hst' : Stands (nextCluster v fnp.cluster).2 dir
            (fnp.to (nextCluster v fnp.cluster).1 (fnp.clusterOffset + 1)) := by
          refine ⟨hst.sftIdx, hst.dmDircluster, fun _ => ?_⟩
          change follow _ _ (fnp.clusterOffset + 1) = some (nextCluster v fnp.cluster).1
          rw [follow_congr hread.dpb hread.fat, follow_add, hst.cluster hdir, hval]
          change follow v fnp.cluster 1 = _
          rw [follow, if_neg (by rw [← hval]; omega)]
          rfl
        obtain ⟨rc, c, k, v', heq, hro, hst'', hres⟩ := ih hst'
        refine ⟨rc, c, k, v', heq, hread.trans hro, hst''.congr hread.dpb.symm hread.fat.symm, ?_⟩
        rw [follow_congr hread.dpb hread.fat] at hres
        change rc = success ∧ k = fnp.clusterOffset + 1 + n ∨ rc = deSeek ∧
          (_ ∨ follow v dir (fnp.clusterOffset + 1 + n) = none) at hres
        rw [show fnp.clusterOffset + 1 + n = fnp.clusterOffset + (n + 1) by omega] at hres
        exact hres.imp_right fun h => ⟨h.1, h.2.imp_left fun h' h0 => h' (hread.fatOutcomes h0)⟩

theorem follow_ne_free {c k c' : ℕ} (hc : c ≠ 0) (h : follow v c k = some c') : c' ≠ free := by
  induction k generalizing c with
  | zero => exact fun h0 => hc ((Option.some.inj h).trans h0)
  | succ k ih =>
    rw [follow] at h
    split at h
    · exact (nomatch h)
    · rename_i hn
      exact ih (by omega) h

/-- `map_cluster`, reading. -/
theorem mapCluster_read (hst : Stands v dir fnp) (hdir : dir ≠ 0) :
    WalkedTo v dir (fnp.relcluster v.dpb) fnp (mapCluster v fnp .read) := by
  have hne := follow_ne_free hdir (hst.cluster hdir)
  obtain ⟨hidx, rfl, -⟩ := id hst
  rw [mapCluster, if_neg hne, seekCluster, FNode.rewind]
  split
  · have hst' : Stands v fnp.dmDircluster (fnp.to fnp.dmDircluster 0) := ⟨hidx, rfl, fun _ => rfl⟩
    have hwalk := mapLoop_read (fnp.relcluster v.dpb) hst' hdir
    rwa [show (fnp.to fnp.dmDircluster 0).clusterOffset + fnp.relcluster v.dpb =
      fnp.relcluster v.dpb from Nat.zero_add _] at hwalk
  · rename_i hle
    have hwalk := mapLoop_read (fnp.relcluster v.dpb - fnp.clusterOffset) hst hdir
    rwa [Nat.add_sub_cancel' (Nat.le_of_not_lt hle)] at hwalk

/-! ## Entries -/

/-- The cluster of the chain of a directory that entry `n` is in. -/
def chainIndex (d : Dpb) (n : ℕ) : ℕ := (n * 32 / d.secsize) >>> d.shftcnt

/-- Where entry `n` of a directory is: its sector, and its number there. -/
def slot (v : Volume) (dir n : ℕ) : Option (ℕ × ℕ) :=
  if dir = 0 then
    if n < v.dpb.dirents then some (n / perSector v.dpb + v.dpb.dirstrt, n % perSector v.dpb)
    else none
  else
    (follow v dir (chainIndex v.dpb n)).map fun c =>
      (v.dpb.clus2phys c + (n * 32 / v.dpb.secsize % 256 &&& v.dpb.clsmask), n % perSector v.dpb)

/-- The entry at a place. -/
def entryAt (v : Volume) (place : ℕ × ℕ) : Dirent :=
  swapDeleted (Dirent.ofBytes fun i => v.disk place.1 (place.2 * 32 + i))

/-- Entry `n` of the directory that starts at `dir`. -/
def dirent (v : Volume) (dir n : ℕ) : Option Dirent := (slot v dir n).map (entryAt v)

theorem slot_congr (hd : v'.dpb = v.dpb) (hf : v'.fat = v.fat) (dir n : ℕ) :
    slot v' dir n = slot v dir n := by
  simp only [slot, follow_congr hd hf, hd]

theorem entryAt_congr (hk : v'.disk = v.disk) (place : ℕ × ℕ) :
    entryAt v' place = entryAt v place := by
  rw [entryAt, entryAt, hk]

theorem ReadOnly.slot (h : ReadOnly v v') (dir n : ℕ) : slot v' dir n = Dir.slot v dir n :=
  slot_congr h.dpb h.fat dir n

theorem dirent_congr (hd : v'.dpb = v.dpb) (hf : v'.fat = v.fat) (hk : v'.disk = v.disk)
    (dir n : ℕ) : dirent v' dir n = dirent v dir n := by
  rw [dirent, dirent, slot_congr hd hf]
  exact congrArg₂ _ (funext fun p => entryAt_congr hk p) rfl

theorem ReadOnly.dirent (h : ReadOnly v v') (dir n : ℕ) : dirent v' dir n = Dir.dirent v dir n :=
  dirent_congr h.dpb h.fat h.disk dir n

/-- The fnode is at an entry, and has it. -/
structure At (v : Volume) (place : ℕ × ℕ) (fnp : FNode) : Prop where
  seat : (fnp.dirsector, fnp.diridx) = place
  dir : fnp.dir = entryAt v place

/-- What `dir_read` comes to: the entry, unless there is none or an access fails. -/
structure HasRead (v : Volume) (dir : ℕ) (fnp : FNode) (r : ℤ × FNode × Volume) : Prop where
  readOnly : ReadOnly v r.2.2
  stands : Stands v dir r.2.1
  walked : Walked fnp r.2.1
  result : (∃ place, fnp.dmEntry < 65535 ∧ slot v dir fnp.dmEntry = some place ∧
      At v place r.2.1 ∧ r.1 = if firstOf (entryAt v place).name ≠ 0 then 1 else 0) ∨
    r.1 < 0 ∧ r.2.1.dir = fnp.dir ∧
      (65535 ≤ fnp.dmEntry ∨ slot v dir fnp.dmEntry = none ∨ ¬ Sound v)

theorem readEntry_spec {v₀ : Volume} {fnp' : FNode} (hro : ReadOnly v₀ v)
    (hst : Stands v₀ dir fnp') (hw : Walked fnp fnp') (hdir : fnp'.dir = fnp.dir)
    (hn : fnp.dmEntry < 65535)
    (hslot : slot v₀ dir fnp.dmEntry = some (fnp'.dirsector, fnp'.dmEntry % perSector v.dpb)) :
    HasRead v₀ dir fnp (readEntry v fnp') := by
  have hread := hro.trans (access_readOnly v)
  rw [readEntry]
  dsimp only
  split
  · rename_i h
    have hfail : ¬ Sound v₀ := by
      intro hs
      rw [access_of_sound (hro.sound hs)] at h
      exact Bool.false_ne_true h
    exact ⟨hread, hst, hw, Or.inr ⟨show deBlkInvld < 0 by decide, hdir, Or.inr (Or.inr hfail)⟩⟩
  · generalize fnp'.dmEntry % perSector v.dpb = diridx at hslot ⊢
    have he : (swapDeleted (Dirent.ofBytes fun i => v.disk fnp'.dirsector (diridx * 32 + i))) =
        entryAt v₀ (fnp'.dirsector, diridx) := by
      rw [entryAt, hro.disk]
    rw [he]
    refine ⟨hread, ⟨hst.sftIdx, hst.dmDircluster, hst.cluster⟩,
      hw.trans ⟨_, _, _, _, _, _, rfl⟩,
      Or.inl ⟨(fnp'.dirsector, diridx), hn, hslot, ⟨rfl, rfl⟩, ?_⟩⟩
    dsimp only

/-- **`dir_read`** reads the entry. -/
theorem dirRead_spec (hst : Stands v dir fnp) : HasRead v dir fnp (dirRead v fnp) := by
  obtain ⟨hidx, rfl, hcl⟩ := id hst
  rw [dirRead]
  split
  · rename_i hn
    exact ⟨.refl v, hst, .refl fnp, Or.inr ⟨show deSeek < 0 by decide, rfl, Or.inl hn⟩⟩
  · rename_i hn
    have hn := Nat.lt_of_not_le hn
    split
    · rename_i hdir
      split
      · rename_i hroot
        refine ⟨.refl v, hst, .refl fnp, Or.inr ⟨show deSeek < 0 by decide, rfl, Or.inr (Or.inl ?_)⟩⟩
        rw [slot, if_pos hdir, if_neg (Nat.not_lt.mpr hroot)]
      · rename_i hroot
        refine readEntry_spec (.refl v) ⟨hidx, rfl, hcl⟩ ⟨_, _, _, _, _, _, rfl⟩ rfl hn ?_
        rw [slot, if_pos hdir, if_pos (Nat.lt_of_not_le hroot)]
    · rename_i hdir
      have hst' : Stands v fnp.dmDircluster (fnp.seek (fnp.dmEntry * 32)) := ⟨hidx, rfl, hcl⟩
      obtain ⟨rc, c, k, v', heq, hro, hst'', hres⟩ := mapCluster_read hst' hdir
      rw [heq]
      dsimp only
      rcases hres with ⟨rfl, rfl⟩ | ⟨rfl, hnone⟩
      · rw [if_neg (fun h => h rfl)]
        refine readEntry_spec hro ⟨hidx, rfl, hst''.cluster⟩ ⟨_, _, _, _, _, _, rfl⟩ rfl hn ?_
        have hfollow := hst''.cluster hdir
        change follow v fnp.dmDircluster (chainIndex v.dpb fnp.dmEntry) = some c at hfollow
        rw [slot, if_neg hdir, hfollow, hro.dpb]
        rfl
      · rw [if_pos (show deSeek ≠ success by decide)]
        refine ⟨hro, hst'', ⟨_, _, _, _, _, _, rfl⟩, Or.inr ⟨show deSeek < 0 by decide, rfl,
          Or.inr ?_⟩⟩
        rcases hnone with hfail | hnone
        · exact Or.inr fun hs => hfail hs.1
        · refine Or.inl ?_
          change follow v fnp.dmDircluster (chainIndex v.dpb fnp.dmEntry) = none at hnone
          rw [slot, if_neg hdir, hnone]
          rfl

/-! ## Searching -/

/-- Entry `n` is in use, or was: a search goes on behind it. -/
def Passable (v : Volume) (dir n : ℕ) : Prop := ∃ e, dirent v dir n = some e ∧ firstOf e.name ≠ 0

/-- What a search comes to: entry `n` meets `stop`, or is the first that was never used, or there is
no entry `n` or an access fails; the entries in front of it were in use and do not meet `stop`. -/
structure HasSearched (v : Volume) (dir : ℕ) (stop : Dirent → Bool) (fnp : FNode) (n : ℕ)
    (r : ℤ × FNode × Volume) : Prop where
  readOnly : ReadOnly v r.2.2
  stands : Stands v dir r.2.1
  walked : Walked { fnp with dmEntry := n } r.2.1
  from_le : fnp.dmEntry ≤ n
  passed : ∀ k, fnp.dmEntry ≤ k → k < n →
    ∃ e, dirent v dir k = some e ∧ firstOf e.name ≠ 0 ∧ stop e = false
  result : (∃ place, n < 65535 ∧ slot v dir n = some place ∧ At v place r.2.1 ∧
      (r.1 = 1 ∧ firstOf (entryAt v place).name ≠ 0 ∧ stop (entryAt v place) = true ∨
        r.1 = 0 ∧ firstOf (entryAt v place).name = 0)) ∨
    r.1 < 0 ∧ (65535 ≤ n ∨ slot v dir n = none ∨ ¬ Sound v)

/-- The next turn of the loop starts behind the entry. -/
theorem HasRead.advance {r : ℤ × FNode × Volume} (h : HasRead v dir fnp r) :
    Stands r.2.2 dir { r.2.1 with dmEntry := r.2.1.dmEntry + 1 } ∧
      r.2.1.dmEntry = fnp.dmEntry ∧
      ∀ n fnp', Walked { r.2.1 with dmEntry := n } fnp' → Walked { fnp with dmEntry := n } fnp' := by
  obtain ⟨hro, hst, ⟨_, _, _, _, _, _, heq⟩, -⟩ := h
  refine ⟨Stands.congr ⟨hst.sftIdx, hst.dmDircluster, hst.cluster⟩ hro.dpb hro.fat, by rw [heq],
    fun n fnp' hw => ?_⟩
  rw [heq] at hw
  exact .trans ⟨_, _, _, _, _, _, rfl⟩ hw

theorem searchLoop_spec (stop : Dirent → Bool) (n : ℕ) (hst : Stands v dir fnp)
    (hn : 65536 ≤ n + fnp.dmEntry) :
    ∃ m, HasSearched v dir stop fnp m (searchLoop stop n v fnp) := by
  induction n generalizing v fnp with
  | zero =>
    refine ⟨fnp.dmEntry, .refl v, hst, .refl fnp, Nat.le_refl _, fun k h1 h2 => ?_, Or.inr
      ⟨show deSeek < 0 by decide, Or.inl (by omega)⟩⟩
    exact absurd h2 (Nat.not_lt.mpr h1)
  | succ n ih =>
    have hread := dirRead_spec hst
    rw [searchLoop]
    dsimp only
    generalize dirRead v fnp = r at hread ⊢
    obtain ⟨hst'', hentry, hwalk⟩ := hread.advance
    obtain ⟨hro, hst', hw, hres⟩ := hread
    have hself : ∀ k, fnp.dmEntry ≤ k → k < fnp.dmEntry →
        ∃ e, dirent v dir k = some e ∧ e.name[0] ≠ 0 ∧ stop e = false :=
      fun k h1 h2 => absurd h2 (Nat.not_lt.mpr h1)
    rcases hres with ⟨place, hlt, hslot, hat, hrc⟩ | ⟨hrc, -, hnone⟩
    · by_cases hzero : (entryAt v place).name[0] = 0
      · rw [if_neg (not_not_intro hzero)] at hrc
        rw [if_pos (by rw [hrc]; decide)]
        exact ⟨fnp.dmEntry, hro, hst', hw, Nat.le_refl _, hself,
          Or.inl ⟨place, hlt, hslot, hat, Or.inr ⟨hrc, hzero⟩⟩⟩
      · rw [if_pos hzero] at hrc
        rw [if_neg (not_not_intro hrc)]
        split
        · rename_i hstop
          rw [hat.dir] at hstop
          exact ⟨fnp.dmEntry, hro, hst', hw, Nat.le_refl _, hself,
            Or.inl ⟨place, hlt, hslot, hat, Or.inl ⟨hrc, hzero, hstop⟩⟩⟩
        · rename_i hstop
          rw [hat.dir, Bool.not_eq_true] at hstop
          obtain ⟨m, h⟩ := ih hst'' (by dsimp only; omega)
          have hle : fnp.dmEntry + 1 ≤ m := hentry ▸ h.from_le
          refine ⟨m, hro.trans h.readOnly, h.stands.congr hro.dpb.symm hro.fat.symm,
            hwalk m _ h.walked, by omega, fun k hk hkm => ?_, ?_⟩
          · rcases Nat.eq_or_lt_of_le hk with rfl | hk
            · refine ⟨entryAt v place, ?_, hzero, hstop⟩
              rw [dirent, hslot]
              rfl
            · have := h.passed k (by dsimp only; omega) hkm
              rwa [hro.dirent] at this
          · have hsound : ¬ Sound r.2.2 → ¬ Sound v := mt hro.sound
            have hplace : ∀ p, entryAt r.2.2 p = entryAt v p := entryAt_congr hro.disk
            have hres := h.result
            simp only [hro.slot, hplace] at hres
            refine hres.imp ?_ fun h => ⟨h.1, h.2.imp_right (Or.imp_right hsound)⟩
            rintro ⟨p, hm, hp, hat', hrc'⟩
            exact ⟨p, hm, hp, ⟨hat'.seat, hat'.dir.trans (hplace p)⟩, hrc'⟩
    · rw [if_pos (by omega)]
      exact ⟨fnp.dmEntry, hro, hst', hw, Nat.le_refl _, hself, Or.inr ⟨hrc, hnone⟩⟩

/-- **A search** ends at the first entry that meets `stop`, or at the end of the directory, unless
an access fails. -/
theorem search_spec (stop : Dirent → Bool) (hst : Stands v dir fnp) :
    ∃ n, HasSearched v dir stop fnp n (search stop v fnp) :=
  searchLoop_spec stop _ hst (by omega)

/-! ## Paths -/

/-- Entry `n` is the first that meets `stop`, and a search gets there. -/
structure Finds (v : Volume) (dir : ℕ) (stop : Dirent → Bool) (n : ℕ) (e : Dirent) : Prop where
  lt : n < 65535
  dirent : dirent v dir n = some e
  used : firstOf e.name ≠ 0
  meets : stop e = true
  passed : ∀ k < n, ∃ e', Dir.dirent v dir k = some e' ∧ firstOf e'.name ≠ 0 ∧ stop e' = false

theorem Finds.unique {stop : Dirent → Bool} {n n' : ℕ} {e e' : Dirent}
    (h : Finds v dir stop n e) (h' : Finds v dir stop n' e') : n = n' ∧ e = e' := by
  have hle : ∀ {n n' : ℕ} {e e' : Dirent}, Finds v dir stop n e → Finds v dir stop n' e' →
      n ≤ n' := by
    intro n n' e e' h h'
    by_contra hlt
    obtain ⟨e₁, hdirent, -, hstop⟩ := h.passed n' (Nat.lt_of_not_le hlt)
    rw [h'.dirent] at hdirent
    rw [← Option.some.inj hdirent, h'.meets] at hstop
    exact Bool.false_ne_true hstop.symm
  obtain rfl := Nat.le_antisymm (hle h h') (hle h' h)
  exact ⟨rfl, Option.some.inj (h.dirent.symm.trans h'.dirent)⟩

theorem Finds.congr {stop : Dirent → Bool} {n : ℕ} {e : Dirent} (hd : v'.dpb = v.dpb)
    (hf : v'.fat = v.fat) (hk : v'.disk = v.disk) (h : Finds v' dir stop n e) :
    Finds v dir stop n e := by
  have hdirent := dirent_congr hd hf hk dir
  obtain ⟨h1, h2, h3, h4, h5⟩ := h
  simp only [hdirent] at h2 h5
  exact ⟨h1, h2, h3, h4, h5⟩

/-- A search from the first entry on finds it, or there is nothing to find, or an access fails. -/
theorem HasSearched.finds {stop : Dirent → Bool} {n : ℕ} {r : ℤ × FNode × Volume}
    (h : HasSearched v dir stop fnp n r) (h0 : fnp.dmEntry = 0) :
    (r.1 = 1 ∧ ∃ place, slot v dir n = some place ∧ At v place r.2.1 ∧
        Finds v dir stop n (entryAt v place)) ∨
      r.1 ≠ 1 ∧ (¬ Sound v ∨ ∀ m e, ¬ Finds v dir stop m e) := by
  have hpassed : ∀ k < n, ∃ e, dirent v dir k = some e ∧ e.name[0] ≠ 0 ∧ stop e = false :=
    fun k hk => h.passed k (h0 ▸ Nat.zero_le k) hk
  -- behind the entries that were passed there is no other one to find
  have hnot : (∀ e, dirent v dir n = some e → n < 65535 → e.name[0] = 0) →
      ∀ m e, ¬ Finds v dir stop m e := by
    intro hend m e hm
    rcases Nat.lt_trichotomy m n with hlt | rfl | hlt
    · obtain ⟨e', he', -, hstop⟩ := hpassed m hlt
      rw [hm.dirent] at he'
      rw [← Option.some.inj he', hm.meets] at hstop
      exact Bool.false_ne_true hstop.symm
    · exact hm.used (hend e hm.dirent hm.lt)
    · obtain ⟨e', he', hne, -⟩ := hm.passed n hlt
      exact hne (hend e' he' (Nat.lt_trans hlt hm.lt))
  rcases h.result with ⟨place, hlt, hslot, hat, ⟨hrc, hne, hstop⟩ | ⟨hrc, hzero⟩⟩ | ⟨hrc, hnone⟩
  · refine Or.inl ⟨hrc, place, hslot, hat, hlt, ?_, hne, hstop, hpassed⟩
    rw [dirent, hslot]
    rfl
  · refine Or.inr ⟨by omega, Or.inr (hnot fun e he _ => ?_)⟩
    rw [dirent, hslot] at he
    exact Option.some.inj he ▸ hzero
  · refine Or.inr ⟨by omega, ?_⟩
    rcases hnone with hge | hnone | hfail
    · exact Or.inr (hnot fun e _ hlt => absurd hlt (Nat.not_lt.mpr hge))
    · refine Or.inr (hnot fun e he _ => ?_)
      rw [dirent, hnone] at he
      exact (nomatch he)
    · exact Or.inl hfail

/-- Where the directory starts that has its start cluster in an entry, 0 for the root. -/
def startOf (d : Dpb) (cluster : ℕ) : ℕ :=
  if cluster = 0 ∧ d.isFat32 = true then d.xrootclst else cluster

/-- The rest of a path leads from one directory to another one, and the name compared last becomes
another one too: each component but perhaps the last is a directory in the one before. -/
inductive Leads (v : Volume) (split : Bool) : Path → ℕ × Name → ℕ × Name → Prop where
  | nil (s : ℕ × Name) : Leads v split [] s s
  | root (c : UInt8) (s : ℕ × Name) : Leads v split [c] s s
  | last (c : UInt8) (dirname : Path) (s : ℕ × Name) : dirname ≠ [] → split = true →
      (convertNameSZToName83 dirname).2 = [] →
      Leads v split (c :: dirname) s (s.1, (convertNameSZToName83 dirname).1)
  | step (c : UInt8) (dirname : Path) (s s' : ℕ × Name) (n : ℕ) (e : Dirent) : dirname ≠ [] →
      ¬ (split = true ∧ (convertNameSZToName83 dirname).2 = []) →
      Finds v s.1 (named (convertNameSZToName83 dirname).1) n e → e.attrib &&& dDir ≠ 0 →
      Leads v split (convertNameSZToName83 dirname).2
        (startOf v.dpb (getdstart v.dpb e), (convertNameSZToName83 dirname).1) s' →
      Leads v split (c :: dirname) s s'

theorem Leads.congr {split : Bool} {dirname : Path} {s s' : ℕ × Name} (hd : v'.dpb = v.dpb)
    (hf : v'.fat = v.fat) (hk : v'.disk = v.disk) (h : Leads v' split dirname s s') :
    Leads v split dirname s s' := by
  induction h with
  | nil s => exact .nil s
  | root c s => exact .root c s
  | last c dirname s hne hsplit hend => exact .last c dirname s hne hsplit hend
  | step c dirname s s' n e hne hlast hfinds hdir _ ih =>
    rw [hd] at ih
    exact .step c dirname s s' n e hne hlast (hfinds.congr hd hf hk) hdir ih

/-- The directory does not depend on the name compared last, and the two are unique. -/
theorem Leads.unique_dir {split : Bool} {dirname : Path} {s s' t t' : ℕ × Name}
    (h : Leads v split dirname s s') (h' : Leads v split dirname t t') (hst : s.1 = t.1) :
    s'.1 = t'.1 ∧ (s = t → s' = t') := by
  induction h generalizing t with
  | nil s => cases h'; exact ⟨hst, id⟩
  | root c s =>
    cases h' with
    | root => exact ⟨hst, id⟩
    | last _ _ _ hne => exact absurd rfl hne
    | step _ _ _ _ _ _ hne => exact absurd rfl hne
  | last c dirname s hne hsplit hend =>
    cases h' with
    | root => exact absurd rfl hne
    | last => exact ⟨hst, fun h => h ▸ rfl⟩
    | step _ _ _ _ _ _ _ hlast => exact absurd ⟨hsplit, hend⟩ hlast
  | step c dirname s s' n e hne hlast hfinds hdir _ ih =>
    cases h' with
    | root => exact absurd rfl hne
    | last _ _ _ _ hsplit hend => exact absurd ⟨hsplit, hend⟩ hlast
    | step _ _ _ _ n' e' _ _ hfinds' _ hleads' =>
      obtain ⟨-, rfl⟩ := (hst ▸ hfinds).unique hfinds'
      have := ih hleads' rfl
      exact ⟨this.1, fun _ => this.2 rfl⟩

theorem Leads.unique {split : Bool} {dirname : Path} {s s' s'' : ℕ × Name}
    (h : Leads v split dirname s s') (h' : Leads v split dirname s s'') : s' = s'' :=
  (h.unique_dir h' rfl).2 rfl

theorem convertLoop_length (i : ℕ) (fcbname : Name) (dirname : Path) :
    (convertLoop i fcbname dirname).2.length ≤ dirname.length := by
  induction dirname generalizing i fcbname with
  | nil => exact Nat.le_refl _
  | cons c dirname ih =>
    rw [convertLoop]
    split_ifs
    all_goals first
      | exact Nat.le_refl _
      | exact (ih _ _).trans (Nat.le_succ _)

theorem stands_init (v : Volume) (fnp : FNode) (c : ℕ) :
    Stands v (startOf v.dpb c) { dirInitFnode v.dpb fnp c with dmEntry := 0 } :=
  ⟨rfl, rfl, fun _ => rfl⟩

/-- What the walk along a path comes to: the directory it leads to, unless it leads nowhere or an
access fails. -/
structure HasOpened (v : Volume) (split : Bool) (dirname : Path) (dir : ℕ) (fnp : FNode)
    (r : Bool × FNode × Volume) : Prop where
  readOnly : ReadOnly v r.2.2
  dcb : r.2.1.dcb = fnp.dcb
  result : (r.1 = true ∧ r.2.1.dmEntry = 0 ∧
      ∃ s', Leads v split dirname (dir, fnp.dmNamePat) s' ∧ Stands v s'.1 r.2.1 ∧
        r.2.1.dmNamePat = s'.2) ∨
    r.1 = false ∧ (¬ Sound v ∨ ∀ s', ¬ Leads v split dirname (dir, fnp.dmNamePat) s')

theorem openLoop_spec (split : Bool) (n : ℕ) (dirname : Path) (hst : Stands v dir fnp)
    (h0 : fnp.dmEntry = 0) (hn : dirname.length ≤ n) :
    HasOpened v split dirname dir fnp (openLoop split n dirname v fnp) := by
  induction n generalizing dirname dir fnp v with
  | zero =>
    obtain rfl := List.eq_nil_of_length_eq_zero (Nat.le_zero.mp hn)
    exact ⟨.refl v, rfl, Or.inl ⟨rfl, h0, _, .nil _, hst, rfl⟩⟩
  | succ n ih =>
    rcases dirname with - | ⟨c, dirname⟩
    · exact ⟨.refl v, rfl, Or.inl ⟨rfl, h0, _, .nil _, hst, rfl⟩⟩
    · rw [openLoop]
      by_cases hne : dirname = []
      · subst hne
        exact ⟨.refl v, rfl, Or.inl ⟨rfl, h0, _, .root c _, hst, rfl⟩⟩
      · rw [if_neg (by simpa using hne)]
        dsimp only
        have hlen : (convertNameSZToName83 dirname).2.length ≤ dirname.length :=
          convertLoop_length _ _ _
        have hlast := @Leads.last v split c dirname (dir, fnp.dmNamePat) hne
        have hstep := @Leads.step v split c dirname (dir, fnp.dmNamePat)
        have hinv : ∀ s', Leads v split (c :: dirname) (dir, fnp.dmNamePat) s' →
            ¬ (split = true ∧ (convertNameSZToName83 dirname).2 = []) →
            ∃ n e, Finds v dir (named (convertNameSZToName83 dirname).1) n e ∧
              e.attrib &&& dDir ≠ 0 ∧ Leads v split (convertNameSZToName83 dirname).2
                (startOf v.dpb (getdstart v.dpb e), (convertNameSZToName83 dirname).1) s' := by
          intro s' h hnot
          cases h with
          | root => exact absurd rfl hne
          | last _ _ _ _ h1 h2 => exact absurd ⟨h1, h2⟩ hnot
          | step _ _ _ _ n e _ _ hf hd hl => exact ⟨n, e, hf, hd, hl⟩
        generalize convertNameSZToName83 dirname = conv at hlen hlast hstep hinv ⊢
        by_cases hend : split = true ∧ conv.2 = []
        · rw [if_pos (by simp [hend.1, hend.2])]
          exact ⟨.refl v, rfl, Or.inl ⟨rfl, h0, _, hlast hend.1 hend.2,
            ⟨hst.sftIdx, hst.dmDircluster, hst.cluster⟩, rfl⟩⟩
        · rw [if_neg (by simpa using hend)]
          have hst₁ : Stands v dir { fnp with dmNamePat := conv.1 } :=
            ⟨hst.sftIdx, hst.dmDircluster, hst.cluster⟩
          obtain ⟨m, hsearch⟩ := search_spec (named conv.1) hst₁
          generalize search (named conv.1) v { fnp with dmNamePat := conv.1 } = r at hsearch ⊢
          have hro := hsearch.readOnly
          obtain ⟨_, _, _, _, _, _, hw⟩ := hsearch.walked
          have hdcb : r.2.1.dcb = fnp.dcb := by rw [hw]
          have hpat : r.2.1.dmNamePat = conv.1 := by rw [hw]
          rcases hsearch.finds h0 with ⟨hrc, place, -, hat, hfinds⟩ | ⟨hrc, hnone⟩
          · rw [hat.dir]
            by_cases hdir : (entryAt v place).attrib &&& dDir ≠ 0
            · rw [if_pos ⟨hrc, hdir⟩]
              have hst₂ := stands_init r.2.2 r.2.1 (getdstart r.2.2.dpb (entryAt v place))
              obtain ⟨hro', hdcb', hres⟩ := ih conv.2 hst₂ rfl (by
                rw [List.length_cons] at hn
                omega)
              refine ⟨hro.trans hro', hdcb'.trans hdcb, ?_⟩
              change (_ ∧ _ ∧ ∃ s', Leads _ _ _ (_, r.2.1.dmNamePat) s' ∧ _) ∨
                _ ∧ (_ ∨ ∀ s', ¬ Leads _ _ _ (_, r.2.1.dmNamePat) s') at hres
              rw [hpat] at hres
              rcases hres with ⟨hrc', h0', s', hleads, hst', hpat'⟩ | ⟨hrc', hnone⟩
              · have hleads := hleads.congr hro.dpb hro.fat hro.disk
                rw [hro.dpb] at hleads
                exact Or.inl ⟨hrc', h0', s', hstep s' m _ hne hend hfinds hdir hleads,
                  hst'.congr hro.dpb.symm hro.fat.symm, hpat'⟩
              · refine Or.inr ⟨hrc', hnone.imp (mt hro.sound) fun h s' hl => ?_⟩
                obtain ⟨n', e', hf, -, hl'⟩ := hinv s' hl hend
                obtain ⟨-, rfl⟩ := hfinds.unique hf
                rw [hro.dpb] at h
                exact h s' (hl'.congr hro.dpb.symm hro.fat.symm hro.disk.symm)
            · rw [if_neg (fun h => hdir h.2)]
              refine ⟨hro, hdcb, Or.inr ⟨rfl, Or.inr fun s' h => ?_⟩⟩
              obtain ⟨n', e', hf, hd, -⟩ := hinv s' h hend
              obtain ⟨-, rfl⟩ := hfinds.unique hf
              exact hdir hd
          · rw [if_neg (fun h => hrc h.1)]
            refine ⟨hro, hdcb, Or.inr ⟨rfl, hnone.imp_right fun h s' hl => ?_⟩⟩
            obtain ⟨n', e', hf, -⟩ := hinv s' hl hend
            exact h n' e' hf

/-- The drive of a path, as an fnode has it. -/
def driveOf (path : Path) : ℕ := (path.headD 0).toNat - 0x41

/-- **`dir_open`** goes to the directory that the path leads to. -/
theorem dirOpen_spec (v : Volume) (fnp : FNode) (path : Path) (split : Bool) :
    HasOpened v split (path.drop 2) (startOf v.dpb 0) { fnp with dcb := driveOf path }
      (dirOpen v fnp path split) := by
  have h := openLoop_spec split path.length (path.drop 2)
    (stands_init v { fnp with dcb := driveOf path } 0) rfl
    (List.drop_sublist 2 path).length_le
  exact ⟨h.readOnly, h.dcb, h.result⟩

/-- The directory and the name that a path of a file leads to. -/
def Splits (v : Volume) (path : Path) (pat : Name) (s : ℕ × Name) : Prop :=
  path.getLast? ≠ some backslash ∧ Leads v true (path.drop 2) (startOf v.dpb 0, pat) s

theorem Splits.unique {path : Path} {pat : Name} {s s' : ℕ × Name} (h : Splits v path pat s)
    (h' : Splits v path pat s') : s = s' :=
  h.2.unique h'.2

/-- What `split_path` comes to. -/
structure HasSplit (v : Volume) (path : Path) (fnp : FNode) (r : Bool × FNode × Volume) : Prop where
  readOnly : ReadOnly v r.2.2
  result : (r.1 = true ∧ r.2.1.dmEntry = 0 ∧ r.2.1.dcb = driveOf path ∧
      ∃ s, Splits v path fnp.dmNamePat s ∧ Stands v s.1 r.2.1 ∧ r.2.1.dmNamePat = s.2) ∨
    r.1 = false ∧ (¬ Sound v ∨ ∀ s, ¬ Splits v path fnp.dmNamePat s)

theorem splitPath_spec (v : Volume) (fnp : FNode) (path : Path) :
    HasSplit v path fnp (splitPath v fnp path) := by
  rw [splitPath]
  split
  · rename_i hlast
    exact ⟨.refl v, Or.inr ⟨rfl, Or.inr fun s h => h.1 hlast⟩⟩
  · rename_i hlast
    obtain ⟨hro, hdcb, hres⟩ := dirOpen_spec v fnp path true
    refine ⟨hro, hres.imp ?_ fun h => ⟨h.1, h.2.imp_right fun h s hs => h s hs.2⟩⟩
    rintro ⟨hrc, h0, s, hs, hst, hpat⟩
    exact ⟨hrc, h0, hdcb, s, ⟨hlast, hs⟩, hst, hpat⟩

/-- What `find_fname` comes to: the entry, or no such entry in the directory, or no such directory;
the latter two unless an access fails. -/
structure HasFound (v : Volume) (path : Path) (attr : UInt8) (fnp : FNode)
    (r : ℤ × FNode × Volume) : Prop where
  readOnly : ReadOnly v r.2.2
  result : (r.1 ≠ dePathNotFnd ∧ r.2.1.dcb = driveOf path ∧
      ∃ s, Splits v path fnp.dmNamePat s ∧ Stands v s.1 r.2.1 ∧ r.2.1.dmNamePat = s.2 ∧
        ((r.1 = success ∧ ∃ place, slot v s.1 r.2.1.dmEntry = some place ∧ At v place r.2.1 ∧
            Finds v s.1 (found s.2 attr) r.2.1.dmEntry (entryAt v place)) ∨
          r.1 = deFileNotFnd ∧ (¬ Sound v ∨ ∀ n e, ¬ Finds v s.1 (found s.2 attr) n e))) ∨
    r.1 = dePathNotFnd ∧ (¬ Sound v ∨ ∀ s, ¬ Splits v path fnp.dmNamePat s)

/-- **`find_fname`** finds what the path leads to. -/
theorem findFname_spec (v : Volume) (fnp : FNode) (path : Path) (attr : UInt8) :
    HasFound v path attr fnp (findFname v fnp path attr) := by
  have hsplit := splitPath_spec v fnp path
  rw [findFname]
  generalize splitPath v fnp path = o at hsplit ⊢
  obtain ⟨hro, ⟨hrc, h0, hdcb, s, hs, hst, hpat⟩ | ⟨hrc, hnone⟩⟩ := hsplit
  · rw [hrc]
    simp only [Bool.not_true, Bool.false_eq_true, if_false]
    rw [hpat]
    obtain ⟨m, hsearch⟩ := search_spec (found s.2 attr) (hst.congr hro.dpb hro.fat)
    generalize search (found s.2 attr) o.2.2 o.2.1 = r at hsearch ⊢
    obtain ⟨_, _, _, _, _, _, hw⟩ := hsearch.walked
    have hst' := hsearch.stands.congr hro.dpb.symm hro.fat.symm
    have hro' := hro.trans hsearch.readOnly
    have hm : r.2.1.dmEntry = m := by rw [hw]
    refine ⟨hro', Or.inl ⟨?_, by rw [hw]; exact hdcb, s, hs, hst', by rw [hw]; exact hpat, ?_⟩⟩
    · dsimp only
      split <;> decide
    · dsimp only
      rw [hm]
      rcases hsearch.finds h0 with ⟨hrc', place, hslot, hat, hfinds⟩ | ⟨hrc', hnone⟩
      · rw [if_pos hrc']
        rw [hro.slot] at hslot
        rw [entryAt_congr hro.disk] at hfinds
        exact Or.inl ⟨rfl, place, hslot, ⟨hat.seat, hat.dir.trans (entryAt_congr hro.disk _)⟩,
          hfinds.congr hro.dpb hro.fat hro.disk⟩
      · rw [if_neg hrc']
        exact Or.inr ⟨rfl, hnone.imp (mt hro.sound) fun h n e hf =>
          h n e (hf.congr hro.dpb.symm hro.fat.symm hro.disk.symm)⟩
  · rw [hrc]
    exact ⟨hro, Or.inr ⟨rfl, hnone⟩⟩

/-! ## A small volume -/

/-- An fnode that has not been used. -/
def smallFNode : FNode := sftToFnode (smallSystem (smallVolume (fun _ => free) [])
  (smallSft 0 0 0 0 0) (smallSft 0 0 0 0 0)) 0

/-- `C:\A` -/
def pathA : Path := [0x43, 0x3a, 0x5c, 0x41]

/-- The name `F`. -/
def nameF : Name := (Vector.replicate 11 blank).setIfInBounds 0 0x46

/-- A volume with a directory `A` in its root, which has a file `F` of one byte. -/
def smallTree (outcomes : List Outcome) : Volume :=
  let entry (attrib : UInt8) (cluster : ℕ) (name : Name) : List UInt8 :=
    (initDirentry attrib cluster name 0 0).bytes
  let root := putBytes (fun _ _ => 0) 7 0 (entry dDir 2 (convertNameSZToName83 [0x41]).1)
  let a := putBytes (putBytes root 8 0 (entry dDir 2 dotName)) 8 32 (entry dDir 0 dotDotName)
  { smallVolume (fun c => if c = 2 ∨ c = 3 then 0xfff else 0) outcomes with
    disk := putBytes a 8 64 { initDirentry dArchive 3 nameF 0 0 with size := 1 }.bytes }

end Dir
end BurdahDos
