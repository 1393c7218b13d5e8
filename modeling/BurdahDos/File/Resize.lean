import BurdahDos.File.Chain
import Mathlib

/-!
# Extending and truncating a file

`dos_extend` and `shrink_file` keep an fnode placed in the chain of its file, whatever becomes of
them.  The one makes the chain longer, the other cuts it to the `clustersFor` the new size.
-/

set_option autoImplicit false

namespace BurdahDos
namespace File

open Fat

variable {v : Volume} {L L' : List ℕ} {fnp : FNode} {mode : XfrMode}

/-! ## Arithmetic of clusters -/

theorem clusterSize_pos {d : Dpb} (hd : d.Ok) : 0 < d.clusterSize := by
  obtain ⟨k, -, -, hk⟩ := hd.sectors
  rw [Dpb.clusterSize, Dpb.clusterSectors, hk]
  exact Nat.mul_pos (Nat.two_pow_pos k) (Nat.two_pow_pos _)

theorem relcluster_eq (fnp : FNode) (d : Dpb) :
    fnp.relcluster d = fnp.offset / d.clusterSize := by
  rw [FNode.relcluster, Nat.shiftRight_eq_div_pow, Nat.div_div_eq_div_mul]
  rfl

/-- The number of clusters that hold `size` bytes. -/
def clustersFor (d : Dpb) (size : ℕ) : ℕ := (size + d.clusterSize - 1) / d.clusterSize

section
variable {d : Dpb} (hd : d.Ok)
include hd

theorem clustersFor_pos {size : ℕ} (hs : 0 < size) :
    clustersFor d size = (size - 1) / d.clusterSize + 1 := by
  have hcls := clusterSize_pos hd
  rw [clustersFor, show size + d.clusterSize - 1 = size - 1 + d.clusterSize by omega,
    Nat.add_div_right _ hcls]

theorem clustersFor_zero : clustersFor d 0 = 0 := by
  have hcls := clusterSize_pos hd
  rw [clustersFor]
  exact Nat.div_eq_of_lt (by omega)

/-- So many clusters are what it takes. -/
theorem clustersFor_le_iff {size n : ℕ} : clustersFor d size ≤ n ↔ size ≤ n * d.clusterSize := by
  have hcls := clusterSize_pos hd
  rw [clustersFor, Nat.div_le_iff_le_mul_add_pred hcls, Nat.mul_comm]
  omega

theorem special_iff (offset : ℕ) :
    (offset &&& ((d.secsize <<< d.shftcnt) - 1) == 0) = decide (offset % d.clusterSize = 0) := by
  obtain ⟨k, -, -, hk⟩ := hd.sectors
  have hpow : d.secsize <<< d.shftcnt = 2 ^ (k + d.shftcnt) := by
    rw [hk, Nat.shiftLeft_eq, ← Nat.pow_add]
  have hcls : d.clusterSize = 2 ^ (k + d.shftcnt) := by
    rw [Dpb.clusterSize, Dpb.clusterSectors, hk, ← Nat.pow_add]
  rw [hpow, Nat.and_two_pow_sub_one_eq_mod, hcls]
  rfl

end

theorem fullSize_eq {d : Dpb} (hlt : (fnp.clusterOffset + 1) * d.clusterSize < 2 ^ 32) :
    fnp.fullSize d = (fnp.clusterOffset + 1) * d.clusterSize := by
  have heq : ((fnp.clusterOffset + 1) * d.secsize) <<< d.shftcnt =
      (fnp.clusterOffset + 1) * d.clusterSize := by
    rw [Nat.shiftLeft_eq, Nat.mul_assoc]
    rfl
  rw [FNode.fullSize, heq, Nat.mod_eq_of_lt hlt]

/-! ## What SFTs are told -/

/-- The SFTs are as they were, except for what `merge_file_changes` tells those that have the file
open besides `fd`. -/
structure OnlyTold (fd : ℕ) (s s' : System) : Prop where
  total : s'.total = s.total
  share : s'.shareInstalled = s.shareInstalled
  self : s'.sft fd = s.sft fd
  others : ∀ i, ∃ stclust size time date, s'.sft i =
    { s.sft i with stclust := stclust, size := size, time := time, date := date }

theorem OnlyTold.refl (fd : ℕ) (s : System) : OnlyTold fd s s :=
  ⟨rfl, rfl, rfl, fun _ => ⟨_, _, _, _, rfl⟩⟩

theorem OnlyTold.trans {fd : ℕ} {s s' s'' : System} (h : OnlyTold fd s s')
    (h' : OnlyTold fd s' s'') : OnlyTold fd s s'' := by
  refine ⟨h'.total.trans h.total, h'.share.trans h.share, h'.self.trans h.self, fun i => ?_⟩
  obtain ⟨a, b, c, d, heq⟩ := h'.others i
  obtain ⟨_, _, _, _, heq'⟩ := h.others i
  exact ⟨a, b, c, d, by rw [heq, heq']⟩

/-- Only the volume changes. -/
theorem OnlyTold.vol (fd : ℕ) (s : System) (v : Volume) : OnlyTold fd s { s with vol := v } :=
  ⟨rfl, rfl, rfl, fun _ => ⟨_, _, _, _, rfl⟩⟩

theorem mergeFileChanges_told (s : System) (fnp : FNode) :
    OnlyTold fnp.sftIdx s (mergeFileChanges s fnp) := by
  refine ⟨rfl, rfl, ?_, fun i => ?_⟩
  · simp [mergeFileChanges, FNode.sameFile]
  · dsimp only [mergeFileChanges]
    split <;> exact ⟨_, _, _, _, rfl⟩

/-! ## `dos_extend` -/

/-- The fnode has moved, and the size of its file may have changed. -/
def Resized (fnp fnp' : FNode) : Prop := ∃ size, Moved (fnp.setSize size) fnp'

theorem Moved.resized {fnp fnp' : FNode} (h : Moved fnp fnp') : Resized fnp fnp' :=
  ⟨fnp.dir.size, h⟩

theorem Moved.setSize {fnp fnp' : FNode} (h : Moved fnp fnp') (size : ℕ) :
    Resized fnp (fnp'.setSize size) := by
  obtain ⟨_, _, _, _, rfl⟩ := h
  exact ⟨size, _, _, _, _, rfl⟩

/-- The position is set to something else meanwhile. -/
theorem Moved.seek_back {fnp fnp' : FNode} {offset : ℕ} (h : Moved (fnp.seek offset) fnp') :
    Moved fnp (fnp'.seek fnp.offset) := by
  obtain ⟨_, _, _, _, rfl⟩ := h
  exact ⟨_, _, _, _, rfl⟩

theorem Moved.seek {fnp fnp' : FNode} (h : Moved fnp fnp') (offset : ℕ) :
    Moved (fnp.seek offset) (fnp'.seek offset) := by
  obtain ⟨_, _, _, _, rfl⟩ := h
  exact ⟨_, _, _, _, rfl⟩

theorem Placed.setSize {d : Dpb} (h : Placed d L fnp) (size : ℕ) :
    Placed d L (fnp.setSize size) := ⟨h.head, h.cached⟩

theorem Placed.seek {d : Dpb} (h : Placed d L fnp) (offset : ℕ) :
    Placed d L (fnp.seek offset) := ⟨h.head, h.cached⟩

theorem deHndlDskFull_ne : deHndlDskFull ≠ success := by decide

/-- The last cluster that `dos_extend` wants. -/
def extendTarget (d : Dpb) (offset : ℕ) (emptywrite : Bool) : ℕ :=
  if emptywrite then clustersFor d offset - 1 else offset / d.clusterSize

theorem extendTarget_eq {d : Dpb} (hd : d.Ok) {offset : ℕ} (hpos : 0 < offset)
    (emptywrite : Bool) :
    (if (emptywrite && decide (offset % d.clusterSize = 0)) = true then offset - 1 else offset) /
      d.clusterSize = extendTarget d offset emptywrite := by
  have hcls := clusterSize_pos hd
  cases emptywrite with
  | false => rfl
  | true =>
    rw [extendTarget, if_pos rfl, clustersFor_pos hd hpos, Nat.add_sub_cancel, Bool.true_and]
    split
    · rfl
    · rename_i hmod
      have hrem : 0 < offset % d.clusterSize := Nat.pos_of_ne_zero (by simpa using hmod)
      have hdiv := Nat.div_add_mod offset d.clusterSize
      have hlt := Nat.mod_lt offset hcls
      refine (Nat.div_eq_of_lt_le ?_ ?_).symm
      · rw [Nat.mul_comm]; omega
      · rw [Nat.succ_mul, Nat.mul_comm]; omega

theorem extendTarget_le {d : Dpb} (hd : d.Ok) {offset n : ℕ} {emptywrite : Bool}
    (hn : n ≤ extendTarget d offset emptywrite) : n * d.clusterSize ≤ offset := by
  cases emptywrite with
  | false => exact (Nat.mul_le_mul_right _ hn).trans (Nat.div_mul_le_self _ _)
  | true =>
    rcases Nat.eq_zero_or_pos n with rfl | hpos
    · simp
    · by_contra hlt
      have := (clustersFor_le_iff hd).mpr (Nat.le_of_not_le hlt)
      rw [extendTarget, if_pos rfl] at hn
      omega

/-- What `dos_extend` leaves. -/
structure Extended (emptywrite : Bool) (fnp : FNode) (s : System) (L L' : List ℕ)
    (r : ℤ × FNode × System) : Prop where
  grown : Grown L L' s.vol r.2.2.vol
  sectors : SameSectors s.vol r.2.2.vol
  placed : Placed r.2.2.vol.dpb L' r.2.1
  resized : Resized fnp r.2.1
  told : OnlyTold fnp.sftIdx s r.2.2
  bound : L'.length ≤ max L.length (extendTarget s.vol.dpb fnp.offset emptywrite + 1)
  result : r = (success, fnp, s) ∧ L' = L ∧ fnp.offset ≤ fnp.dir.size ∨
    fnp.dir.size < fnp.offset ∧ r.1 = success ∧ r.2.1.dir.size = fnp.offset ∧
      extendTarget s.vol.dpb fnp.offset emptywrite < L'.length ∧ r.2.1.On L' ∨
    fnp.dir.size < fnp.offset ∧ r.1 ≠ success ∧
      r.2.1.dir.size = (if L' = [] then fnp.dir.size else L'.length * s.vol.dpb.clusterSize) ∧
      L'.length ≤ extendTarget s.vol.dpb fnp.offset emptywrite ∧ r.2.2.vol.freeCount = 0

/-- **What `dos_extend` does.** -/
theorem dosExtend_spec {s : System} (h : s.vol.Ok) (hL : s.vol.IsChain L)
    (hp : Placed s.vol.dpb L fnp) (hidx : fnp.sftIdx ≠ 0xff) (hoff : fnp.offset < 2 ^ 32)
    (emptywrite : Bool) :
    ∃ L', Extended emptywrite fnp s L L' (dosExtend s fnp emptywrite) := by
  by_cases hle : fnp.offset ≤ fnp.dir.size
  · rw [dosExtend, if_pos hle]
    exact ⟨L, .refl h hL, .refl _, hp, ⟨_, .refl _⟩, .refl _ s, Nat.le_max_left _ _,
      Or.inl ⟨rfl, rfl, hle⟩⟩
  · have hlt : fnp.dir.size < fnp.offset := Nat.lt_of_not_le hle
    rw [dosExtend, if_neg hle]
    generalize hoffset₁ : (if emptywrite &&
      fnp.offset &&& ((s.vol.dpb.secsize <<< s.vol.dpb.shftcnt) - 1) == 0 then fnp.offset - 1
      else fnp.offset) = offset₁
    have htarget : (fnp.seek offset₁).relcluster s.vol.dpb =
        extendTarget s.vol.dpb fnp.offset emptywrite := by
      rw [relcluster_eq, ← hoffset₁, special_iff h.dpb]
      exact extendTarget_eq h.dpb (Nat.zero_lt_of_lt hlt) emptywrite
    obtain ⟨L', hm⟩ := mapCluster_spec .write h hL (hp.seek offset₁) fun _ => hidx
    have hsectors := mapCluster_sectors s.vol (fnp.seek offset₁) .write
    rw [htarget] at hm
    dsimp only
    generalize mapCluster s.vol (fnp.seek offset₁) .write = m at hm hsectors ⊢
    have hmoved := hm.moved.seek_back
    have hplaced := hm.placed.seek fnp.offset
    have htold (fnp' : FNode) (hidx' : fnp'.sftIdx = fnp.sftIdx) :
        OnlyTold fnp.sftIdx s (mergeFileChanges { s with vol := m.2.2 } fnp') :=
      (OnlyTold.vol _ s m.2.2).trans (hidx' ▸ mergeFileChanges_told { s with vol := m.2.2 } fnp')
    have hsftIdx : m.2.1.sftIdx = fnp.sftIdx := by
      obtain ⟨_, _, _, _, heq⟩ := hm.moved
      rw [heq]
      rfl
    refine ⟨L', ?_⟩
    rcases hm.result with ⟨hrc, hon, hat⟩ | ⟨hout, hlen, hlast⟩
    · -- the cluster is there
      rw [if_neg (not_not_intro hrc)]
      refine ⟨hm.grown, hsectors, hplaced.setSize _, hmoved.setSize _, htold _ hsftIdx,
        hm.bound, Or.inr (Or.inl ⟨hlt, rfl, rfl, ?_, hon⟩)⟩
      rw [← hat]
      exact (List.getElem?_eq_some_iff.mp hon).1
    · rw [if_pos hout.ne_success]
      have hfull : m.2.2.freeCount = 0 := by
        rcases hout with ⟨hr, -⟩ | ⟨-, -, hfull⟩
        · cases hr
        · exact hfull
      have hfree := hm.placed.free_iff hm.grown.chain
      by_cases hnil : L' = []
      · -- not even one cluster
        have hcl : ¬ (m.2.1.seek fnp.offset).cluster ≠ free := not_not_intro (hfree.mpr hnil)
        rw [if_neg hcl]
        refine ⟨hm.grown, hsectors, hplaced, hmoved.resized, .vol _ s _,
          hm.bound, Or.inr (Or.inr ⟨hlt, deHndlDskFull_ne, ?_, hlen, hfull⟩)⟩
        rw [if_pos hnil]
        obtain ⟨_, _, _, _, heq⟩ := hm.moved
        rw [heq]
        rfl
      · have hcl : (m.2.1.seek fnp.offset).cluster ≠ free := fun hcl => hnil (hfree.mp hcl)
        rw [if_pos hcl]
        refine ⟨hm.grown, hsectors, hplaced.setSize _, hmoved.setSize _, htold _ hsftIdx,
          hm.bound, Or.inr (Or.inr ⟨hlt, deHndlDskFull_ne, ?_, hlen, hfull⟩)⟩
        have hbytes := extendTarget_le h.dpb hlen
        rw [if_neg hnil, ← hlast hnil, ← hm.grown.kept.same.clusterSize]
        rw [← hlast hnil, ← hm.grown.kept.same.clusterSize] at hbytes
        exact (fullSize_eq (hbytes.trans_lt hoff) : (m.2.1.seek fnp.offset).fullSize m.2.2.dpb = _)

/-! ## `shrink_file` -/

/-- The chain has been cut to its first `k` clusters, and the others are free. -/
structure Cut (L : List ℕ) (k : ℕ) (v v' : Volume) : Prop where
  chain : v'.IsChain (L.take k)
  freed : ∀ c ∈ L.drop k, v'.entry c = free
  kept : Kept (· ∉ L) v v'
  disk : v'.disk = v.disk
  succeed : v.outcomes = [] → v'.outcomes = []

theorem Cut.refl (h : v.Ok) (hL : v.IsChain L) : Cut L L.length v v :=
  ⟨by rwa [List.take_length], fun _ hc => by simp at hc, Kept.refl h _, rfl, id⟩

theorem access_same {v' : Volume} (h : SameSectors v v') : v'.access.1 = v.access.1 := by
  rw [Volume.access, Volume.access, h.2]
  split <;> rfl

theorem access_kept (h : v.Ok) (keep : ℕ → Prop) :
    Kept keep v v.access.2 ∧ v.access.2.entry = v.entry ∧ v.access.2.disk = v.disk ∧
      (v.outcomes = [] → v.access.2.outcomes = []) := by
  rw [Volume.access]
  split
  · exact ⟨Kept.refl h _, rfl, rfl, id⟩
  · rename_i heq
    exact ⟨⟨⟨h.dpb, h.sound⟩, .refl _, fun _ _ => rfl⟩, rfl, rfl,
      fun hnil => by rw [hnil] at heq; cases heq⟩

/-- The clusters from position `k` on are freed, and the chain ends at the one before; if there is
none, the one at the beginning is freed as well. -/
theorem cut_spec (h : v.Ok) (hL : v.IsChain L) {k c : ℕ} (hc : L[k - 1]? = some c) :
    ∃ v', linkFat v c (if k = 0 then free else longLastCluster) = (0, v') ∧
      SameSectors v (wipeOutClusters v' ((L[k - 1 + 1]?).getD longLastCluster)) ∧
      Cut L k v (wipeOutClusters v' ((L[k - 1 + 1]?).getD longLastCluster)).access.2 := by
  obtain ⟨hlt, rfl⟩ := List.getElem?_eq_some_iff.mp hc
  have hmem : L[k - 1] ∈ L := List.getElem_mem hlt
  have hrest : L[k - 1] ∉ L.drop (k - 1 + 1) := fun hmem' => by
    have hsplit : L = L.take (k - 1) ++ L[k - 1] :: L.drop (k - 1 + 1) := by simp
    have hnd := hL.nodup
    rw [hsplit] at hnd
    exact (List.nodup_cons.mp (List.nodup_append.mp hnd).2.1).1 hmem'
  have hhead : (L[k - 1 + 1]?).getD longLastCluster =
      (L.drop (k - 1 + 1)).headD longLastCluster := by
    rw [List.headD_eq_head?_getD, List.head?_drop]
  obtain ⟨v₁, hlink, hkept₁, hentry₁, -⟩ := linkFat_write h (hL.range _ hmem)
    (by split <;> simp : (if k = 0 then free else longLastCluster) = free ∨
      (if k = 0 then free else longLastCluster) = longLastCluster ∨ v.dpb.Has _)
  have hL₁ := hkept₁.isChain_of_notMem (hL.drop (k - 1 + 1)) hrest
  obtain ⟨hkept₂, hfree⟩ := wipeOutClusters_spec hkept₁.ok hL₁
  rw [hhead]
  refine ⟨v₁, hlink, ?_⟩
  generalize hv₂ : wipeOutClusters v₁ _ = v₂ at hkept₂ hfree ⊢
  have hsectors : SameSectors v v₂ := by
    have h₁ := linkFat_sectors v L[k - 1] (if k = 0 then free else longLastCluster)
    rw [hlink] at h₁
    exact h₁.trans (hv₂ ▸ wipeLoop_sectors _ _ _)
  obtain ⟨hkept₃, hentry₃, hdisk₃, hnil₃⟩ := access_kept hkept₂.ok fun _ => True
  have hkept : Kept (· ∉ L) v v₂ := by
    refine (hkept₁.mono fun d hd => ?_).trans (hkept₂.mono fun d hd => ?_)
    · rintro rfl; exact hd hmem
    · exact fun hd' => hd (List.mem_of_mem_drop hd')
  refine ⟨hsectors, ?_, fun d hd => ?_, hkept.trans (hkept₃.mono fun _ _ => trivial),
    hdisk₃.trans hsectors.1, fun hnil => hnil₃ (hsectors.2.trans hnil)⟩
  · -- the clusters that are left
    refine hkept₃.isChain ?_ fun _ _ => trivial
    rcases Nat.eq_zero_or_pos k with rfl | hpos
    · exact v₂.isChain_nil
    · have hk : k - 1 + 1 = k := by omega
      have hlinked : Chained v₁.entry longLastCluster (L.take k) := by
        have hcut := hL.linked.take hL.nodup (List.getElem?_eq_getElem hlt)
        have hlast : v₁.entry = Function.update v.entry L[k - 1] longLastCluster := by
          rw [hentry₁, if_neg hpos.ne']
        rw [hlast]
        simpa only [hk] using hcut
      refine ⟨fun d hd => (hkept.same.has d).mpr (hL.range d (List.mem_of_mem_take hd)),
        hL.nodup.sublist (List.take_sublist k L), hlinked.congr fun d hd => ?_⟩
      refine hkept₂.entry d fun hd' => ?_
      rw [hk] at hd'
      have hnd := hL.nodup
      rw [← List.take_append_drop k L] at hnd
      exact List.disjoint_of_nodup_append hnd hd hd'
  · rw [hentry₃]
    rcases Nat.eq_zero_or_pos k with rfl | hpos
    · by_cases hd' : d ∈ L.drop (0 - 1 + 1)
      · exact hfree d hd'
      · have hfirst : d = L[0 - 1] := by
          cases L with
          | nil => simp at hd
          | cons e L =>
            rcases List.mem_cons.mp hd with rfl | hd
            · rfl
            · exact absurd hd hd'
        rw [hkept₂.entry d hd', hfirst, hentry₁, Function.update_self, if_pos rfl]
    · refine hfree d ?_
      rwa [show k - 1 + 1 = k by omega]

/-- What `shrink_file` leaves of a chain that is long enough for the size. -/
structure Shrunk (fnp : FNode) (v : Volume) (L : List ℕ) (k : ℕ) (r : ℤ × FNode × Volume) :
    Prop where
  cut : Cut L k v r.2.2
  placed : Placed r.2.2.dpb (L.take k) r.2.1
  moved : Moved fnp r.2.1
  result : r.1 = if k < L.length ∧ v.access.1.isSome then deAccess else success

theorem cutAfter_spec (h : v.Ok) (hL : v.IsChain L) (hp : Placed v.dpb L fnp)
    (hidx : fnp.sftIdx ≠ 0xff) {k : ℕ} (hon : L[k - 1]? = some fnp.cluster)
    (hat : fnp.clusterOffset = k - 1) (hk0 : k = 0 ↔ fnp.dir.size = 0) (hlen : k ≤ L.length) :
    Shrunk fnp v L k (cutAfter v fnp ((L[k - 1 + 1]?).getD longLastCluster)) := by
  have hlpos : 0 < L.length := (Nat.zero_le _).trans_lt (List.getElem?_eq_some_iff.mp hon).1
  by_cases hend : fnp.dir.size ≠ 0 ∧ (L[k - 1 + 1]?).getD longLastCluster = longLastCluster
  · -- the chain ends there already
    have hpos : 0 < k := Nat.pos_of_ne_zero fun h0 => hend.1 (hk0.mp h0)
    have hlast : L.length = k := by
      refine Nat.le_antisymm (Nat.not_lt.mp fun hlt => ?_) hlen
      rw [show k - 1 + 1 = k by omega, List.getElem?_eq_getElem hlt] at hend
      have := h.dpb.has_lt (hL.range _ (List.getElem_mem hlt))
      rw [show L[k] = longLastCluster from hend.2] at this
      exact absurd this (by decide)
    rw [cutAfter, if_pos hend]
    refine ⟨hlast ▸ Cut.refl h hL, ?_, .refl fnp, by simp [hlast]⟩
    rwa [← hlast, List.take_length]
  · obtain ⟨v₁, hlink, hsectors, hcut⟩ := cut_spec (k := k) h hL hon
    have hlt : k < L.length := by
      refine Nat.lt_of_le_of_ne hlen fun heq => hend ⟨fun h0 => ?_, ?_⟩
      · exact hlpos.ne' (heq ▸ hk0.mpr h0)
      · rw [show k - 1 + 1 = k by omega, heq, List.getElem?_eq_none (Nat.le_refl _)]
        rfl
    have hrc : (if (wipeOutClusters v₁ ((L[k - 1 + 1]?).getD longLastCluster)).flushBuffers.1
        then success else deAccess) =
        if k < L.length ∧ v.access.1.isSome then deAccess else success := by
      rw [Volume.flushBuffers, access_same hsectors]
      cases v.access.1 <;> simp [hlt]
    rw [cutAfter, if_neg hend]
    by_cases h0 : fnp.dir.size = 0
    · -- nothing is left
      obtain rfl := hk0.mpr h0
      rw [if_pos rfl] at hlink
      simp only [h0, if_true, hlink, ne_eq, not_true, if_false]
      refine ⟨hcut, ⟨?_, Or.inl ⟨rfl, rfl, hat⟩⟩, ⟨_, _, _, _, rfl⟩, hrc⟩
      refine (head_same hcut.kept.same _).trans ?_
      rw [FNode.head, if_neg (by exact hidx)]
      exact getdstart_setdstart h.dpb _ (Or.inl rfl)
    · have hpos : 0 < k := Nat.pos_of_ne_zero fun hk => h0 (hk0.mp hk)
      rw [if_neg hpos.ne'] at hlink
      simp only [h0, if_false, hlink, ne_eq, not_true]
      refine ⟨hcut, ⟨?_, Or.inr ?_⟩, .refl fnp, hrc⟩
      · refine (head_same hcut.kept.same fnp).trans (hp.head.trans ?_)
        cases L with
        | nil => exact absurd hlpos (Nat.lt_irrefl 0)
        | cons c L =>
          obtain ⟨k, rfl⟩ := Nat.exists_eq_succ_of_ne_zero hpos.ne'
          rfl
      · rw [FNode.On, hat, List.getElem?_take, if_pos (by omega)]
        exact hon

/-- **What `shrink_file` does**: it cuts the chain to what the file needs.  It fails if the buffers
cannot be flushed then. -/
theorem shrinkFile_spec (h : v.Ok) (hL : v.IsChain L) (hp : Placed v.dpb L fnp)
    (hidx : fnp.sftIdx ≠ 0xff) (hsize : fnp.dir.size = fnp.offset)
    (hlen : clustersFor v.dpb fnp.offset ≤ L.length) :
    Shrunk fnp v L (clustersFor v.dpb fnp.offset) (shrinkFile v fnp) := by
  generalize hk : clustersFor v.dpb fnp.offset = k at hlen
  have hk0 : k = 0 ↔ fnp.offset = 0 := by
    refine ⟨fun hk0 => ?_, fun h0 => by rw [← hk, h0, clustersFor_zero h.dpb]⟩
    by_contra hoff
    rw [clustersFor_pos h.dpb (Nat.pos_of_ne_zero hoff), hk0] at hk
    exact Nat.succ_ne_zero _ hk
  by_cases hempty : fnp.offset = 0 ∧ fnp.cluster = free
  · -- nothing to do
    have hnil : L = [] := (hp.free_iff hL).mp hempty.2
    obtain rfl := hk0.mpr hempty.1
    subst hnil
    rw [shrinkFile, if_pos hempty]
    exact ⟨Cut.refl h hL, hp, .refl fnp, by simp⟩
  · have hlpos : 0 < L.length := by
      refine Nat.pos_of_ne_zero fun hl => hempty ⟨hk0.mp (by omega), ?_⟩
      exact (hp.free_iff hL).mpr (List.length_eq_zero_iff.mp hl)
    have htarget : (fnp.seek (fnp.offset - 1)).relcluster v.dpb = k - 1 := by
      rw [relcluster_eq, ← hk]
      rcases Nat.eq_zero_or_pos fnp.offset with hoff | hoff
      · simp [FNode.seek, hoff, clustersFor_zero h.dpb]
      · rw [clustersFor_pos h.dpb hoff]
        rfl
    obtain ⟨L', hm⟩ := mapCluster_spec .read h hL (hp.seek (fnp.offset - 1))
      fun _ => hidx
    obtain ⟨rfl, hv⟩ := hm.read rfl
    have hmoved := hm.moved.seek_back
    rw [htarget] at hm
    rw [shrinkFile, if_neg hempty]
    dsimp only
    generalize mapCluster v (fnp.seek (fnp.offset - 1)) .read = m at hm hv hmoved ⊢
    obtain ⟨rc, fnp', v'⟩ := m
    obtain rfl : v' = v := hv
    obtain ⟨hrc, hon, hat⟩ | ⟨-, hshort, -⟩ := hm.result
    · obtain ⟨hsize', hidx'⟩ : fnp'.dir.size = fnp.offset ∧ fnp'.sftIdx ≠ 0xff := by
        obtain ⟨_, _, _, _, heq⟩ := hm.moved
        rw [show fnp' = _ from heq]
        exact ⟨hsize, hidx⟩
      dsimp only at hrc hat
      have hon' : L'[k - 1]? = some fnp'.cluster := hat ▸ hon
      have hnext1 : ¬ (L'[k - 1 + 1]?).getD longLastCluster ≤ 1 := by
        cases hd : L'[k - 1 + 1]? with
        | none => decide
        | some d =>
          have := (hL.range d (List.mem_of_getElem? hd)).1
          simp only [Option.getD_some]
          omega
      have hshrunk := cutAfter_spec h hL hm.placed hidx' hon' hat (hk0.trans (by rw [hsize'])) hlen
      rw [if_neg (not_not_intro hrc), nextCluster_chain h.readable hL hon', if_neg hnext1]
      exact ⟨hshrunk.cut, hshrunk.placed.seek _, hmoved.trans (hshrunk.moved.seek _),
        hshrunk.result⟩
    · omega

end File
end BurdahDos
