import BurdahDos.Fat.Count
import BurdahDos.File.Defs
import Mathlib

/-!
# Walking along the chain of a file

`L` is the chain of a file or directory.  An fnode is *placed* in it if it knows where the chain
begins and its cluster is the one at its `f_cluster_offset`; `map_cluster` trusts that.  It moves
the fnode along the chain, which it makes longer when writing, by free clusters and only as far as
necessary (`mapCluster_spec`).
-/

set_option autoImplicit false

namespace BurdahDos
namespace File

open Fat

variable {v v' v'' : Volume} {L L' L'' : List ℕ} {fnp : FNode} {mode : XfrMode}

/-! ## Positions -/

/-- Where the chain begins, as far as the fnode knows. -/
def FNode.head (fnp : FNode) (d : Dpb) : ℕ :=
  if fnp.sftIdx = 0xff then fnp.dmDircluster else getdstart d fnp.dir

/-- The fnode has a cluster of the chain, and knows which. -/
def FNode.On (fnp : FNode) (L : List ℕ) : Prop := L[fnp.clusterOffset]? = some fnp.cluster

/-- The fnode is placed in the chain. -/
structure Placed (d : Dpb) (L : List ℕ) (fnp : FNode) : Prop where
  head : fnp.head d = L.headD free
  cached : L = [] ∧ fnp.cluster = free ∧ fnp.clusterOffset = 0 ∨ fnp.On L

theorem FNode.On.ne_nil (h : fnp.On L) : L ≠ [] := by
  rintro rfl
  simp [FNode.On] at h

/-- The fnode has a cluster if the chain has one. -/
theorem Placed.free_iff (hL : v.IsChain L) (h : Placed v.dpb L fnp) :
    fnp.cluster = free ↔ L = [] := by
  rcases h.cached with ⟨rfl, hc, -⟩ | h
  · simp [hc]
  · refine ⟨fun hc => ?_, fun hL => absurd hL h.ne_nil⟩
    have := (hL.range _ (List.mem_of_getElem? h)).1
    rw [hc, free] at this
    omega

/-! ## The start cluster in a directory entry -/

theorem getdstart_setdstart {d : Dpb} (hd : d.Ok) (dir : Dirent) {c : ℕ}
    (hc : c = free ∨ d.Has c) : getdstart d (setdstart d dir c) = c := by
  have hlt : c < 2 ^ 32 := by
    rcases hc with rfl | hc
    · decide
    · exact (hd.has_lt hc).trans (by decide)
  cases h32 : d.isFat32 with
  | true =>
    simp only [getdstart, setdstart, h32, if_true]
    omega
  | false =>
    have hmax : d.maxCluster < 2 ^ 16 := by
      rcases hd.kinds with ⟨-, h⟩ | ⟨-, -, h⟩ | ⟨-, -, h, -⟩
      · exact h.trans_lt (by decide)
      · exact h.trans_lt (by decide)
      · rw [h32] at h; exact absurd h Bool.false_ne_true
    simp only [getdstart, setdstart, h32, Bool.false_eq_true, if_false]
    refine Nat.mod_eq_of_lt ?_
    rcases hc with rfl | hc
    · decide
    · exact hc.2.trans_lt hmax

theorem getdstart_same {d d' : Dpb} (h : d.Same d') (dir : Dirent) :
    getdstart d' dir = getdstart d dir := by
  rw [getdstart, getdstart, h.isFat32]

theorem setdstart_same {d d' : Dpb} (h : d.Same d') (dir : Dirent) (c : ℕ) :
    setdstart d' dir c = setdstart d dir c := by
  rw [setdstart, setdstart, h.isFat32]

theorem head_same {d d' : Dpb} (h : d.Same d') (fnp : FNode) : fnp.head d' = fnp.head d := by
  rw [FNode.head, FNode.head, getdstart_same h]

/-! ## Longer chains -/

/-- The chain `L` has become `L'`, with clusters that were free. -/
structure Grown (L L' : List ℕ) (v v' : Volume) : Prop where
  chain : v'.IsChain L'
  pre : L <+: L'
  new : ∀ c ∈ L', c ∉ L → v.entry c = free
  kept : Kept (· ∉ L') v v'
  count : v'.freeCount + L'.length = v.freeCount + L.length

/-- Nothing has changed but where to look for a free cluster. -/
theorem Grown.of_kept (hL : v.IsChain L) (h : Kept (fun _ => True) v v') : Grown L L v v' :=
  ⟨h.isChain hL fun _ _ => trivial, List.prefix_refl L, fun _ hc hn => absurd hc hn,
    h.mono fun _ _ => trivial, by rw [freeCount_congr h.same (funext fun c => h.entry c trivial)]⟩

theorem Grown.refl (h : v.Ok) (hL : v.IsChain L) : Grown L L v v := .of_kept hL (Kept.refl h _)

theorem Grown.trans (h : Grown L L' v v') (h' : Grown L' L'' v' v'') : Grown L L'' v v'' where
  chain := h'.chain
  pre := h.pre.trans h'.pre
  new c hc hn := by
    by_cases hc' : c ∈ L'
    · exact h.new c hc' hn
    · rw [← h.kept.entry c hc']
      exact h'.new c hc hc'
  kept := (h.kept.mono fun _ hc hc' => hc (h'.pre.subset hc')).trans h'.kept
  count := by have := h.count; have := h'.count; omega

/-! ## `extend` -/

/-- What has become of the fnode: it has moved, and if its file was empty it may have a start
cluster now. -/
def Moved (fnp fnp' : FNode) : Prop :=
  ∃ start startHigh cluster clusterOffset, fnp' =
    { fnp with
      dir := { fnp.dir with start := start, startHigh := startHigh }
      cluster := cluster
      clusterOffset := clusterOffset }

theorem Moved.refl (fnp : FNode) : Moved fnp fnp := ⟨_, _, _, _, rfl⟩

theorem Moved.trans {fnp' fnp'' : FNode} (h : Moved fnp fnp') (h' : Moved fnp' fnp'') :
    Moved fnp fnp'' := by
  obtain ⟨_, _, _, _, rfl⟩ := h
  obtain ⟨a, b, c, d, rfl⟩ := h'
  exact ⟨a, b, c, d, rfl⟩

/-- **What `extend` does** for an fnode at the last cluster of its chain, or of an empty file: the
disk is full and nothing changes, or a free cluster is put at the end of the chain. -/
theorem extend_spec (h : v.Ok) (hL : v.IsChain L)
    (hlast : L = [] ∧ fnp.cluster = free ∨ L.getLast? = some fnp.cluster) :
    ∃ v', extend v fnp = (longLastCluster, fnp, v') ∧ Grown L L v v' ∧ v.freeCount = 0 ∨
      ∃ c, v.dpb.Has c ∧ Grown L (L ++ [c]) v v' ∧ extend v fnp =
        (c, if L = [] then { fnp with dir := setdstart v.dpb fnp.dir c } else fnp, v') := by
  obtain ⟨c, v₁, hfind, hkept₁, ⟨hhas, hfree⟩ | ⟨rfl, hfull⟩⟩ := findFatFree_spec h
  · have hc₁ := (hkept₁.same.has c).mpr hhas
    have hL₁ := hkept₁.isChain hL fun _ _ => trivial
    have hcL : c ∉ L := fun hmem => hL.not_free hmem hfree
    have hne : c ≠ longLastCluster := ((h.dpb.has_lt hhas).trans (by decide)).ne
    obtain ⟨v₂, hlink₂, hkept₂, hentry₂, -⟩ :=
      linkFat_write hkept₁.ok hc₁ (Or.inr (Or.inl rfl))
    have hL₂ := hkept₂.isChain_of_notMem hL₁ hcL
    have hsame₂ := hkept₁.same.trans hkept₂.same
    have he₁ (d : ℕ) : v₁.entry d = v.entry d := hkept₁.entry d trivial
    have hused : longLastCluster ≠ free := by decide
    rcases hlast with ⟨rfl, hcl⟩ | hlast
    · -- the file leaves the empty state
      refine ⟨v₂, Or.inr ⟨c, hhas, ⟨⟨?_, by simp, ?_, trivial⟩, by simp, ?_, ?_, ?_⟩, ?_⟩⟩
      · simpa using (hsame₂.has c).mpr hhas
      · simp [hentry₂]
      · simpa using hfree
      · exact (hkept₁.mono fun _ _ => trivial).trans
          (hkept₂.mono fun d hd => by simpa using hd)
      · have := freeCount_used hsame₂ hhas hfree (by simpa [hentry₂] using hused)
          fun d hd => by rw [hkept₂.entry d hd, he₁]
        simpa using this
      · simp only [extend, hfind, hne, hlink₂, hcl, if_false, if_true, ne_eq, not_true]
        rw [setdstart_same hsame₂]
    · -- the last cluster gets a successor
      obtain ⟨M, rfl⟩ : ∃ M, L = M ++ [fnp.cluster] := List.getLast?_eq_some_iff.mp hlast
      have hmem : fnp.cluster ∈ M ++ [fnp.cluster] := by simp
      have hnext : nextCluster v₂ fnp.cluster = (longLastCluster, v₂) := by
        rw [nextCluster_chain hkept₂.ok.readable hL₂ (i := M.length) (by simp)]
        simp
      have hcl₂ := (hsame₂.has _).mpr (hL.range _ hmem)
      obtain ⟨v₃, hlink₃, hkept₃, hentry₃, -⟩ :=
        linkFat_write hkept₂.ok hcl₂ (Or.inr (Or.inr ((hsame₂.has c).mpr hhas)))
      have hsame₃ := hsame₂.trans hkept₃.same
      have hccl : c ≠ fnp.cluster := by rintro rfl; exact hcL hmem
      have hM : fnp.cluster ∉ M := fun hmem =>
        (List.disjoint_of_nodup_append hL.nodup) hmem (by simp)
      have hentry_c : v₃.entry c = longLastCluster := by
        rw [hkept₃.entry c hccl, hentry₂, Function.update_self]
      have hkept : Kept (· ∉ M ++ [fnp.cluster] ++ [c]) v v₃ := by
        refine (hkept₁.mono fun _ _ => trivial).trans ((hkept₂.mono fun d hd => ?_).trans
          (hkept₃.mono fun d hd => ?_)) <;>
        · simp only [List.mem_append, List.mem_singleton, not_or] at hd
          tauto
      refine ⟨v₃, Or.inr ⟨c, hhas, ⟨⟨fun d hd => (hsame₃.has d).mpr ?_, ?_, ?_⟩,
        List.prefix_append _ _, fun d hd hd' => ?_, hkept, ?_⟩, ?_⟩⟩
      · rcases List.mem_append.mp hd with hd | hd
        · exact hL.range d hd
        · rw [List.mem_singleton.mp hd]; exact hhas
      · exact List.nodup_append.mpr ⟨hL.nodup, by simp, by
          rintro d hd e he rfl
          rw [List.mem_singleton.mp he] at hd
          exact hcL hd⟩
      · refine hL₂.linked.snoc hentry_c (by rw [hentry₃, Function.update_self]) fun d hd => ?_
        exact hkept₃.entry d (by rintro rfl; exact hM hd)
      · rcases List.mem_append.mp hd with hd | hd
        · exact absurd hd hd'
        · rw [List.mem_singleton.mp hd]; exact hfree
      · have := freeCount_used hsame₃ hhas hfree (by rw [hentry_c]; exact hused) fun d hd => ?_
        · simp only [List.length_append, List.length_singleton]
          omega
        · rcases eq_or_ne d fnp.cluster with rfl | hd'
          · have : v₃.entry fnp.cluster = c := by rw [hentry₃, Function.update_self]
            rw [this]
            refine iff_of_false ?_ (hL.not_free hmem)
            exact (Nat.lt_of_lt_of_le Nat.zero_lt_two hhas.1).ne'
          · rw [hkept₃.entry d hd', hkept₂.entry d hd, he₁]
      · have hcl : fnp.cluster ≠ free :=
          (Nat.lt_of_lt_of_le Nat.zero_lt_two (hL.range _ hmem).1).ne'
        simp [extend, hfind, hne, hlink₂, hcl, hnext, hlink₃]
  · refine ⟨v₁, Or.inl ⟨?_, .of_kept hL hkept₁, freeCount_eq_zero hfull⟩⟩
    simp [extend, hfind]

theorem extend_sectors (v : Volume) (fnp : FNode) : SameSectors v (extend v fnp).2.2 := by
  have hfind := findFatFree_sectors v
  have hlink := hfind.trans (linkFat_sectors _ (findFatFree v).1 longLastCluster)
  have hnext := hlink.trans (nextCluster_sectors _ fnp.cluster)
  simp only [extend]
  split
  · exact hfind
  · split
    · exact hlink
    · split
      · exact hlink
      · split
        · exact hnext
        · split <;> exact hnext.trans (linkFat_sectors _ _ _)

/-! ## `map_cluster` -/

theorem stepCluster_sectors (v : Volume) (fnp : FNode) (mode : XfrMode) :
    SameSectors v (stepCluster v fnp mode).2.2 := by
  have hnext := nextCluster_sectors v fnp.cluster
  simp only [stepCluster]
  split
  · exact hnext
  · split
    · split
      · exact hnext
      · split <;> exact hnext.trans (extend_sectors _ _)
    · exact hnext

theorem mapLoop_sectors (n : ℕ) (v : Volume) (fnp : FNode) (mode : XfrMode) :
    SameSectors v (mapLoop mode n fnp v).2.2 := by
  induction n generalizing v fnp with
  | zero => exact .refl v
  | succ n ih =>
    simp only [mapLoop]
    split
    · exact stepCluster_sectors v fnp mode
    · exact (stepCluster_sectors v fnp mode).trans (ih _ _)

theorem mapCluster_sectors (v : Volume) (fnp : FNode) (mode : XfrMode) :
    SameSectors v (mapCluster v fnp mode).2.2 := by
  simp only [mapCluster]
  split
  · split
    · exact .refl v
    · split
      · exact extend_sectors v fnp
      · exact (extend_sectors v fnp).trans (mapLoop_sectors _ _ _ _)
  · exact mapLoop_sectors _ _ _ _

/-- How `map_cluster` can fail: there is nothing to read, or no free cluster left. -/
def OutOfClusters (mode : XfrMode) (rc : ℤ) (v' : Volume) : Prop :=
  mode = .read ∧ rc = deSeek ∨ mode = .write ∧ rc = deHndlDskFull ∧ v'.freeCount = 0

theorem OutOfClusters.ne_success {rc : ℤ} (h : OutOfClusters mode rc v') : rc ≠ success := by
  rcases h with ⟨-, rfl⟩ | ⟨-, rfl, -⟩ <;> decide

/-- The fnode has gone to another cluster. -/
def FNode.to (fnp : FNode) (cluster clusterOffset : ℕ) : FNode :=
  { fnp with cluster := cluster, clusterOffset := clusterOffset }

theorem Placed.to (h : Placed v.dpb L fnp) (hon : fnp.On L) (hg : Grown L L' v v')
    {cluster clusterOffset : ℕ} (hto : (fnp.to cluster clusterOffset).On L') :
    Placed v'.dpb L' (fnp.to cluster clusterOffset) := by
  refine ⟨?_, Or.inr hto⟩
  rw [head_same hg.kept.same]
  refine h.head.trans ?_
  obtain ⟨M, rfl⟩ := hg.pre
  cases L with
  | nil => exact absurd rfl hon.ne_nil
  | cons c L => rfl

/-- One turn: to the next cluster, or there is none. -/
theorem stepCluster_spec (mode : XfrMode) (h : v.Ok) (hL : v.IsChain L) (hon : fnp.On L) :
    (∃ c L' v', stepCluster v fnp mode = (success, fnp.to c (fnp.clusterOffset + 1), v') ∧
        Grown L L' v v' ∧ L'[fnp.clusterOffset + 1]? = some c ∧
        L'.length ≤ max L.length (fnp.clusterOffset + 2) ∧ (mode = .read → L' = L ∧ v' = v)) ∨
      ∃ rc v', stepCluster v fnp mode = (rc, fnp, v') ∧ Grown L L v v' ∧
        L.length = fnp.clusterOffset + 1 ∧ OutOfClusters mode rc v' ∧
        (mode = .read → v' = v) := by
  have hnext := nextCluster_chain h.readable hL hon
  have hlt := (List.getElem?_eq_some_iff.mp hon).1
  cases hc : L[fnp.clusterOffset + 1]? with
  | some c =>
    have hhas := hL.range c (List.mem_of_getElem? hc)
    have hne : c ≠ longLastCluster := ((h.dpb.has_lt hhas).trans (by decide)).ne
    have h1 : ¬ c ≤ 1 := by have := hhas.1; omega
    refine Or.inl ⟨c, L, v, ?_, .refl h hL, hc, Nat.le_max_left _ _, fun _ => ⟨rfl, rfl⟩⟩
    simp [stepCluster, hnext, hc, h1, hne, FNode.to]
  | none =>
    have hlen : L.length = fnp.clusterOffset + 1 := by
      have := List.getElem?_eq_none_iff.mp hc
      omega
    have h1 : ¬ longLastCluster ≤ 1 := by decide
    cases mode with
    | read =>
      refine Or.inr ⟨deSeek, v, ?_, .refl h hL, hlen, Or.inl ⟨rfl, rfl⟩, fun _ => rfl⟩
      simp [stepCluster, hnext, hc, h1]
    | write =>
      have hlast : L.getLast? = some fnp.cluster := by
        rw [List.getLast?_eq_getElem?, hlen]
        exact hon
      obtain ⟨v', ⟨hext, hg, hfull⟩ | ⟨c, hhas, hg, hext⟩⟩ := extend_spec h hL (Or.inr hlast)
      · refine Or.inr ⟨deHndlDskFull, v', ?_, hg, hlen, Or.inr ⟨rfl, rfl, ?_⟩,
          fun h => (nomatch h)⟩
        · simp [stepCluster, hnext, hc, h1, hext]
        · have := hg.count
          omega
      · have hne : c ≠ longLastCluster := ((h.dpb.has_lt hhas).trans (by decide)).ne
        refine Or.inl ⟨c, L ++ [c], v', ?_, hg, ?_, ?_, fun h => (nomatch h)⟩
        · simp [stepCluster, hnext, hc, h1, hext, hne, hon.ne_nil, FNode.to]
        · rw [← hlen]
          simp
        · simp only [List.length_append, List.length_singleton]
          omega

/-- What `map_cluster` leaves: the fnode is at the cluster `target` of the chain, or at the last one
if there are fewer. -/
structure Mapped (mode : XfrMode) (target : ℕ) (fnp : FNode) (v : Volume) (L L' : List ℕ)
    (r : ℤ × FNode × Volume) : Prop where
  grown : Grown L L' v r.2.2
  placed : Placed r.2.2.dpb L' r.2.1
  moved : Moved fnp r.2.1
  bound : L'.length ≤ max L.length (target + 1)
  read : mode = .read → L' = L ∧ r.2.2 = v
  result : r.1 = success ∧ r.2.1.On L' ∧ r.2.1.clusterOffset = target ∨
    OutOfClusters mode r.1 r.2.2 ∧ L'.length ≤ target ∧
      (L' ≠ [] → r.2.1.clusterOffset + 1 = L'.length)

theorem mapLoop_spec (mode : XfrMode) (h : v.Ok) (hL : v.IsChain L) (hp : Placed v.dpb L fnp)
    (hon : fnp.On L) (n : ℕ) : ∃ L', Mapped mode (fnp.clusterOffset + n) fnp v L L' (mapLoop mode n fnp v) := by
  have hlt := (List.getElem?_eq_some_iff.mp hon).1
  induction n generalizing fnp v L with
  | zero =>
    exact ⟨L, .refl h hL, hp, .refl fnp, Nat.le_max_left _ _, fun _ => ⟨rfl, rfl⟩,
      Or.inl ⟨rfl, hon, rfl⟩⟩
  | succ n ih =>
    obtain ⟨c, L', v', hstep, hg, hto, hbound, hread⟩ | ⟨rc, v', hstep, hg, hlen, hout, hread⟩ :=
      stepCluster_spec mode h hL hon
    · have hon' : (fnp.to c (fnp.clusterOffset + 1)).On L' := hto
      obtain ⟨L'', hm⟩ := ih hg.kept.ok hg.chain (hp.to hon hg hon') hon'
        (List.getElem?_eq_some_iff.mp hto).1
      have hloop : mapLoop mode (n + 1) fnp v =
          mapLoop mode n (fnp.to c (fnp.clusterOffset + 1)) v' := by
        simp [mapLoop, hstep]
      have htarget : (fnp.to c (fnp.clusterOffset + 1)).clusterOffset + n =
          fnp.clusterOffset + (n + 1) := by
        simp only [FNode.to]
        omega
      rw [htarget] at hm
      rw [hloop]
      refine ⟨L'', hg.trans hm.grown, hm.placed, Moved.trans ⟨_, _, _, _, rfl⟩ hm.moved, ?_,
        fun hr => ?_, hm.result⟩
      · have := hm.bound
        omega
      · obtain ⟨rfl, rfl⟩ := hread hr
        exact hm.read hr
    · have hloop : mapLoop mode (n + 1) fnp v = (rc, fnp, v') := by
        simp [mapLoop, hstep, hout.ne_success]
      rw [hloop]
      refine ⟨L, hg, hp.to hon hg hon, .refl fnp, Nat.le_max_left _ _,
        fun hr => ⟨rfl, hread hr⟩, Or.inr ⟨hout, ?_, fun _ => hlen.symm⟩⟩
      omega

theorem rewind_spec (hp : Placed v.dpb L fnp) (hon : fnp.On L) :
    Placed v.dpb L (fnp.rewind v.dpb) ∧ (fnp.rewind v.dpb).On L ∧ Moved fnp (fnp.rewind v.dpb) ∧
      (fnp.rewind v.dpb).clusterOffset ≤ fnp.relcluster v.dpb := by
  rw [FNode.rewind]
  split
  · have hhead : fnp.head v.dpb = L.headD free := hp.head
    have hon' : (fnp.to (fnp.head v.dpb) 0).On L := by
      rw [FNode.On, hhead]
      cases L with
      | nil => exact absurd rfl hon.ne_nil
      | cons c L => rfl
    exact ⟨⟨hp.head, Or.inr hon'⟩, hon', ⟨_, _, _, _, rfl⟩, Nat.zero_le _⟩
  · rename_i hle
    exact ⟨hp, hon, .refl fnp, Nat.not_lt.mp hle⟩

theorem seekCluster_spec (mode : XfrMode) (h : v.Ok) (hL : v.IsChain L) (hp : Placed v.dpb L fnp)
    (hon : fnp.On L) :
    ∃ L', Mapped mode (fnp.relcluster v.dpb) fnp v L L' (seekCluster v fnp mode) := by
  obtain ⟨hp', hon', hmoved, hle⟩ := rewind_spec hp hon
  have hrel : (fnp.rewind v.dpb).relcluster v.dpb = fnp.relcluster v.dpb := by
    obtain ⟨_, _, _, _, heq⟩ := hmoved
    rw [heq]
    rfl
  obtain ⟨L', hm⟩ := mapLoop_spec mode h hL hp' hon'
    (fnp.relcluster v.dpb - (fnp.rewind v.dpb).clusterOffset)
  rw [Nat.add_sub_cancel' hle] at hm
  refine ⟨L', ?_⟩
  rw [seekCluster, hrel]
  exact ⟨hm.grown, hm.placed, hmoved.trans hm.moved, hm.bound, hm.read, hm.result⟩

/-- **What `map_cluster` does.** -/
theorem mapCluster_spec (mode : XfrMode) (h : v.Ok) (hL : v.IsChain L) (hp : Placed v.dpb L fnp)
    (hidx : L = [] → fnp.sftIdx ≠ 0xff) :
    ∃ L', Mapped mode (fnp.relcluster v.dpb) fnp v L L' (mapCluster v fnp mode) := by
  rcases hp.cached with ⟨rfl, hcl, hoff⟩ | hon
  · cases mode with
    | read =>
      have hmap : mapCluster v fnp .read = (deSeek, fnp, v) := by simp [mapCluster, hcl]
      rw [hmap]
      exact ⟨[], .refl h hL, hp, .refl fnp, Nat.zero_le _, fun _ => ⟨rfl, rfl⟩,
        Or.inr ⟨Or.inl ⟨rfl, rfl⟩, Nat.zero_le _, fun h => absurd rfl h⟩⟩
    | write =>
      obtain ⟨v', ⟨hext, hg, hfull⟩ | ⟨c, hhas, hg, hext⟩⟩ := extend_spec h hL (Or.inl ⟨rfl, hcl⟩)
      · have hmap : mapCluster v fnp .write = (deHndlDskFull, fnp, v') := by
          simp [mapCluster, hcl, hext]
        rw [hmap]
        refine ⟨[], hg, ⟨(head_same hg.kept.same fnp).trans hp.head, hp.cached⟩, .refl fnp,
          Nat.zero_le _, fun h => (nomatch h), Or.inr ⟨Or.inr ⟨rfl, rfl, ?_⟩, Nat.zero_le _,
          fun h => absurd rfl h⟩⟩
        have := hg.count
        simp only
        omega
      · have hne : c ≠ longLastCluster := ((h.dpb.has_lt hhas).trans (by decide)).ne
        simp only [if_true] at hext
        generalize hfnp : ({ fnp with
          dir := setdstart v.dpb fnp.dir c, cluster := c } : FNode) = fnp'
        have hmap : mapCluster v fnp .write = seekCluster v' fnp' .write := by
          rw [← hfnp]
          simp [mapCluster, hcl, hext, hne]
        have hmoved : Moved fnp fnp' := by rw [← hfnp]; exact ⟨_, _, _, _, rfl⟩
        have hon' : fnp'.On [c] := by rw [← hfnp, FNode.On, hoff]; rfl
        have hp' : Placed v'.dpb ([] ++ [c]) fnp' := by
          refine ⟨?_, Or.inr hon'⟩
          rw [← hfnp, head_same hg.kept.same, FNode.head, if_neg (hidx rfl)]
          exact getdstart_setdstart h.dpb _ (Or.inr hhas)
        have hrel : fnp'.relcluster v'.dpb = fnp.relcluster v.dpb := by
          obtain ⟨_, _, _, heq⟩ := hg.kept.same
          rw [← hfnp, heq]
          rfl
        obtain ⟨L', hm⟩ := seekCluster_spec .write hg.kept.ok hg.chain hp' hon'
        rw [hrel] at hm
        rw [hmap]
        refine ⟨L', hg.trans hm.grown, hm.placed, hmoved.trans hm.moved, ?_,
          fun h => (nomatch h), hm.result⟩
        have := hm.bound
        simp only [List.nil_append, List.length_singleton] at this
        omega
  · have hcl : fnp.cluster ≠ free := fun hcl => hon.ne_nil ((hp.free_iff hL).mp hcl)
    rw [mapCluster, if_neg hcl]
    exact seekCluster_spec mode h hL hp hon

end File
end BurdahDos
