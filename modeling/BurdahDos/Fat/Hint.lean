import BurdahDos.Boot.Defs
import BurdahDos.Fat.Wipe
import Mathlib

/-!
# Where to look for a free cluster

`find_fat_free` begins its search at a cluster that five functions keep in the DPB, and comes back
to it when the disk is full.  `HintLeft` is a volume as these functions leave it, from `bpb_to_dpb`
on, in any order, whatever the table holds and whatever reads of it fail.  The cluster is then unknown
or one of the volume, and so the search ends (`SearchEnds`, the loop without a bound on its turns)
and misses no cluster.
-/

set_option autoImplicit false

namespace BurdahDos
namespace Fat

variable {v v' : Volume} {size start idx : ℕ}

/-! ## The loop -/

/-- The loop of `find_fat_free`, which began at `start`, from `idx` on: it comes to an end with this
cluster and volume. -/
inductive SearchEnds (size start : ℕ) : ℕ → Volume → Option ℕ × Volume → Prop where
  /-- The cluster is free. -/
  | found {idx : ℕ} {v : Volume} : (isFreeCluster v idx).1 = true →
      SearchEnds size start idx v (some idx, (isFreeCluster v idx).2)
  /-- There is no free cluster. -/
  | full {idx : ℕ} {v : Volume} : (isFreeCluster v idx).1 ≠ true → nextIdx size idx = start →
      SearchEnds size start idx v (none, (isFreeCluster v idx).2)
  | turn {idx : ℕ} {v : Volume} {r : Option ℕ × Volume} : (isFreeCluster v idx).1 ≠ true →
      nextIdx size idx ≠ start → SearchEnds size start (nextIdx size idx) (isFreeCluster v idx).2 r →
      SearchEnds size start idx v r

/-- How many turns are left, at most. -/
def turnsToStart (size start idx : ℕ) : ℕ :=
  if idx < start then start - idx else size + start - 1 - idx

theorem turnsToStart_pos (h2 : 2 ≤ start) (hidx : idx ≤ size) : 0 < turnsToStart size start idx := by
  rw [turnsToStart]
  split <;> omega

theorem turnsToStart_next (h2 : 2 ≤ start) (hstart : start ≤ size) (hidx : idx ≤ size)
    (hne : nextIdx size idx ≠ start) :
    turnsToStart size start (nextIdx size idx) + 1 = turnsToStart size start idx := by
  rw [nextIdx] at hne ⊢
  rw [turnsToStart, turnsToStart]
  split_ifs at hne ⊢ <;> omega

/-- The search for a free cluster comes to an end if it began at a cluster. -/
theorem searchFree_ends {n : ℕ} (h2 : 2 ≤ start) (hstart : start ≤ size) (hidx : idx ≤ size)
    (hn : turnsToStart size start idx ≤ n) (v : Volume) :
    SearchEnds size start idx v (searchFree size start n idx v) := by
  induction n generalizing idx v with
  | zero => exact absurd (turnsToStart_pos h2 hidx) (Nat.not_lt.mpr hn)
  | succ n ih =>
    simp only [searchFree]
    split
    · rename_i hfree
      exact .found hfree
    · rename_i hfree
      split
      · rename_i hnext
        exact .full hfree hnext
      · rename_i hnext
        have hturns := turnsToStart_next h2 hstart hidx hnext
        have hle : nextIdx size idx ≤ size := by
          rw [nextIdx]
          split <;> omega
        exact .turn hfree hnext (ih hle (by omega) _)

/-! ## The cluster that is kept -/

/-- The cluster to begin at is unknown, or one of the volume. -/
structure Dpb.Hinted (d : Dpb) : Prop where
  typed : d.Typed
  hint : d.hint = unknCluster ∨ d.Has d.hint

theorem Dpb.Same.hinted {d d' : Dpb} (h : d.Same d') (hd : d.Hinted) (heq : d'.hint = d.hint) :
    d'.Hinted :=
  ⟨h.typed hd.typed, by rw [heq]; exact hd.hint.imp_right (h.has _).mpr⟩

theorem Dpb.Hinted.setHint {d : Dpb} (hd : d.Hinted) {c : ℕ} (hc : c = unknCluster ∨ d.Has c) :
    (d.setHint c).Hinted := by
  have hsame := Dpb.same_setHint d c
  refine ⟨hsame.typed hd.typed, ?_⟩
  rw [hd.typed.setHint_hint hc]
  exact hc.imp_right (hsame.has c).mpr

theorem FatStep.hinted (h : FatStep v v') (hd : v.dpb.Hinted) : v'.dpb.Hinted := by
  cases h with
  | access _ hdpb _ => rwa [hdpb]
  | entry c c' _ _ =>
    obtain ⟨hsame, hhint⟩ := Dpb.same_adjustFree v.dpb (v.fat c == free) c'
    exact hsame.hinted hd hhint
  | hint c hc => exact hd.setHint hc

theorem FatSteps.hinted (h : FatSteps v v') (hd : v.dpb.Hinted) : v'.dpb.Hinted := by
  induction h with
  | refl => exact hd
  | tail _ hstep ih => exact hstep.hinted ih

theorem Dpb.hint_of_fat32 {d : Dpb} (h : d.isFat32 = true) : d.hint = d.xcluster := if_pos h

theorem Dpb.hint_of_not_fat32 {d : Dpb} (h : d.isFat32 = false) : d.hint = d.cluster :=
  if_neg (by rw [h]; exact Bool.false_ne_true)

theorem readFsinfo_same (d : Boot.Dpb) (fsinfo : Boot.Sector) :
    d.toDpb.Same (Boot.readFsinfo d fsinfo).toDpb := by
  rw [Boot.readFsinfo]
  split
  · exact .refl _
  · exact ⟨d.cluster, _, _, rfl⟩

/-- `read_fsinfo` checks what the sector says. -/
theorem readFsinfo_hinted {d : Boot.Dpb} (hd : d.toDpb.Hinted) (fsinfo : Boot.Sector) :
    (Boot.readFsinfo d fsinfo).toDpb.Hinted := by
  have hsame := readFsinfo_same d fsinfo
  refine ⟨hsame.typed hd.typed, ?_⟩
  have hdone : Boot.readFsinfo d fsinfo = d ∨ (Boot.readFsinfo d fsinfo).cluster = d.cluster ∧
      ((Boot.readFsinfo d fsinfo).xcluster = unknCluster ∨
        2 ≤ (Boot.readFsinfo d fsinfo).xcluster ∧
          (Boot.readFsinfo d fsinfo).xcluster ≤ d.xsize) := by
    rw [Boot.readFsinfo]
    split
    · exact Or.inl rfl
    · refine Or.inr ⟨rfl, ?_⟩
      dsimp only
      split
      · exact Or.inl rfl
      · rename_i hrange
        rw [not_or, Nat.not_lt, Nat.not_lt] at hrange
        exact Or.inr hrange
  rcases hdone with heq | ⟨hcluster, hxcluster⟩
  · rw [heq]
    exact hd.hint
  · cases h32 : d.isFat32 with
    | true =>
      rw [Dpb.hint_of_fat32 (hsame.isFat32.trans h32)]
      refine hxcluster.imp_right fun hrange => ⟨hrange.1, ?_⟩
      rw [hsame.maxCluster, Dpb.maxCluster, if_pos h32]
      exact hrange.2
    | false =>
      rw [Dpb.hint_of_not_fat32 (hsame.isFat32.trans h32), hcluster,
        ← Dpb.hint_of_not_fat32 h32]
      exact hd.hint.imp_right (hsame.has _).mpr

/-- The three ways through `bpb_to_dpb`. -/
theorem bpbToDpb_cases {b : Boot.Bpb} {d d' : Boot.Dpb} {extended : Bool} {fsinfo : Boot.Sector}
    (h : Boot.bpbToDpb b d extended fsinfo = some d') :
    extended = false ∧ d'.fatsize = b.nfsect ∧ d'.cluster = unknCluster ∨
      d'.isFat32 = false ∧ d'.cluster = unknCluster ∨
      ∃ e : Boot.Dpb, e.isFat32 = true ∧ e.xcluster = unknCluster ∧
        d' = Boot.readFsinfo e fsinfo := by
  simp only [Boot.bpbToDpb] at h
  by_cases hper : b.nbyte / Boot.direntSize = 0
  · rw [if_pos hper] at h
    exact absurd h.symm (Option.some_ne_none d')
  · rw [if_neg hper] at h
    cases extended with
    | false =>
      rw [if_pos (by decide)] at h
      obtain rfl := Option.some.inj h
      exact Or.inl ⟨rfl, rfl, rfl⟩
    | true =>
      rw [if_neg (by decide)] at h
      by_cases h32 : b.nfsect = 0
      · rw [if_neg (by simp [Boot.dpb16to32, Dpb.isFat32, h32])] at h
        obtain rfl := Option.some.inj h
        refine Or.inr (Or.inr ⟨_, ?_, rfl, rfl⟩)
        simp [Boot.dpb16to32, Dpb.isFat32, h32]
      · rw [if_pos (by simp [Boot.dpb16to32, Dpb.isFat32, h32])] at h
        obtain rfl := Option.some.inj h
        exact Or.inr (Or.inl ⟨by simp [Boot.dpb16to32, Dpb.isFat32, h32], rfl⟩)

/-- `bpb_to_dpb` begins anew. -/
theorem bpbToDpb_hinted {b : Boot.Bpb} {d d' : Boot.Dpb} {extended : Bool} {fsinfo : Boot.Sector}
    (h : Boot.bpbToDpb b d extended fsinfo = some d') (hext : b.nfsect = 0 → extended = true)
    (ht : d'.toDpb.Typed) : d'.toDpb.Hinted := by
  obtain ⟨hplain, hsize, hcluster⟩ | ⟨h32, hcluster⟩ | ⟨e, h32, hcluster, rfl⟩ := bpbToDpb_cases h
  · have h32 : d'.isFat32 = false := by
      rw [Dpb.isFat32, hsize, beq_eq_false_iff_ne]
      intro hzero
      rw [hext hzero] at hplain
      exact Bool.false_ne_true hplain.symm
    exact ⟨ht, Or.inl ((Dpb.hint_of_not_fat32 h32).trans hcluster)⟩
  · exact ⟨ht, Or.inl ((Dpb.hint_of_not_fat32 h32).trans hcluster)⟩
  · exact readFsinfo_hinted ⟨(readFsinfo_same e fsinfo).symm.typed ht,
      Or.inl ((Dpb.hint_of_fat32 h32).trans hcluster)⟩ fsinfo

/-- Reading or writing an entry does not change where to begin. -/
theorem linkFat_hint (v : Volume) (c c' : ℕ) :
    v.dpb.Same (linkFat v c c').2.dpb ∧ (linkFat v c c').2.dpb.hint = v.dpb.hint := by
  by_cases hc' : c' = readCluster
  · rw [hc', (linkFat_readCases v c).2.1]
    exact ⟨.refl _, rfl⟩
  · obtain ⟨hsame, hhint, -⟩ := linkFat_writeCases v c hc'
    exact ⟨hsame, hhint⟩

theorem dosFree_hinted (hd : v.dpb.Hinted) : (dosFree v).2.dpb.Hinted := by
  rw [dosFree]
  split
  · exact hd
  · have hcount := (countFree_steps (v.dpb.maxCluster - 1) 2 0 v).1.hinted hd
    generalize countFree (v.dpb.maxCluster - 1) 2 0 v = r at hcount
    exact (same_setFree r.2.dpb r.1).1.hinted hcount (same_setFree r.2.dpb r.1).2

/-- The functions that have a say in where to begin have left the volume like this. -/
inductive HintLeft : Volume → Prop where
  /-- `bpb_to_dpb`, as `media_check` calls it. -/
  | mount {b : Boot.Bpb} {d d' : Boot.Dpb} {extended : Bool} {fsinfo : Boot.Sector} {v : Volume} :
      Boot.bpbToDpb b d extended fsinfo = some d' → (b.nfsect = 0 → extended = true) →
      d'.toDpb.Typed → v.dpb = d'.toDpb → HintLeft v
  | readFsinfo {v v' : Volume} {d : Boot.Dpb} {fsinfo : Boot.Sector} : HintLeft v →
      d.toDpb = v.dpb → v'.dpb = (Boot.readFsinfo d fsinfo).toDpb → HintLeft v'
  | dosFree {v : Volume} : HintLeft v → HintLeft (dosFree v).2
  | wipeOutClusters {v : Volume} (st : ℕ) : HintLeft v → HintLeft (wipeOutClusters v st)
  | findFatFree {v : Volume} : HintLeft v → HintLeft (findFatFree v).2
  | linkFat {v : Volume} (c c' : ℕ) : HintLeft v → HintLeft (linkFat v c c').2
  /-- Whatever else happens to the volume, its table included. -/
  | other {v v' : Volume} : HintLeft v → v'.dpb = v.dpb → HintLeft v'

theorem HintLeft.hinted (h : HintLeft v) : v.dpb.Hinted := by
  induction h with
  | mount hdpb hext ht heq =>
    rw [heq]
    exact bpbToDpb_hinted hdpb hext ht
  | readFsinfo _ hd heq ih =>
    rw [heq]
    exact readFsinfo_hinted (hd ▸ ih) _
  | dosFree _ ih => exact dosFree_hinted ih
  | @wipeOutClusters v st _ ih => exact (wipeOutClusters_steps v st).hinted ih
  | @findFatFree v _ ih => exact (findFatFree_steps v).1.hinted ih
  | @linkFat v c c' _ ih => exact (linkFat_hint v c c').1.hinted ih (linkFat_hint v c c').2
  | other _ heq ih => rwa [heq]

/-! ## The search -/

/-- Where `find_fat_free` begins. -/
def Dpb.begin (d : Dpb) : ℕ := if d.hint ≠ unknCluster then d.hint else 2

theorem Dpb.Hinted.begin_range {d : Dpb} (hd : d.Hinted) (hmax : 2 ≤ d.maxCluster) :
    2 ≤ d.begin ∧ d.begin ≤ d.maxCluster := by
  rw [Dpb.begin]
  split
  · rename_i hne
    exact hd.hint.resolve_left hne
  · exact ⟨Nat.le_refl 2, hmax⟩

theorem findFatFree_ends (hd : v.dpb.Hinted) :
    SearchEnds v.dpb.maxCluster v.dpb.begin v.dpb.begin v
      (searchFree v.dpb.maxCluster v.dpb.begin v.dpb.maxCluster v.dpb.begin v) := by
  by_cases hmax : 2 ≤ v.dpb.maxCluster
  · obtain ⟨h2, hle⟩ := hd.begin_range hmax
    refine searchFree_ends h2 hle hle ?_ v
    rw [turnsToStart, if_neg (Nat.lt_irrefl _)]
    omega
  · -- no cluster at all: the search is over when it has looked at cluster 2
    have hbegin : v.dpb.begin = 2 := by
      rw [Dpb.begin, if_neg]
      rw [not_not]
      exact hd.hint.resolve_right fun hhas => hmax (hhas.1.trans hhas.2)
    have hout : ¬ v.dpb.Has 2 := fun hhas => hmax hhas.2
    have hread : isFreeCluster v 2 = (false, v) := by
      rw [isFreeCluster, linkFat_out hout]
      rfl
    have hnext : nextIdx v.dpb.maxCluster 2 = 2 := if_pos (by omega)
    have hsearch : searchFree v.dpb.maxCluster 2 v.dpb.maxCluster 2 v = (none, v) := by
      cases hsize : v.dpb.maxCluster with
      | zero => rfl
      | succ n =>
        rw [hsize] at hnext
        simp [searchFree, hread, hnext]
    have hfull : SearchEnds v.dpb.maxCluster 2 2 v (none, (isFreeCluster v 2).2) :=
      .full (by rw [hread]; exact Bool.false_ne_true) hnext
    rw [hbegin, hsearch]
    rwa [hread] at hfull

/-- **What `find_fat_free` does**, wherever it is told to begin: the search ends, with a free
cluster if there is one, and the table is as it was. -/
theorem findFatFree_left (h : HintLeft v) (hsound : v.fatOutcomes = []) :
    SearchEnds v.dpb.maxCluster v.dpb.begin v.dpb.begin v
        (searchFree v.dpb.maxCluster v.dpb.begin v.dpb.maxCluster v.dpb.begin v) ∧
      (v.dpb.Has (findFatFree v).1 ∧ v.entry (findFatFree v).1 = free ∨
        (findFatFree v).1 = longLastCluster ∧ ∀ c, v.dpb.Has c → v.entry c ≠ free) ∧
      (findFatFree v).2.fat = v.fat ∧
      ((findFatFree v).2.dpb.hint = unknCluster ∨ v.dpb.Has (findFatFree v).2.dpb.hint) := by
  have hd := h.hinted
  refine ⟨findFatFree_ends hd, ?_⟩
  obtain ⟨c, hhas, hfree, hfind⟩ | ⟨hfull, hfind⟩ :=
    findFatFree_cases ⟨hd.typed, hsound⟩ hd.hint
  · rw [hfind]
    refine ⟨Or.inl ⟨hhas, hfree⟩, rfl, Or.inr ?_⟩
    rw [hd.typed.setHint_hint (Or.inr hhas)]
    exact hhas
  · rw [hfind]
    exact ⟨Or.inr ⟨rfl, hfull⟩, rfl, Or.inl (hd.typed.setHint_hint (Or.inl rfl))⟩

/-! ## A volume that is mounted -/

/-- The BPB of a FAT32 volume of seventy thousand sectors. -/
def hugeBpb : Boot.Bpb where
  nbyte := 512
  nsector := 1
  nreserved := 32
  nfat := 2
  ndirent := 0
  nsize := 0
  mdesc := 0xf8
  nfsect := 0
  nsecs := 63
  nheads := 16
  hidden := 0
  huge := 70000
  xnfsect := 540
  xflags := 0
  xfsversion := 0
  xrootclst := 2
  xfsinfosec := 1
  xbackupsec := 6

/-- A sector that tells of a free cluster that the volume does not have. -/
def wildFsinfo : Boot.Sector := fun i => if i = 0x1e4 + 11 then 1 else 0

/-- The DPB of the drive when there was another volume in it. -/
def usedDpb : Boot.Dpb where
  toDpb := { tinyDpb with cluster := 4000 }
  mdb := 0xf8
  fatstrt := 1
  fats := 2
  flags := 0
  xflags := 0
  xfsinfosec := 0xffff
  xbackupsec := 0xffff
  xfatsize := 20

/-- The volume when it has been mounted; clusters up to 69 are in use. -/
def hugeVolume : Volume where
  dpb := ((Boot.bpbToDpb hugeBpb usedDpb true wildFsinfo).getD usedDpb).toDpb
  fat := fun c => if c < 70 then longLastCluster else 0
  disk := fun _ _ => 0
  fatOutcomes := []
  outcomes := []

theorem hugeVolume_left : HintLeft hugeVolume := by
  have hsome : (Boot.bpbToDpb hugeBpb usedDpb true wildFsinfo).isSome = true := by decide +kernel
  obtain ⟨d, hd⟩ := Option.isSome_iff_exists.mp hsome
  have hdpb : hugeVolume.dpb = d.toDpb := by rw [hugeVolume, hd]; rfl
  refine .mount hd (fun _ => rfl) ?_ hdpb
  rw [← hdpb]
  exact ⟨Or.inr (Or.inr (by decide +kernel)), fun _ => by decide +kernel⟩

theorem findFatFree_left_huge :
    hugeVolume.dpb.Has (findFatFree hugeVolume).1 ∧
        hugeVolume.entry (findFatFree hugeVolume).1 = free ∨
      (findFatFree hugeVolume).1 = longLastCluster ∧
        ∀ c, hugeVolume.dpb.Has c → hugeVolume.entry c ≠ free :=
  (findFatFree_left hugeVolume_left rfl).2.1

example : (findFatFree hugeVolume).1 = 70 := by decide +kernel

end Fat
end BurdahDos
