import BurdahDos.Fat.Table
import Mathlib

/-!
# The number of free clusters

Here reads of the table may fail, and functions stop half way.  Whatever becomes of it, a
function makes a few kinds of steps on a volume, `FatStep`, and these keep what the DPB says about
the table: the count of free clusters, if it was right before, and where to look for one.
-/

set_option autoImplicit false

namespace BurdahDos
namespace Fat

variable {v v' v'' : Volume}

/-! ## Steps -/

/-- What a function does to a volume, step by step. -/
inductive FatStep (v : Volume) : Volume → Prop where
  /-- An access, and changes outside the table. -/
  | access (v' : Volume) : v'.dpb = v.dpb → v'.fat = v.fat → FatStep v v'
  /-- An entry is written. -/
  | entry (c c' : ℕ) : v.dpb.Has c → c' = free ∨ c' = longLastCluster ∨ v.dpb.Has c' →
      FatStep v (v.setEntry c c')
  /-- The place to look for a free cluster is set. -/
  | hint (c : ℕ) : c = unknCluster ∨ v.dpb.Has c → FatStep v { v with dpb := v.dpb.setHint c }

/-- Any number of steps. -/
abbrev FatSteps : Volume → Volume → Prop := Relation.ReflTransGen FatStep

theorem FatSteps.of_access (hd : v'.dpb = v.dpb) (hf : v'.fat = v.fat) : FatSteps v v' :=
  .single (.access v' hd hf)

theorem FatStep.same (h : FatStep v v') : v.dpb.Same v'.dpb := by
  cases h with
  | access _ hd _ => rw [hd]; exact .refl _
  | entry c c' _ _ => exact (Dpb.same_adjustFree _ _ _).1
  | hint c _ => exact Dpb.same_setHint _ _

theorem FatStep.ok (h : FatStep v v') (hok : v.dpb.Ok) : v'.dpb.Ok := by
  cases h with
  | access _ hd _ => rwa [hd]
  | entry c c' _ _ => exact hok.adjustFree _ _
  | hint c hc => exact hok.setHint hc

theorem FatSteps.same (h : FatSteps v v') : v.dpb.Same v'.dpb := by
  induction h with
  | refl => exact .refl _
  | tail _ hstep ih => exact ih.trans hstep.same

theorem FatSteps.ok (h : FatSteps v v') (hok : v.dpb.Ok) : v'.dpb.Ok := by
  induction h with
  | refl => exact hok
  | tail _ hstep ih => exact hstep.ok ih

/-! ## The functions on the table -/

theorem getFATblock_steps (v : Volume) : FatSteps v v.getFATblock.2 := by
  rw [Volume.getFATblock]
  split
  · exact .refl
  · exact .of_access rfl rfl

/-- An entry is read, or one of a cluster of the volume is written. -/
theorem linkFat_steps (v : Volume) (c : ℕ) {c' : ℕ}
    (hc' : c' = readCluster ∨ c' = free ∨ c' = longLastCluster ∨ v.dpb.Has c') :
    FatSteps v (linkFat v c c').2 := by
  have hblock := getFATblock_steps v
  have hdpb : v.getFATblock.2.dpb = v.dpb := by
    rw [Volume.getFATblock]
    split <;> rfl
  simp only [linkFat]
  split
  · exact .refl
  · rename_i hc
    split
    · exact .refl
    · split
      · exact hblock
      · split
        · exact hblock
        · split
          · exact hblock
          · rename_i hne
            refine hblock.tail (.entry c c' ?_ ?_)
            · rw [hdpb]
              exact ⟨by omega, by omega⟩
            · rw [hdpb]
              exact hc'.resolve_left hne

theorem nextCluster_steps (v : Volume) (c : ℕ) : FatSteps v (nextCluster v c).2 := by
  have hfirst := linkFat_steps v c (Or.inl rfl)
  simp only [nextCluster]
  split
  · exact hfirst
  · split <;> exact hfirst.trans (linkFat_steps _ _ (Or.inl rfl))

theorem isFreeCluster_steps (v : Volume) (c : ℕ) : FatSteps v (isFreeCluster v c).2 :=
  linkFat_steps v c (Or.inl rfl)

/-- A cluster that is found to be free is one of the volume. -/
theorem isFreeCluster_has {c : ℕ} (h : (isFreeCluster v c).1 = true) : v.dpb.Has c := by
  by_contra hc
  rw [isFreeCluster, linkFat_out hc] at h
  exact Bool.false_ne_true h

theorem searchFree_steps (size start n idx : ℕ) (v : Volume) :
    FatSteps v (searchFree size start n idx v).2 ∧
      ∀ c, (searchFree size start n idx v).1 = some c → v.dpb.Has c := by
  induction n generalizing idx v with
  | zero => exact ⟨.refl, fun c hc => (by cases hc)⟩
  | succ n ih =>
    have hread := isFreeCluster_steps v idx
    simp only [searchFree]
    split
    · rename_i hfree
      refine ⟨hread, fun c hc => ?_⟩
      obtain rfl : idx = c := Option.some.inj hc
      exact isFreeCluster_has hfree
    · split
      · exact ⟨hread, fun c hc => (by cases hc)⟩
      · obtain ⟨hsteps, hhas⟩ := ih (nextIdx size idx) (isFreeCluster v idx).2
        exact ⟨hread.trans hsteps, fun c hc => (hread.same.has c).mp (hhas c hc)⟩

/-- What `find_fat_free` returns is a cluster of the volume, or `LONG_LAST_CLUSTER`. -/
theorem findFatFree_steps (v : Volume) : FatSteps v (findFatFree v).2 ∧
    ((findFatFree v).1 = longLastCluster ∨ v.dpb.Has (findFatFree v).1) := by
  simp only [findFatFree]
  obtain ⟨hsteps, hhas⟩ := searchFree_steps v.dpb.maxCluster
    (if v.dpb.hint ≠ unknCluster then v.dpb.hint else 2) v.dpb.maxCluster
    (if v.dpb.hint ≠ unknCluster then v.dpb.hint else 2) v
  generalize searchFree v.dpb.maxCluster
    (if v.dpb.hint ≠ unknCluster then v.dpb.hint else 2) v.dpb.maxCluster
    (if v.dpb.hint ≠ unknCluster then v.dpb.hint else 2) v = r at hsteps hhas
  split
  · rename_i c hc
    have := hhas c hc
    exact ⟨hsteps.tail (.hint c (Or.inr ((hsteps.same.has c).mpr this))), Or.inr this⟩
  · exact ⟨hsteps.tail (.hint unknCluster (Or.inl rfl)), Or.inl rfl⟩

theorem lowerHint_steps {st : ℕ} (hst : v.dpb.Has st) : FatSteps v (v.lowerHint st) := by
  rw [Volume.lowerHint]
  split_ifs
  all_goals first
    | exact .single (.hint st (Or.inr hst))
    | exact .refl

/-- A cluster the entry of which has been written is one of the volume. -/
theorem linkFat_has {c c' : ℕ} (h : (linkFat v c c').1 = 0) : v.dpb.Has c := by
  by_contra hc
  rw [linkFat_out hc] at h
  exact Nat.one_ne_zero h

theorem wipeLoop_steps (n st : ℕ) (v : Volume) : FatSteps v (wipeLoop n st v) := by
  induction n generalizing st v with
  | zero => exact .refl
  | succ n ih =>
    have hnext := nextCluster_steps v st
    have hlink : FatSteps (nextCluster v st).2 (linkFat (nextCluster v st).2 st free).2 :=
      linkFat_steps _ st (Or.inr (Or.inl rfl))
    simp only [wipeLoop]
    split
    · exact .refl
    · split
      · exact hnext
      · split
        · exact hnext.trans hlink
        · rename_i hrc
          have hhas := (hlink.same.has st).mpr (linkFat_has (Decidable.not_not.mp hrc))
          exact (hnext.trans hlink).trans ((lowerHint_steps hhas).trans (ih _ _))

theorem wipeOutClusters_steps (v : Volume) (st : ℕ) : FatSteps v (wipeOutClusters v st) :=
  wipeLoop_steps _ _ v

/-! ## The count -/

/-- `dpb_xnfreeclst`, or `dpb_nfreeclst`. -/
def Dpb.freeclst (d : Dpb) : ℕ := if d.isFat32 then d.xnfreeclst else d.xnfreeclst % 2 ^ 16

/-- The DPB is right about the table. -/
structure Volume.Counted (v : Volume) : Prop where
  dpb : v.dpb.Ok
  count : v.dpb.freeclst = v.freeCount

theorem freeCount_le (v : Volume) : v.freeCount ≤ v.dpb.maxCluster - 1 := by
  have hle := Finset.card_filter_le (Finset.Icc 2 v.dpb.maxCluster) fun c => v.entry c = free
  rw [Nat.card_Icc] at hle
  exact hle.trans (by omega)

theorem Dpb.Ok.maxCluster_le {d : Dpb} (hok : d.Ok) (h32 : d.isFat32 = false) :
    d.maxCluster ≤ fatMagic16 := by
  rcases hok.kinds with ⟨-, hmax⟩ | ⟨-, -, hmax⟩ | ⟨-, -, h32', -⟩
  · exact hmax.trans (by decide)
  · exact hmax
  · rw [h32] at h32'
    exact absurd h32' Bool.false_ne_true

/-- An entry is read as free if it is 0. -/
theorem Dpb.Ok.decode_free {d : Dpb} (hok : d.Ok) (raw : ℕ) : d.decode raw = free ↔ raw = free := by
  have hlast : longLastCluster ≠ free := by decide
  have hbad : longBad ≠ free := by decide
  rcases hok.kinds with ⟨h, -⟩ | ⟨h, h', -⟩ | ⟨h, h', h'', -⟩
  · simp only [Dpb.decode, h, if_true]
    split_ifs with h1 h2
    · exact iff_of_false hlast fun h0 => by rw [h0] at h1; exact absurd h1 (by decide)
    · exact iff_of_false hbad fun h0 => by rw [h0] at h2; exact absurd h2 (by decide)
    · exact Iff.rfl
  · simp only [Dpb.decode, h, h', if_true, Bool.false_eq_true, if_false]
    split_ifs with h1 h2
    · exact iff_of_false hlast fun h0 => by rw [h0] at h1; exact absurd h1 (by decide)
    · exact iff_of_false hbad fun h0 => by rw [h0] at h2; exact absurd h2 (by decide)
    · exact Iff.rfl
  · simp only [Dpb.decode, h, h', h'', if_true, Bool.false_eq_true, if_false]
    split_ifs with h1
    · exact iff_of_false hlast fun h0 => by rw [h0] at h1; exact absurd h1 (by decide)
    · exact Iff.rfl

/-- The count is known. -/
theorem Volume.Counted.known (h : v.Counted) :
    v.dpb.isFat32 = true ∧ v.dpb.xnfreeclst = v.freeCount ∧ v.freeCount < longBad ∨
      v.dpb.isFat32 = false ∧ v.dpb.xnfreeclst % 2 ^ 16 = v.freeCount ∧
        v.freeCount < fatMagic16 := by
  have hcount := h.count
  have hle := freeCount_le v
  cases h32 : v.dpb.isFat32 with
  | true =>
    rw [Dpb.freeclst, if_pos h32] at hcount
    have hmax := (h.dpb.fat32 h32).2
    rw [Dpb.maxCluster, if_pos h32] at hle
    exact Or.inl ⟨rfl, hcount, by omega⟩
  | false =>
    rw [Dpb.freeclst, h32] at hcount
    have hmax := h.dpb.maxCluster_le h32
    have hmagic : 0 < fatMagic16 := by decide
    exact Or.inr ⟨rfl, hcount, by omega⟩

/-- What is added to the count, modulo its width. -/
def adjustment (wasfree : Bool) (c : ℕ) : ℕ :=
  if !wasfree then 1 else if c ≠ free then 2 ^ 32 - 1 else 0

theorem adjustFree_32 {d : Dpb} {wasfree : Bool} {c : ℕ} (hc : c = free ∨ wasfree = true)
    (h32 : d.isFat32 = true) (hx : d.xnfreeclst ≠ xunknClstFree) :
    (d.adjustFree wasfree c).xnfreeclst = (d.xnfreeclst + adjustment wasfree c) % 2 ^ 32 := by
  rw [Dpb.adjustFree, if_pos hc, if_pos (by simp [h32, hx])]
  rfl

theorem adjustFree_16 {d : Dpb} {wasfree : Bool} {c : ℕ} (hc : c = free ∨ wasfree = true)
    (h32 : d.isFat32 = false) (hx : d.xnfreeclst % 2 ^ 16 ≠ unknClstFree) :
    (d.adjustFree wasfree c).xnfreeclst % 2 ^ 16 =
      (d.xnfreeclst % 2 ^ 16 + adjustment wasfree c) % 2 ^ 16 := by
  rw [Dpb.adjustFree, if_pos hc, if_neg (by simp [h32])]
  dsimp only
  rw [if_pos hx]
  change (d.xnfreeclst - d.xnfreeclst % 2 ^ 16 +
    (d.xnfreeclst % 2 ^ 16 + adjustment wasfree c) % 2 ^ 16) % 2 ^ 16 = _
  omega

/-- What `link_fat` does to the count: one more free cluster, one less, or nothing. -/
theorem adjustFree_freeclst (h : v.Counted) (wasfree : Bool) (c : ℕ) {n : ℕ}
    (hn : n < v.dpb.maxCluster)
    (hcount : n + (if wasfree = true ∧ c ≠ free then 1 else 0) =
      v.freeCount + (if wasfree = false ∧ c = free then 1 else 0)) :
    (v.dpb.adjustFree wasfree c).freeclst = n := by
  have hfat := (Dpb.same_adjustFree v.dpb wasfree c).1.isFat32
  by_cases hc : c = free ∨ wasfree = true
  · have hadjust : ∀ w, (w = 2 ^ 16 ∨ w = 2 ^ 32) → n < w →
        (v.freeCount + adjustment wasfree c) % w = n := by
      intro w hw hnw
      rw [adjustment]
      cases wasfree with
      | false =>
        have hc' : c = free := hc.resolve_right Bool.false_ne_true
        simp only [hc', Bool.false_eq_true, false_and, if_false, and_self, if_true,
          Bool.not_false] at hcount ⊢
        rcases hw with rfl | rfl <;> omega
      | true =>
        by_cases hc' : c = free
        · simp only [hc', ne_eq, not_true, and_false, if_false, reduceCtorEq, false_and,
            Bool.not_true, Bool.false_eq_true] at hcount ⊢
          rcases hw with rfl | rfl <;> omega
        · simp only [hc', ne_eq, not_false_iff, and_self, if_true, reduceCtorEq, if_false,
            Bool.not_true, Bool.false_eq_true] at hcount ⊢
          rcases hw with rfl | rfl <;> omega
    obtain ⟨h32, hx, hlt⟩ | ⟨h32, hx, hlt⟩ := h.known
    · have hmax : n < longBad := by
        have := (h.dpb.fat32 h32).2
        rw [Dpb.maxCluster, if_pos h32] at hn
        omega
      have hlong : longBad < xunknClstFree := by decide
      rw [Dpb.freeclst, hfat, if_pos h32, adjustFree_32 hc h32 (by rw [hx]; omega), hx]
      exact hadjust _ (Or.inr rfl) (hmax.trans (by decide))
    · have hmax := hn.trans_le (h.dpb.maxCluster_le h32)
      have hmagic : fatMagic16 < unknClstFree := by decide
      rw [Dpb.freeclst, hfat, h32, if_neg Bool.false_ne_true,
        adjustFree_16 hc h32 (by rw [hx]; omega), hx]
      exact hadjust _ (Or.inl rfl) (hmax.trans (by decide))
  · rw [not_or, Bool.not_eq_true] at hc
    rw [Dpb.adjustFree, if_neg (by simp [hc])]
    simp only [hc.1, hc.2, Bool.false_eq_true, false_and, if_false, and_false, Nat.add_zero]
      at hcount
    rw [h.count, hcount]

/-- What writing an entry does to the number of free clusters. -/
theorem setEntry_freeCount (h : v.dpb.Ok) {c c' : ℕ} (hc : v.dpb.Has c)
    (hc' : c' = free ∨ c' = longLastCluster ∨ v.dpb.Has c') :
    (v.setEntry c c').freeCount + (if (v.fat c == free) = true ∧ c' ≠ free then 1 else 0) =
      v.freeCount + (if (v.fat c == free) = false ∧ c' = free then 1 else 0) := by
  have hsame : v.dpb.Same (v.setEntry c c').dpb := (Dpb.same_adjustFree _ _ _).1
  have hentry := setEntry_entry h c hc'
  have hself : (v.setEntry c c').entry c = c' := by rw [hentry, Function.update_self]
  have hrest : ∀ d, d ≠ c → ((v.setEntry c c').entry d = free ↔ v.entry d = free) :=
    fun d hd => by rw [hentry, Function.update_of_ne hd]
  have hfree : v.entry c = free ↔ v.fat c = free := h.decode_free _
  by_cases hwas : v.fat c = free <;> by_cases hnew : c' = free
  · -- free before and after
    have hall : (v.setEntry c c').entry = v.entry := by
      rw [hentry, hnew, Function.update_eq_self_iff]
      exact (hfree.mpr hwas).symm
    have heq := freeCount_congr hsame hall
    subst hnew
    simp [hwas, heq]
  · have := freeCount_used hsame hc (hfree.mpr hwas) (by rwa [hself]) hrest
    simp [hwas, hnew, this]
  · have := freeCount_used hsame.symm ((hsame.has c).mpr hc) (hself.trans hnew)
      (fun hf => hwas (hfree.mp hf)) fun d hd => (hrest d hd).symm
    simp [hwas, hnew, this]
  · -- in use before and after
    have heq : (v.setEntry c c').freeCount = v.freeCount := by
      rw [Volume.freeCount, Volume.freeCount, hsame.maxCluster]
      congr 1
      refine Finset.filter_congr fun d _ => ?_
      rcases eq_or_ne d c with rfl | hd
      · rw [hself]
        exact iff_of_false hnew fun hf => hwas (hfree.mp hf)
      · exact hrest d hd
    simp [hwas, hnew, heq]

theorem FatStep.counted (h : FatStep v v') (hc : v.Counted) : v'.Counted := by
  refine ⟨h.ok hc.dpb, ?_⟩
  cases h with
  | access _ hd hf =>
    have hentry : v'.entry = v.entry := by funext c; rw [Volume.entry, Volume.entry, hd, hf]
    rw [hd, hc.count, freeCount_congr (hd ▸ .refl _) hentry]
  | entry c c' hhas hc' =>
    have hmax := freeCount_le (v.setEntry c c')
    have hsame : v.dpb.Same (v.setEntry c c').dpb := (Dpb.same_adjustFree _ _ _).1
    rw [hsame.maxCluster] at hmax
    have := hhas.1; have := hhas.2
    exact adjustFree_freeclst hc _ _ (by omega) (setEntry_freeCount hc.dpb hhas hc')
  | hint c _ =>
    have hsame := Dpb.same_setHint v.dpb c
    have hentry : ({ v with dpb := v.dpb.setHint c } : Volume).entry = v.entry :=
      funext fun d => hsame.decode _
    rw [freeCount_congr hsame hentry, ← hc.count, Dpb.freeclst, Dpb.freeclst, hsame.isFat32]
    simp only [Dpb.setHint]
    split <;> rfl

/-- **The count stays right**, whatever becomes of the functions on the table. -/
theorem FatSteps.counted (h : FatSteps v v') (hc : v.Counted) : v'.Counted := by
  induction h with
  | refl => exact hc
  | tail _ hstep ih => exact hstep.counted ih

/-! ## Counting -/

theorem same_setFree (d : Dpb) (cnt : ℕ) : d.Same (d.setFree cnt) ∧
    (d.setFree cnt).hint = d.hint := by
  rw [Dpb.setFree]
  split <;> exact ⟨⟨d.cluster, d.xcluster, _, rfl⟩, rfl⟩

theorem isFreeCluster_fat (v : Volume) (c : ℕ) : (isFreeCluster v c).2.fat = v.fat := by
  have hblock : v.getFATblock.2.fat = v.fat := by
    rw [Volume.getFATblock]
    split <;> rfl
  rw [isFreeCluster, linkFat]
  dsimp only
  split
  · rfl
  · split
    · rfl
    · split
      · exact hblock
      · split
        · exact hblock
        · rw [if_pos rfl]
          exact hblock

/-- Counting does not change the table. -/
theorem countFree_steps (n i cnt : ℕ) (v : Volume) :
    FatSteps v (countFree n i cnt v).2 ∧ (countFree n i cnt v).2.fat = v.fat := by
  induction n generalizing i cnt v with
  | zero => exact ⟨.refl, rfl⟩
  | succ n ih =>
    have hread := isFreeCluster_steps v i
    have hfat := isFreeCluster_fat v i
    simp only [countFree]
    split
    · rename_i hfree
      have hhas := (hread.same.has i).mpr (isFreeCluster_has hfree)
      have hhint : FatSteps v (if cnt = 0 then
          { (isFreeCluster v i).2 with dpb := (isFreeCluster v i).2.dpb.setHint i }
          else (isFreeCluster v i).2) ∧ (if cnt = 0 then
          { (isFreeCluster v i).2 with dpb := (isFreeCluster v i).2.dpb.setHint i }
          else (isFreeCluster v i).2).fat = v.fat := by
        split
        · exact ⟨hread.tail (.hint i (Or.inr hhas)), hfat⟩
        · exact ⟨hread, hfat⟩
      exact ⟨hhint.1.trans (ih _ _ _).1, (ih _ _ _).2.trans hhint.2⟩
    · exact ⟨hread.trans (ih _ _ _).1, (ih _ _ _).2.trans hfat⟩

end Fat
end BurdahDos
