import BurdahDos.Fat.Count
import Mathlib

/-!
# Freeing a chain of a table that may be corrupt

`wipe_out_clusters` follows links that it destroys, in a table of which nothing is known here:
chains may be cyclic, be linked to one another, or lead to free clusters or out of the table, and
reads of the table may fail.

`WipeEnds` is the loop by itself, without a bound on its turns.  It comes to an end
(`wipeOutClusters_ends`) because each turn frees an entry that was not free; what it frees is
reached from where it began (`WipeEnds.freed`); and of a chain that is as it should be it frees the
first clusters, all of them if no read fails (`WipeEnds.initial`).
-/

set_option autoImplicit false

namespace BurdahDos
namespace Fat

variable {v v' : Volume} {st c c' : ℕ} {L : List ℕ}

/-! ## Steps of the loop -/

theorem lowerHint_fat (v : Volume) (st : ℕ) :
    (v.lowerHint st).fat = v.fat ∧ v.dpb.Same (v.lowerHint st).dpb := by
  simp only [Volume.lowerHint]
  generalize (if v.dpb.isFat32 then st else st % 65536) = bound
  split
  · exact ⟨rfl, Dpb.same_setHint _ _⟩
  · exact ⟨rfl, .refl _⟩

theorem free_ne_read : free ≠ readCluster := by decide

theorem encode_free (d : Dpb) : d.encode free = free := by
  rw [Dpb.encode]
  split_ifs <;> rfl

/-- An entry of 0 is not the number of a cluster. -/
theorem decode_free_le (d : Dpb) : d.decode free ≤ 1 := by
  have hlast : ¬ free > longBad := by decide
  have h16 : ¬ free ≥ mask16 := by decide
  have h12 : ¬ free ≥ mask12 := by decide
  have hbad16 : free ≠ bad16 := by decide
  have hbad12 : free ≠ bad12 := by decide
  simp only [Dpb.decode, hlast, h16, h12, hbad16, hbad12, if_false]
  split_ifs <;> decide

/-! ## The loop -/

/-- The loop of `wipe_out_clusters`, from `st` on: it comes to an end, and leaves `v'`. -/
inductive WipeEnds : ℕ → Volume → Volume → Prop where
  /-- The chain is at its end. -/
  | last (v : Volume) : WipeEnds longLastCluster v v
  /-- A damaged file system. -/
  | damaged {st : ℕ} {v : Volume} : st ≠ longLastCluster → (nextCluster v st).1 ≤ 1 →
      WipeEnds st v (nextCluster v st).2
  /-- The entry cannot be written. -/
  | failed {st : ℕ} {v : Volume} : st ≠ longLastCluster → ¬ (nextCluster v st).1 ≤ 1 →
      (linkFat (nextCluster v st).2 st free).1 ≠ 0 →
      WipeEnds st v (linkFat (nextCluster v st).2 st free).2
  /-- The entry is free, and the loop follows the link that was in it. -/
  | turn {st : ℕ} {v v' : Volume} : st ≠ longLastCluster → ¬ (nextCluster v st).1 ≤ 1 →
      (linkFat (nextCluster v st).2 st free).1 = 0 →
      WipeEnds (nextCluster v st).1 ((linkFat (nextCluster v st).2 st free).2.lowerHint st) v' →
      WipeEnds st v v'

/-- The volume after a turn. -/
def Volume.turned (v : Volume) (st : ℕ) : Volume :=
  (linkFat (nextCluster v st).2 st free).2.lowerHint st

/-- What a turn does: an entry that led on becomes free. -/
theorem turned_spec (hnext : ¬ (nextCluster v st).1 ≤ 1)
    (hlink : (linkFat (nextCluster v st).2 st free).1 = 0) :
    v.dpb.Has st ∧ (nextCluster v st).1 = v.entry st ∧ v.dpb.Same (v.turned st).dpb ∧
      (v.turned st).fat = Function.update v.fat st free := by
  obtain ⟨hfat, hdpb, hone | ⟨hhas, hentry⟩⟩ := nextCluster_cases v st
  · exact absurd hone.le hnext
  · obtain ⟨hsame, -, ⟨hone, -⟩ | ⟨-, -, hupdate⟩⟩ :=
      linkFat_writeCases (nextCluster v st).2 st free_ne_read
    · rw [hlink] at hone
      exact absurd hone zero_ne_one
    · obtain ⟨hfat', hsame'⟩ := lowerHint_fat (linkFat (nextCluster v st).2 st free).2 st
      rw [hdpb] at hsame
      exact ⟨hhas, hentry, hsame.trans hsame', hfat'.trans (by rw [hupdate, hfat, encode_free])⟩

theorem turned_entry (hsame : v.dpb.Same (v.turned st).dpb)
    (hfat : (v.turned st).fat = Function.update v.fat st free) (hne : c ≠ st) :
    (v.turned st).entry c = v.entry c := by
  rw [Volume.entry, Volume.entry, hsame.decode, hfat, Function.update_of_ne hne]

/-- What is left of a chain when its first cluster is free. -/
theorem turned_isChain (hsame : v.dpb.Same (v.turned st).dpb)
    (hfat : (v.turned st).fat = Function.update v.fat st free) (hL : v.IsChain (st :: L)) :
    (v.turned st).IsChain L := by
  obtain ⟨hst, hnodup⟩ := List.nodup_cons.mp hL.nodup
  refine ⟨fun c hc => (hsame.has c).mpr (hL.range c (List.mem_cons_of_mem st hc)), hnodup,
    hL.linked.tail.congr fun c hc => turned_entry hsame hfat ?_⟩
  rintro rfl
  exact hst hc

/-! ## The loop ends -/

/-- How many entries are not 0. -/
def Volume.usedCount (v : Volume) : ℕ := {c ∈ Finset.Icc 2 v.dpb.maxCluster | v.fat c ≠ free}.card

theorem usedCount_le (v : Volume) : v.usedCount ≤ v.dpb.maxCluster - 1 := by
  have hle := Finset.card_filter_le (Finset.Icc 2 v.dpb.maxCluster) fun c => v.fat c ≠ free
  rw [Nat.card_Icc] at hle
  exact hle.trans (by omega)

/-- Each turn leaves one entry less. -/
theorem turned_usedCount (hnext : ¬ (nextCluster v st).1 ≤ 1)
    (hlink : (linkFat (nextCluster v st).2 st free).1 = 0) :
    (v.turned st).usedCount + 1 = v.usedCount := by
  obtain ⟨hhas, hentry, hsame, hfat⟩ := turned_spec hnext hlink
  have hused : v.fat st ≠ free := by
    intro hfree
    refine hnext ?_
    rw [hentry, Volume.entry, hfree]
    exact decode_free_le _
  have hmem : st ∈ {c ∈ Finset.Icc 2 v.dpb.maxCluster | v.fat c ≠ free} := by
    simp [hused, hhas.1, hhas.2]
  have herase : {c ∈ Finset.Icc 2 (v.turned st).dpb.maxCluster | (v.turned st).fat c ≠ free} =
      {c ∈ Finset.Icc 2 v.dpb.maxCluster | v.fat c ≠ free}.erase st := by
    ext c
    rw [hsame.maxCluster, hfat]
    by_cases hc : c = st
    · simp [hc]
    · simp [hc, Function.update_of_ne]
  rw [Volume.usedCount, herase, Finset.card_erase_of_mem hmem]
  have := Finset.card_pos.mpr ⟨st, hmem⟩
  rw [Volume.usedCount]
  omega

theorem wipeLoop_ends {n : ℕ} (st : ℕ) (v : Volume) (hn : v.usedCount < n) :
    WipeEnds st v (wipeLoop n st v) := by
  induction n generalizing st v with
  | zero => exact absurd hn (Nat.not_lt_zero _)
  | succ n ih =>
    simp only [wipeLoop]
    split
    · rename_i hst
      rw [hst]
      exact .last v
    · rename_i hst
      split
      · rename_i hnext
        exact .damaged hst hnext
      · rename_i hnext
        split
        · rename_i hlink
          exact .failed hst hnext hlink
        · rename_i hlink
          rw [not_not] at hlink
          have hcount := turned_usedCount hnext hlink
          exact .turn hst hnext hlink (ih _ (v.turned st) (by omega))

/-- **`wipe_out_clusters` comes to an end**, whatever is in the table, and from where ever it
begins. -/
theorem wipeOutClusters_ends (v : Volume) (st : ℕ) : WipeEnds st v (wipeOutClusters v st) := by
  rw [wipeOutClusters]
  rcases Nat.eq_zero_or_pos v.dpb.maxCluster with hmax | hmax
  · -- a table without clusters
    rw [hmax, wipeLoop]
    by_cases hst : st = longLastCluster
    · rw [hst]
      exact .last v
    · have hout : ¬ v.dpb.Has st := fun hhas => by have := hhas.1; have := hhas.2; omega
      have hnext : nextCluster v st = (1, v) := by
        simp only [nextCluster, linkFat_out hout]
        rw [if_pos (Or.inl Nat.one_lt_two)]
      have hend : WipeEnds st v (nextCluster v st).2 := .damaged hst (by rw [hnext])
      rwa [hnext] at hend
  · exact wipeLoop_ends st v (by have := usedCount_le v; omega)

/-! ## What is freed -/

/-- The entry of a cluster of the volume leads to another cluster, or what is taken for one. -/
def Volume.Succ (v : Volume) (c c' : ℕ) : Prop := v.dpb.Has c ∧ v.entry c = c' ∧ 2 ≤ c'

/-- The cluster is reached by following successors. -/
abbrev Volume.Reaches (v : Volume) : ℕ → ℕ → Prop := Relation.ReflTransGen v.Succ

/-- The clusters that are reached after a turn were reached before. -/
theorem turned_reaches (hsame : v.dpb.Same (v.turned st).dpb)
    (hfat : (v.turned st).fat = Function.update v.fat st free) (h : (v.turned st).Reaches c c') :
    v.Reaches c c' := by
  refine Relation.ReflTransGen.mono (fun d e hsucc => ?_) _ _ h
  obtain ⟨hhas, hentry, hle⟩ := hsucc
  have hne : d ≠ st := by
    rintro rfl
    rw [Volume.entry, hfat, Function.update_self] at hentry
    have := decode_free_le (v.turned d).dpb
    omega
  exact ⟨(hsame.has d).mp hhas, (turned_entry hsame hfat hne).symm.trans hentry, hle⟩

/-- Only what is reached from where the loop began is changed, and it is freed. -/
theorem WipeEnds.freed (h : WipeEnds st v v') (c : ℕ) :
    v'.fat c = v.fat c ∨ v'.fat c = free ∧ v.Reaches st c := by
  induction h with
  | last v => exact Or.inl rfl
  | damaged _ _ => exact Or.inl (by rw [(nextCluster_cases _ _).1])
  | @failed st v _ _ hlink =>
    obtain ⟨-, -, ⟨-, hfat⟩ | ⟨-, hzero, -⟩⟩ := linkFat_writeCases (nextCluster v st).2 st free_ne_read
    · exact Or.inl (by rw [hfat, (nextCluster_cases v st).1])
    · exact absurd hzero hlink
  | @turn st v v' _ hnext hlink _ ih =>
    obtain ⟨hhas, hentry, hsame, hfat⟩ := turned_spec hnext hlink
    have hsucc : v.Succ st (nextCluster v st).1 := ⟨hhas, hentry.symm, by omega⟩
    change v'.fat c = (v.turned st).fat c ∨
      v'.fat c = free ∧ (v.turned st).Reaches (nextCluster v st).1 c at ih
    rcases ih with ih | ⟨hfree, hreach⟩
    · rcases eq_or_ne c st with rfl | hne
      · rw [hfat, Function.update_self] at ih
        exact Or.inr ⟨ih, .refl⟩
      · rw [hfat, Function.update_of_ne hne] at ih
        exact Or.inl ih
    · exact Or.inr ⟨hfree, (turned_reaches hsame hfat hreach).head hsucc⟩

/-- A chain leads on, if accesses succeed. -/
theorem nextCluster_cons (h : v.Readable) (hL : v.IsChain (st :: L)) :
    nextCluster v st = (L.headD longLastCluster, v) ∧ ¬ L.headD longLastCluster ≤ 1 := by
  constructor
  · rw [nextCluster_chain h hL (i := 0) rfl]
    cases L <;> rfl
  · cases L with
    | nil => decide
    | cons c L =>
      have := (hL.range c (by simp)).1
      simp only [List.headD_cons]
      omega

/-- A chain that begins with the end mark is empty. -/
theorem Volume.IsChain.eq_nil (hL : v.IsChain L) (ht : v.dpb.Typed)
    (hlast : L.headD longLastCluster = longLastCluster) : L = [] := by
  cases L with
  | nil => rfl
  | cons c L =>
    have hlt := ht.has_lt (hL.range c List.mem_cons_self)
    obtain rfl : c = longLastCluster := hlast
    exact absurd hlt (by decide)

theorem turned_readable (h : v.Readable) (hL : v.IsChain (st :: L)) : (v.turned st).Readable := by
  have hlink := linkFat_setEntry h (hL.range st List.mem_cons_self) (Or.inl rfl)
  have hadjust := Dpb.same_adjustFree v.dpb (v.fat st == free) free
  have hturn : v.turned st = (v.setEntry st free).lowerHint st := by
    rw [Volume.turned, (nextCluster_cons h hL).1, hlink]
  rw [hturn]
  refine ⟨(lowerHint_fat _ _).2.typed (hadjust.1.typed h.dpb), ?_⟩
  simp only [Volume.lowerHint]
  generalize (if (v.setEntry st free).dpb.isFat32 then st else st % 65536) = bound
  split <;> exact h.sound

/-- Of a chain the first clusters are freed, and all of them if accesses succeed. -/
theorem WipeEnds.initial (h : WipeEnds st v v') (hL : v.IsChain L)
    (hst : L.headD longLastCluster = st) :
    ∃ k, (∀ c, v'.fat c = if c ∈ L.take k then free else v.fat c) ∧
      (v.Readable → L.take k = L) := by
  induction h generalizing L with
  | last v => exact ⟨0, fun c => by simp, fun hr => (hL.eq_nil hr.dpb hst).symm⟩
  | @damaged st v hne hnext =>
    refine ⟨0, fun c => by simp [(nextCluster_cases _ _).1], fun hr => ?_⟩
    cases L with
    | nil => rfl
    | cons d L =>
      obtain rfl : d = st := hst
      obtain ⟨heq, hgt⟩ := nextCluster_cons hr hL
      rw [heq] at hnext
      exact absurd hnext hgt
  | @failed st v hne _ hlink =>
    obtain ⟨-, -, ⟨-, hfat⟩ | ⟨-, hzero, -⟩⟩ := linkFat_writeCases (nextCluster v st).2 st free_ne_read
    · refine ⟨0, fun c => by simp [hfat, (nextCluster_cases v st).1], fun hr => ?_⟩
      cases L with
      | nil => rfl
      | cons d L =>
        obtain rfl : d = st := hst
        rw [(nextCluster_cons hr hL).1,
          linkFat_setEntry hr (hL.range d List.mem_cons_self) (Or.inl rfl)] at hlink
        exact absurd rfl hlink
    · exact absurd hzero hlink
  | @turn st v v' hne hnext hlink _ ih =>
    obtain ⟨hhas, hentry, hsame, hfat⟩ := turned_spec hnext hlink
    cases L with
    | nil => exact absurd hst.symm hne
    | cons d L =>
      obtain rfl : d = st := hst
      obtain ⟨k, hk, hall⟩ := ih (turned_isChain hsame hfat hL) (by rw [hentry, hL.linked.1])
      refine ⟨k + 1, fun c => ?_, fun hr => ?_⟩
      · rw [hk c]
        change (if c ∈ L.take k then free else (v.turned d).fat c) = _
        rw [List.take_succ_cons, hfat]
        by_cases hc : c = d
        · simp [hc]
        · simp [hc, Function.update_of_ne]
      · rw [List.take_succ_cons, hall (turned_readable hr hL)]

/-- **What `wipe_out_clusters` frees.**  The loop ends, and frees only clusters that are reached
from where it began.  Of a chain it frees the first clusters, and if accesses succeed the whole
chain. -/
theorem wipeOutClusters_frees (v : Volume) (st : ℕ) :
    WipeEnds st v (wipeOutClusters v st) ∧
      (∀ c, (wipeOutClusters v st).fat c = v.fat c ∨
        (wipeOutClusters v st).fat c = free ∧ v.Reaches st c) ∧
      ∀ L, v.IsChain L → L.headD longLastCluster = st →
        ∃ k, (∀ c, (wipeOutClusters v st).fat c = if c ∈ L.take k then free else v.fat c) ∧
          (v.Readable → L.take k = L) :=
  ⟨wipeOutClusters_ends v st, (wipeOutClusters_ends v st).freed,
    fun _ hL hst => (wipeOutClusters_ends v st).initial hL hst⟩

/-- The DPB of a FAT16 volume of five thousand clusters. -/
def tinyDpb : Dpb where
  unit := 0
  secsize := 512
  clsmask := 0
  shftcnt := 0
  dirents := 16
  data := 42
  size := 5001
  fatsize := 20
  dirstrt := 41
  cluster := unknCluster
  xnfreeclst := xunknClstFree
  xdata := 42
  xsize := 5001
  xrootclst := 0
  xcluster := unknCluster

theorem tinyDpb_typed : tinyDpb.Typed :=
  ⟨Or.inr (Or.inl rfl), fun h => absurd h Bool.false_ne_true⟩

/-- Clusters 2 and 3 form a chain, and the chain from 4 on leads into a circle. -/
def tinyFat (fatOutcomes : List Bool) : Volume where
  dpb := tinyDpb
  fat := fun c => [0xFFF8, 0xFFFF, 3, 0xFFFF, 5, 6, 5].getD c 0
  disk := fun _ _ => 0
  fatOutcomes := fatOutcomes
  outcomes := []

theorem wipeOutClusters_frees_tiny :
    ∃ k, (∀ c, (wipeOutClusters (tinyFat []) 2).fat c =
      if c ∈ [2, 3].take k then free else (tinyFat []).fat c) ∧ [2, 3].take k = [2, 3] := by
  obtain ⟨k, hfat, hall⟩ := (wipeOutClusters_frees (tinyFat []) 2).2.2 [2, 3] (by decide) rfl
  exact ⟨k, hfat, hall ⟨tinyDpb_typed, rfl⟩⟩

/-- If the sector of the table cannot be read, a chain stays in use. -/
theorem wipeOutClusters_fails : (tinyFat [false]).IsChain [2, 3] ∧
    (wipeOutClusters (tinyFat [false]) 2).fat 2 ≠ free := by
  decide +kernel

end Fat
end BurdahDos
