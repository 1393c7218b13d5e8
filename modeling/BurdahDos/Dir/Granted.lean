import BurdahDos.Dir.View
import Mathlib

/-!
# The accesses of a search

`View` says what a search comes to if an access may fail anywhere.  Here the accesses are counted:
one for the sector of each entry, and one or two for the table wherever the chain of the directory
goes on.  `search_found_iff` tells from the outcomes to come whether a search gets to an entry.
-/

set_option autoImplicit false

namespace BurdahDos
namespace Dir

open Fat File

variable {v v' : Volume} {fnp : FNode} {dir c : ℕ}

/-! ## Outcomes to come -/

/-- The next `n` accesses to the table succeed. -/
def TableGranted (v : Volume) (n : ℕ) : Prop := ∀ ok ∈ v.fatOutcomes.take n, ok = true

/-- The next `n` accesses to other sectors succeed. -/
def Granted (v : Volume) (n : ℕ) : Prop := ∀ r ∈ v.outcomes.take n, r = none

/-- The volume after so many accesses to the table and to other sectors. -/
def spend (v : Volume) (a b : ℕ) : Volume :=
  { v with fatOutcomes := v.fatOutcomes.drop a, outcomes := v.outcomes.drop b }

@[simp] theorem spend_zero (v : Volume) : spend v 0 0 = v := rfl

theorem spend_spend (v : Volume) (a b a' b' : ℕ) :
    spend (spend v a b) a' b' = spend v (a + a') (b + b') := by
  rw [spend, spend, spend]
  simp only [List.drop_drop]

@[simp] theorem linked_spend (v : Volume) (a b c : ℕ) : linked (spend v a b) c = linked v c :=
  linked_congr (v := v) rfl rfl c

@[simp] theorem next_spend (v : Volume) (a b c : ℕ) : next (spend v a b) c = next v c :=
  next_congr (v := v) rfl rfl c

@[simp] theorem follow_spend (v : Volume) (a b c n : ℕ) :
    follow (spend v a b) c n = follow v c n :=
  follow_congr (show (spend v a b).dpb = v.dpb from rfl) rfl c n

@[simp] theorem dirent_spend (v : Volume) (a b dir n : ℕ) :
    dirent (spend v a b) dir n = dirent v dir n :=
  dirent_congr (show (spend v a b).dpb = v.dpb from rfl) rfl rfl dir n

theorem tableGranted_add (a b m : ℕ) :
    TableGranted v (a + m) ↔ TableGranted v a ∧ TableGranted (spend v a b) m := by
  simp only [TableGranted, spend, List.take_add, List.mem_append, or_imp, forall_and]

theorem granted_add (a b m : ℕ) :
    Granted v (b + m) ↔ Granted v b ∧ Granted (spend v a b) m := by
  simp only [Granted, spend, List.take_add, List.mem_append, or_imp, forall_and]

theorem tableGranted_of_sound (h : Sound v) (n : ℕ) : TableGranted v n := by
  rw [TableGranted, h.1, List.take_nil]
  exact fun ok hok => absurd hok List.not_mem_nil

theorem TableGranted.of_le {m n : ℕ} (h : TableGranted v n) (hle : m ≤ n) : TableGranted v m := by
  rw [← Nat.add_sub_cancel' hle, tableGranted_add m 0] at h
  exact h.1

theorem Granted.of_le {m n : ℕ} (h : Granted v n) (hle : m ≤ n) : Granted v m := by
  rw [← Nat.add_sub_cancel' hle, granted_add 0 m] at h
  exact h.1

theorem granted_of_sound (h : Sound v) (n : ℕ) : Granted v n := by
  rw [Granted, h.2, List.take_nil]
  exact fun r hr => absurd hr List.not_mem_nil

theorem getFATblock_spend (v : Volume) :
    v.getFATblock.2 = spend v 1 0 ∧ (v.getFATblock.1 = true ↔ TableGranted v 1) := by
  obtain ⟨dpb, fat, disk, fatOutcomes, outcomes⟩ := v
  cases fatOutcomes with
  | nil => exact ⟨rfl, iff_of_true rfl fun ok hok => absurd hok List.not_mem_nil⟩
  | cons ok rest => exact ⟨rfl, by simp [Volume.getFATblock, TableGranted]⟩

theorem access_spend (v : Volume) :
    v.access.2 = spend v 0 1 ∧ (v.access.1 = none ↔ Granted v 1) := by
  obtain ⟨dpb, fat, disk, fatOutcomes, outcomes⟩ := v
  cases outcomes with
  | nil => exact ⟨rfl, iff_of_true rfl fun r hr => absurd hr List.not_mem_nil⟩
  | cons r rest => exact ⟨rfl, by simp [Volume.access, Granted]⟩

/-! ## Following a chain -/

/-- How often `next_cluster` gets a sector of the table to go on from `c`. -/
def nextReads (v : Volume) (c : ℕ) : ℕ := if linked v c ≥ longBad then 1 else 2

/-- The same for `n` links. -/
def linkReads (v : Volume) : ℕ → ℕ → ℕ
  | 0, _ => 0
  | n + 1, c => nextReads v c + linkReads v n (next v c)

@[simp] theorem linkReads_spend (v : Volume) (a b n c : ℕ) :
    linkReads (spend v a b) n c = linkReads v n c := by
  induction n generalizing c with
  | zero => rfl
  | succ n ih => rw [linkReads, linkReads, nextReads, nextReads, linked_spend, next_spend, ih]

theorem linkReads_add (v : Volume) (m n : ℕ) {c' : ℕ} (h : follow v c m = some c') :
    linkReads v (m + n) c = linkReads v m c + linkReads v n c' := by
  induction m generalizing c with
  | zero => rw [Nat.zero_add, linkReads, Nat.zero_add, Option.some.inj h]
  | succ m ih =>
    rw [follow] at h
    split at h
    · cases h
    · rw [Nat.succ_add, linkReads, linkReads, ih h, Nat.add_assoc]

theorem linkReads_mono (v : Volume) {m n : ℕ} (h : m ≤ n) (c : ℕ) :
    linkReads v m c ≤ linkReads v n c := by
  induction n generalizing m c with
  | zero => rw [Nat.le_zero.mp h]
  | succ n ih =>
    cases m with
    | zero => exact Nat.zero_le _
    | succ m => exact Nat.add_le_add_left (ih (Nat.le_of_succ_le_succ h) _) _

theorem linkFat_spend (h : linked v c ≠ 1) : (linkFat v c readCluster).2 = spend v 1 0 ∧
    (TableGranted v 1 → (linkFat v c readCluster).1 = linked v c) ∧
    (¬ TableGranted v 1 → (linkFat v c readCluster).1 = 1) := by
  obtain ⟨hspend, hok⟩ := getFATblock_spend v
  rw [linked] at h
  split_ifs at h with h1 h2 h3
  · exact absurd rfl h
  · exact absurd rfl h
  · have hentry : linked v c = v.entry c := by rw [linked, if_neg h1, if_neg h2, if_pos h3]
    simp only [linkFat]
    rw [if_neg h1, if_neg h2, hspend]
    refine ⟨?_, fun hg => ?_, fun hg => ?_⟩
    · split_ifs <;> rfl
    · rw [hok.mpr hg, h3, hentry]
      rfl
    · rw [Bool.eq_false_iff.mpr (mt hok.mp hg)]
      rfl
  · exact absurd rfl h

/-- `next_cluster` where there is a next cluster. -/
theorem nextCluster_spend (h : 1 < next v c) :
    (TableGranted v (nextReads v c) → nextCluster v c = (next v c, spend v (nextReads v c) 0)) ∧
      (¬ TableGranted v (nextReads v c) → (nextCluster v c).1 ≤ 1) := by
  have hone : linked v c ≠ 1 := by
    intro h1
    rw [next, h1, if_pos (Or.inl Nat.one_lt_two)] at h
    exact absurd h (Nat.lt_irrefl 1)
  obtain ⟨hvol, hgranted, hfailed⟩ := linkFat_spend hone
  simp only [nextCluster]
  rw [next] at h ⊢
  by_cases hend : linked v c < 2 ∨ linked v c ≥ longBad
  · rw [if_pos hend] at h
    rw [if_pos hend, nextReads, if_pos (by omega)]
    constructor
    · intro hg
      rw [hgranted hg, if_pos hend, ← hvol, ← hgranted hg]
    · intro hg
      rw [hfailed hg, if_pos (Or.inl Nat.one_lt_two), hfailed hg]
  · rw [if_neg hend] at h
    have hnot : ¬ (linked v (linked v c) < 2 ∨
        linked v (linked v c) < longBad ∧ linked v (linked v c) > v.dpb.maxCluster) := by
      intro hbad
      rw [if_pos hbad] at h
      exact absurd h (Nat.lt_irrefl 1)
    rw [if_neg hend, if_neg hnot, nextReads, if_neg (by omega), show 2 = 1 + 1 from rfl,
      tableGranted_add 1 0 1]
    obtain ⟨hvol', hgranted', hfailed'⟩ := linkFat_spend (v := spend v 1 0) (c := linked v c)
      (by rw [linked_spend]; omega)
    rw [linked_spend] at hgranted'
    constructor
    · rintro ⟨hg, hg'⟩
      rw [hgranted hg, if_neg hend, hvol, hgranted' hg', if_neg hnot, hvol', spend_spend]
    · intro hg
      by_cases hg1 : TableGranted v 1
      · have hg' : ¬ TableGranted (spend v 1 0) 1 := fun h' => hg ⟨hg1, h'⟩
        rw [hgranted hg1, if_neg hend, hvol, hfailed' hg', if_pos (Or.inl Nat.one_lt_two)]
      · rw [hfailed hg1, if_pos (Or.inl Nat.one_lt_two), hfailed hg1]

/-- The loop of `map_cluster`, where the chain is long enough. -/
theorem mapLoop_spend {n c' : ℕ} (h : follow v fnp.cluster n = some c') :
    (TableGranted v (linkReads v n fnp.cluster) → mapLoop .read n fnp v =
        (success, fnp.to c' (fnp.clusterOffset + n), spend v (linkReads v n fnp.cluster) 0)) ∧
      (¬ TableGranted v (linkReads v n fnp.cluster) → (mapLoop .read n fnp v).1 ≠ success) := by
  have hseek : deSeek ≠ success := by decide
  induction n generalizing v fnp with
  | zero =>
    rw [← Option.some.inj h]
    exact ⟨fun _ => rfl, fun hg => absurd (fun ok hok => absurd hok List.not_mem_nil) hg⟩
  | succ n ih =>
    rw [follow] at h
    split at h
    · cases h
    · rename_i hnext
      rw [not_or, not_le] at hnext
      obtain ⟨hgranted, hfailed⟩ := nextCluster_spend hnext.1
      rw [linkReads, tableGranted_add _ 0]
      simp only [mapLoop, stepCluster]
      by_cases hg1 : TableGranted v (nextReads v fnp.cluster)
      · rw [hgranted hg1]
        dsimp only
        rw [if_neg (not_le.mpr hnext.1), if_neg hnext.2, if_neg (not_not_intro rfl)]
        have ih := @ih (spend v (nextReads v fnp.cluster) 0)
          (fnp.to (next v fnp.cluster) (fnp.clusterOffset + 1)) ((follow_spend _ _ _ _ _).trans h)
        rw [linkReads_spend, spend_spend] at ih
        refine ⟨fun hg => ?_, fun hg => ih.2 fun h' => hg ⟨hg1, h'⟩⟩
        have heq := ih.1 hg.2
        rw [show (fnp.to (next v fnp.cluster) (fnp.clusterOffset + 1)).clusterOffset + n =
          fnp.clusterOffset + (n + 1) from Nat.succ_add_eq_add_succ _ _] at heq
        exact heq
      · refine ⟨fun hg => absurd hg.1 hg1, fun _ => ?_⟩
        rw [if_pos (hfailed hg1), if_pos hseek]
        exact hseek

/-! ## Reading an entry -/

theorem chainIndex_mono (d : Dpb) {m n : ℕ} (h : m ≤ n) : chainIndex d m ≤ chainIndex d n := by
  rw [chainIndex, chainIndex, Nat.shiftRight_eq_div_pow, Nat.shiftRight_eq_div_pow]
  exact Nat.div_le_div_right (Nat.div_le_div_right (Nat.mul_le_mul_right 32 h))

/-- The fnode is one of the directory, and its cluster is not behind the one of its entry. -/
structure Ahead (v : Volume) (dir : ℕ) (fnp : FNode) : Prop where
  stands : Stands v dir fnp
  offset : dir ≠ 0 → fnp.clusterOffset ≤ chainIndex v.dpb fnp.dmEntry

/-- How many accesses to the table it takes to get to entry `n` from where the fnode is. -/
def tableReads (v : Volume) (dir : ℕ) (fnp : FNode) (n : ℕ) : ℕ :=
  if dir = 0 then 0 else linkReads v (chainIndex v.dpb n - fnp.clusterOffset) fnp.cluster

theorem tableReads_spend (v : Volume) (a b dir : ℕ) (fnp : FNode) (n : ℕ) :
    tableReads (spend v a b) dir fnp n = tableReads v dir fnp n := by
  rw [tableReads, tableReads, linkReads_spend]
  rfl

/-- An entry on the way divides what a later one takes. -/
theorem tableReads_add (h : Ahead v dir fnp) {fnp' : FNode} (h' : Stands v dir fnp')
    (hoffset : dir ≠ 0 → fnp'.clusterOffset = chainIndex v.dpb fnp.dmEntry) {n : ℕ}
    (hn : fnp.dmEntry ≤ n) :
    tableReads v dir fnp n = tableReads v dir fnp fnp.dmEntry + tableReads v dir fnp' n := by
  rw [tableReads, tableReads, tableReads]
  by_cases h0 : dir = 0
  · simp only [if_pos h0]
  · have hmono := chainIndex_mono v.dpb hn
    have hle := h.offset h0
    have hfollow := h'.cluster h0
    rw [hoffset h0, show chainIndex v.dpb fnp.dmEntry = fnp.clusterOffset +
      (chainIndex v.dpb fnp.dmEntry - fnp.clusterOffset) by omega, follow_add,
      h.stands.cluster h0] at hfollow
    simp only [if_neg h0]
    rw [hoffset h0, show chainIndex v.dpb n - fnp.clusterOffset =
      chainIndex v.dpb fnp.dmEntry - fnp.clusterOffset +
        (chainIndex v.dpb n - chainIndex v.dpb fnp.dmEntry) by omega]
    exact linkReads_add v _ _ hfollow

theorem readEntry_spend (v : Volume) (fnp : FNode) :
    (Granted v 1 → 0 ≤ (readEntry v fnp).1 ∧ (readEntry v fnp).2.2 = spend v 0 1) ∧
      (¬ Granted v 1 → (readEntry v fnp).1 < 0) ∧
      (readEntry v fnp).2.1.clusterOffset = fnp.clusterOffset := by
  obtain ⟨hvol, hok⟩ := access_spend v
  rw [readEntry]
  dsimp only
  split
  · rename_i h
    refine ⟨fun hg => ?_, fun _ => show deBlkInvld < 0 by decide, rfl⟩
    rw [hok.mpr hg] at h
    exact absurd h Bool.false_ne_true
  · rename_i h
    rw [Bool.not_eq_true, Option.isSome_eq_false_iff, Option.isNone_iff_eq_none] at h
    refine ⟨fun _ => ⟨?_, hvol⟩, fun hg => absurd (hok.mp h) hg, rfl⟩
    dsimp only
    split <;> decide

/-- `map_cluster` goes on from where the fnode is, since the entry is not in front of it. -/
theorem mapCluster_ahead (h : Ahead v dir fnp) (hdir : dir ≠ 0) :
    mapCluster v (fnp.seek (fnp.dmEntry * 32)) .read =
      mapLoop .read (chainIndex v.dpb fnp.dmEntry - fnp.clusterOffset)
        (fnp.seek (fnp.dmEntry * 32)) v := by
  have hrewind : (fnp.seek (fnp.dmEntry * 32)).rewind v.dpb = fnp.seek (fnp.dmEntry * 32) :=
    if_neg (not_lt.mpr (h.offset hdir))
  have hne : (fnp.seek (fnp.dmEntry * 32)).cluster ≠ free :=
    follow_ne_free hdir (h.stands.cluster hdir)
  rw [mapCluster, if_neg hne, seekCluster, hrewind]
  rfl

/-- `dir_read` where there is an entry. -/
theorem dirRead_spend (h : Ahead v dir fnp) (hn : fnp.dmEntry < 65535) {place : ℕ × ℕ}
    (hslot : slot v dir fnp.dmEntry = some place) :
    (TableGranted v (tableReads v dir fnp fnp.dmEntry) ∧ Granted v 1 →
      0 ≤ (dirRead v fnp).1 ∧
        (dirRead v fnp).2.2 = spend v (tableReads v dir fnp fnp.dmEntry) 1 ∧
        (dir ≠ 0 → (dirRead v fnp).2.1.clusterOffset = chainIndex v.dpb fnp.dmEntry)) ∧
      (¬ (TableGranted v (tableReads v dir fnp fnp.dmEntry) ∧ Granted v 1) →
        (dirRead v fnp).1 < 0) := by
  have hmap := mapCluster_ahead h
  obtain ⟨⟨-, rfl, hcl⟩, hle⟩ := h
  rw [dirRead, if_neg (not_le.mpr hn), tableReads]
  rw [slot] at hslot
  by_cases hdir : fnp.dmDircluster = 0
  · rw [if_pos hdir] at hslot ⊢
    split at hslot
    swap
    · cases hslot
    rename_i hroot
    rw [if_pos hdir, if_neg (not_le.mpr hroot)]
    obtain ⟨hg, hf, -⟩ := readEntry_spend v
      { fnp with dirsector := fnp.dmEntry / perSector v.dpb + v.dpb.dirstrt }
    have hzero : TableGranted v 0 := fun ok hok => absurd hok List.not_mem_nil
    exact ⟨fun h => ⟨(hg h.2).1, (hg h.2).2, fun h0 => absurd hdir h0⟩,
      fun h => hf fun h' => h ⟨hzero, h'⟩⟩
  · have hcl := hcl hdir
    have hle := hle hdir
    rw [if_neg hdir] at hslot ⊢
    obtain ⟨c', hfollow, -⟩ := Option.map_eq_some_iff.mp hslot
    rw [show chainIndex v.dpb fnp.dmEntry =
      fnp.clusterOffset + (chainIndex v.dpb fnp.dmEntry - fnp.clusterOffset) by omega, follow_add,
      hcl] at hfollow
    obtain ⟨hgranted, hfailed⟩ := @mapLoop_spend v (fnp.seek (fnp.dmEntry * 32)) _ _ hfollow
    rw [if_neg hdir]
    dsimp only
    rw [hmap hdir]
    by_cases ht : TableGranted v
      (linkReads v (chainIndex v.dpb fnp.dmEntry - fnp.clusterOffset) fnp.cluster)
    · have heq := hgranted ht
      rw [heq]
      dsimp only
      rw [if_neg (not_not_intro rfl)]
      obtain ⟨hread, hfail, hoffset⟩ := readEntry_spend (spend v (linkReads v
        (chainIndex v.dpb fnp.dmEntry - fnp.clusterOffset) fnp.cluster) 0) _
      exact ⟨fun hg => ⟨(hread hg.2).1, (hread hg.2).2.trans (spend_spend _ _ _ _ _),
          fun _ => hoffset.trans (Nat.add_sub_cancel' hle)⟩,
        fun hg => hfail fun h => hg ⟨ht, h⟩⟩
    · refine ⟨fun hg => absurd hg.1 ht, fun _ => ?_⟩
      rw [if_pos (hfailed ht)]
      exact show deSeek < 0 by decide

theorem mapLoop_offset (n : ℕ) (v : Volume) (fnp : FNode) :
    (mapLoop .read n fnp v).2.1.clusterOffset ≤ fnp.clusterOffset + n := by
  induction n generalizing v fnp with
  | zero => exact le_refl _
  | succ n ih =>
    have hstep : (stepCluster v fnp .read).2.1.clusterOffset ≤ fnp.clusterOffset + 1 := by
      rw [stepCluster]
      dsimp only
      split
      · exact Nat.le_succ _
      · split
        · exact Nat.le_succ _
        · exact le_refl _
    have hrest := ih (stepCluster v fnp .read).2.2 (stepCluster v fnp .read).2.1
    rw [mapLoop]
    split <;> omega

/-- Whatever `dir_read` comes to, the fnode may go on to the next entry. -/
theorem dirRead_ahead (h : Ahead v dir fnp) {fnp' : FNode}
    (hfnp' : { (dirRead v fnp).2.1 with dmEntry := (dirRead v fnp).2.1.dmEntry + 1 } = fnp') :
    Ahead (dirRead v fnp).2.2 dir fnp' ∧ fnp'.dmEntry = fnp.dmEntry + 1 := by
  have hread := dirRead_spec h.stands
  obtain ⟨hstands, hentry, -⟩ := hread.advance
  have hentry' : fnp'.dmEntry = fnp.dmEntry + 1 := by
    rw [← hfnp']
    exact congrArg (· + 1) hentry
  refine ⟨⟨hfnp' ▸ hstands, fun h0 => ?_⟩, hentry'⟩
  have hle : (dirRead v fnp).2.1.clusterOffset ≤ chainIndex v.dpb fnp.dmEntry := by
    have hle := h.offset h0
    have hmap : (mapCluster v (fnp.seek (fnp.dmEntry * 32)) .read).2.1.clusterOffset ≤
        chainIndex v.dpb fnp.dmEntry := by
      rw [mapCluster_ahead h h0]
      exact (mapLoop_offset _ _ _).trans (Nat.add_sub_cancel' hle).le
    obtain ⟨-, rfl, -⟩ := h.stands
    rw [dirRead]
    split
    · exact hle
    · dsimp only
      split
      · exact hmap
      · exact (readEntry_spend _ _).2.2.trans_le hmap
  rw [hread.readOnly.dpb, hentry', ← hfnp']
  exact hle.trans (chainIndex_mono v.dpb (Nat.le_succ _))

/-! ## Searching -/

/-- A search that starts at the entry of the fnode can get to entry `n`: the entry is there, the
search does not end in front of it, and the accesses that it takes succeed. -/
structure Reached (v : Volume) (dir : ℕ) (fnp : FNode) (n : ℕ) (e : Dirent) : Prop where
  from_le : fnp.dmEntry ≤ n
  lt : n < 65535
  dirent : dirent v dir n = some e
  used : firstOf e.name ≠ 0
  passed : ∀ k, fnp.dmEntry ≤ k → k < n → Passable v dir k
  table : TableGranted v (tableReads v dir fnp n)
  sectors : Granted v (n + 1 - fnp.dmEntry)

/-- What is on the way is reached too. -/
theorem Reached.first {n : ℕ} {e : Dirent} (h : Reached v dir fnp n e) :
    ∃ e', Reached v dir fnp fnp.dmEntry e' := by
  rcases Nat.eq_or_lt_of_le h.from_le with rfl | hlt
  · exact ⟨e, h⟩
  · obtain ⟨e', hdirent, hused⟩ := h.passed fnp.dmEntry (le_refl _) hlt
    refine ⟨e', le_refl _, hlt.trans h.lt, hdirent, hused,
      fun k h1 h2 => absurd h2 (not_lt.mpr h1), h.table.of_le ?_, h.sectors.of_le (by omega)⟩
    rw [tableReads, tableReads]
    split
    · exact le_refl _
    · exact linkReads_mono v (Nat.sub_le_sub_right (chainIndex_mono v.dpb hlt.le) _) _

/-- The first entry is reached if it is read. -/
theorem reached_first_iff (h : Ahead v dir fnp) {e : Dirent} :
    Reached v dir fnp fnp.dmEntry e ↔ 0 < (dirRead v fnp).1 ∧ (dirRead v fnp).2.1.dir = e := by
  have hread := dirRead_spec h.stands
  have hspend := fun hn {place} => @dirRead_spend v fnp dir h hn place
  generalize dirRead v fnp = r at hread hspend ⊢
  constructor
  · rintro ⟨-, hlt, hdirent, hused, -, htable, hsectors⟩
    obtain ⟨place, hslot, rfl⟩ := Option.map_eq_some_iff.mp hdirent
    rw [Nat.add_sub_cancel_left] at hsectors
    have hle := ((hspend hlt hslot).1 ⟨htable, hsectors⟩).1
    obtain ⟨place', -, hslot', hat, hrc⟩ | ⟨hrc, -⟩ := hread.result
    · obtain rfl := Option.some.inj (hslot.symm.trans hslot')
      rw [if_pos hused] at hrc
      exact ⟨by omega, hat.dir⟩
    · omega
  · rintro ⟨hpos, rfl⟩
    obtain ⟨place, hlt, hslot, hat, hrc⟩ | ⟨hrc, -⟩ := hread.result
    · have hgranted := not_imp_comm.mp (hspend hlt hslot).2 (by omega)
      refine ⟨le_refl _, hlt, ?_, fun hzero => ?_, fun k h1 h2 => absurd h2 (not_lt.mpr h1),
        hgranted.1, ?_⟩
      · rw [dirent, hslot, hat.dir]
        rfl
      · rw [← hat.dir, if_neg (not_not_intro hzero)] at hrc
        omega
      · rw [Nat.add_sub_cancel_left]
        exact hgranted.2
    · omega

/-- The other ones are reached if the next turn reaches them. -/
theorem reached_next_iff (h : Ahead v dir fnp) {e : Dirent}
    (hfirst : Reached v dir fnp fnp.dmEntry e) {fnp' : FNode}
    (hfnp' : { (dirRead v fnp).2.1 with dmEntry := (dirRead v fnp).2.1.dmEntry + 1 } = fnp') :
    Ahead (dirRead v fnp).2.2 dir fnp' ∧ fnp'.dmEntry = fnp.dmEntry + 1 ∧
      ∀ n e', fnp.dmEntry < n →
        (Reached v dir fnp n e' ↔ Reached (dirRead v fnp).2.2 dir fnp' n e') := by
  obtain ⟨hstands, hentry, -⟩ := (dirRead_spec h.stands).advance
  obtain ⟨place, hslot, -⟩ := Option.map_eq_some_iff.mp hfirst.dirent
  have hone : Granted v 1 := by
    have hsectors := hfirst.sectors
    rwa [Nat.add_sub_cancel_left] at hsectors
  obtain ⟨-, hvol, hoffset⟩ := (dirRead_spend h hfirst.lt hslot).1 ⟨hfirst.table, hone⟩
  generalize htake : tableReads v dir fnp fnp.dmEntry = t at hvol
  rw [hvol, hfnp'] at hstands
  have hentry' : fnp'.dmEntry = fnp.dmEntry + 1 := by
    rw [← hfnp']
    exact congrArg (· + 1) hentry
  have hoffset' : dir ≠ 0 → fnp'.clusterOffset = chainIndex v.dpb fnp.dmEntry := by
    rw [← hfnp']
    exact hoffset
  rw [hvol]
  refine ⟨⟨hstands, fun h0 => ?_⟩, hentry', fun n e' hlt => ?_⟩
  · rw [hoffset' h0, hentry']
    exact chainIndex_mono v.dpb (Nat.le_succ _)
  · have htable : tableReads v dir fnp n = t + tableReads (spend v t 1) dir fnp' n := by
      rw [← htake, tableReads_spend]
      exact tableReads_add h (hstands.congr rfl rfl) hoffset' hlt.le
    have hsectors : n + 1 - fnp.dmEntry = 1 + (n + 1 - fnp'.dmEntry) := by omega
    have hpassable : Passable v dir fnp.dmEntry := ⟨e, hfirst.dirent, hfirst.used⟩
    have hsame : ∀ k, Passable (spend v t 1) dir k ↔ Passable v dir k := fun k => by
      rw [Passable, Passable, dirent_spend]
    constructor
    · rintro ⟨-, h1, h2, h3, h4, h5, h6⟩
      rw [htable, tableGranted_add t 1] at h5
      rw [hsectors, granted_add t 1] at h6
      exact ⟨by omega, h1, (dirent_spend _ _ _ _ _).trans h2, h3,
        fun k hk hkn => (hsame k).mpr (h4 k (by omega) hkn), h5.2, h6.2⟩
    · rintro ⟨-, h1, h2, h3, h4, h5, h6⟩
      refine ⟨hlt.le, h1, (dirent_spend _ _ _ _ _).symm.trans h2, h3, fun k hk hkn => ?_, ?_, ?_⟩
      · rcases Nat.eq_or_lt_of_le hk with rfl | hk
        · exact hpassable
        · exact (hsame k).mp (h4 k (by omega) hkn)
      · rw [htable, tableGranted_add t 1]
        exact ⟨htake ▸ hfirst.table, h5⟩
      · rw [hsectors, granted_add t 1]
        exact ⟨hone, h6⟩

/-- **A search finds an entry** exactly if it can reach one that meets `stop`. -/
theorem searchLoop_found_iff (stop : Dirent → Bool) (n : ℕ) (h : Ahead v dir fnp)
    (hn : 65536 ≤ n + fnp.dmEntry) : (searchLoop stop n v fnp).1 = 1 ↔
      ∃ m e, Reached v dir fnp m e ∧ stop e = true := by
  induction n generalizing v fnp with
  | zero =>
    refine iff_of_false (show (deSeek : ℤ) ≠ 1 by decide) ?_
    rintro ⟨m, e, hm, -⟩
    have := hm.from_le
    have := hm.lt
    omega
  | succ n ih =>
    have hfirst := fun e => reached_first_iff h (e := e)
    have hcode := (dirRead_spec h.stands).result
    rw [searchLoop]
    dsimp only
    by_cases hpos : 0 < (dirRead v fnp).1
    · have hone : (dirRead v fnp).1 = 1 := by
        rcases hcode with ⟨place, -, -, -, hrc⟩ | ⟨hrc, -⟩
        · split at hrc <;> omega
        · omega
      have hreached := (hfirst _).mpr ⟨hpos, rfl⟩
      rw [if_neg (not_not_intro hone)]
      by_cases hstop : stop (dirRead v fnp).2.1.dir = true
      · rw [if_pos hstop]
        exact iff_of_true hone ⟨_, _, hreached, hstop⟩
      · obtain ⟨hahead, hentry, hiff⟩ := reached_next_iff h hreached rfl
        rw [if_neg hstop, ih hahead (by rw [hentry]; omega)]
        refine exists_congr fun m => exists_congr fun e => and_congr_left fun he => ?_
        rcases Nat.lt_trichotomy m fnp.dmEntry with hlt | rfl | hlt
        · exact iff_of_false (fun h' => by have := h'.from_le; omega)
            fun h' => absurd h'.from_le (not_le.mpr hlt)
        · refine iff_of_false (fun h' => by have := h'.from_le; omega) fun h' => hstop ?_
          rw [((hfirst e).mp h').2]
          exact he
        · exact (hiff m e hlt).symm
    · rw [if_pos (by omega)]
      refine iff_of_false (by omega) ?_
      rintro ⟨m, e, hm, -⟩
      obtain ⟨e', he'⟩ := hm.first
      exact hpos ((hfirst e').mp he').1

theorem search_found_iff (stop : Dirent → Bool) (h : Ahead v dir fnp) :
    (search stop v fnp).1 = 1 ↔ ∃ n e, Reached v dir fnp n e ∧ stop e = true :=
  searchLoop_found_iff stop _ h (by omega)

end Dir
end BurdahDos
