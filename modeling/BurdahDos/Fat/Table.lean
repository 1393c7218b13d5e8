import BurdahDos.Fat.Defs
import BurdahDos.Lib.Chained
import Mathlib

/-!
# What the functions on the table do

Here accesses to the table succeed (`Volume.Ok`).  Then reading gives `Volume.entry`, writing
changes one value of that map, and each function has one lemma that says what it returns and what
the map is afterwards.  A chain of the volume is a `Chained` list of different clusters.
-/

set_option autoImplicit false

namespace BurdahDos
namespace Fat

/-! ## Geometry -/

/-- The cluster is one of the volume. -/
def Dpb.Has (d : Dpb) (c : ℕ) : Prop := 2 ≤ c ∧ c ≤ d.maxCluster

instance (d : Dpb) (c : ℕ) : Decidable (d.Has c) := inferInstanceAs (Decidable (_ ∧ _))

/-- The start of the data area. -/
def Dpb.dataStart (d : Dpb) : ℕ := if d.isFat32 then d.xdata else d.data

/-- Sectors per cluster. -/
def Dpb.clusterSectors (d : Dpb) : ℕ := 2 ^ d.shftcnt

/-- Bytes per cluster. -/
def Dpb.clusterSize (d : Dpb) : ℕ := d.secsize * d.clusterSectors

/-- The DPB is that of a FAT12, FAT16 or FAT32 volume. -/
structure Dpb.Ok (d : Dpb) : Prop where
  kind : d.isFat12 = true ∨ d.isFat16 = true ∨ d.isFat32 = true
  fat32 : d.isFat32 = true → d.size = 0 ∧ d.xsize < longBad
  sectors : ∃ k, 5 ≤ k ∧ k ≤ 9 ∧ d.secsize = 2 ^ k
  mask : d.clsmask + 1 = 2 ^ d.shftcnt
  shift : d.shftcnt ≤ 7
  fits : d.dataStart + (d.maxCluster - 1) * d.clusterSectors ≤ 2 ^ 32
  hint : d.hint = unknCluster ∨ d.Has d.hint

/-- The DPB has one of the three kinds of tables. -/
structure Dpb.Typed (d : Dpb) : Prop where
  kind : d.isFat12 = true ∨ d.isFat16 = true ∨ d.isFat32 = true
  fat32 : d.isFat32 = true → d.size = 0 ∧ d.xsize < longBad

theorem Dpb.Ok.typed {d : Dpb} (hok : d.Ok) : d.Typed := ⟨hok.kind, hok.fat32⟩

/-- The two differ at most in where to look for a free cluster, and how many there are. -/
def Dpb.Same (d d' : Dpb) : Prop :=
  ∃ cluster xcluster xnfreeclst,
    d' = { d with cluster := cluster, xcluster := xcluster, xnfreeclst := xnfreeclst }

theorem Dpb.Same.refl (d : Dpb) : d.Same d := ⟨d.cluster, d.xcluster, d.xnfreeclst, rfl⟩

theorem Dpb.Same.symm {d d' : Dpb} (h : d.Same d') : d'.Same d := by
  obtain ⟨_, _, _, rfl⟩ := h
  exact ⟨d.cluster, d.xcluster, d.xnfreeclst, rfl⟩

theorem Dpb.Same.trans {d d' d'' : Dpb} (h : d.Same d') (h' : d'.Same d'') : d.Same d'' := by
  obtain ⟨_, _, _, rfl⟩ := h
  obtain ⟨a, b, c, rfl⟩ := h'
  exact ⟨a, b, c, rfl⟩

section
variable {d d' : Dpb} (h : d.Same d')
include h

theorem Dpb.Same.has (c : ℕ) : d'.Has c ↔ d.Has c := by obtain ⟨_, _, _, rfl⟩ := h; rfl

theorem Dpb.Same.decode (raw : ℕ) : d'.decode raw = d.decode raw := by
  obtain ⟨_, _, _, rfl⟩ := h; rfl

theorem Dpb.Same.clus2phys (c : ℕ) : d'.clus2phys c = d.clus2phys c := by
  obtain ⟨_, _, _, rfl⟩ := h; rfl

theorem Dpb.Same.secsize : d'.secsize = d.secsize := by obtain ⟨_, _, _, rfl⟩ := h; rfl

theorem Dpb.Same.clusterSize : d'.clusterSize = d.clusterSize := by obtain ⟨_, _, _, rfl⟩ := h; rfl

theorem Dpb.Same.clusterSectors : d'.clusterSectors = d.clusterSectors := by
  obtain ⟨_, _, _, rfl⟩ := h; rfl

theorem Dpb.Same.isFat32 : d'.isFat32 = d.isFat32 := by obtain ⟨_, _, _, rfl⟩ := h; rfl

theorem Dpb.Same.maxCluster : d'.maxCluster = d.maxCluster := by obtain ⟨_, _, _, rfl⟩ := h; rfl

theorem Dpb.Same.typed (ht : d.Typed) : d'.Typed := by
  obtain ⟨_, _, _, rfl⟩ := h; exact ⟨ht.kind, ht.fat32⟩

theorem Dpb.Same.ok (hok : d.Ok) (hhint : d'.hint = unknCluster ∨ d.Has d'.hint) : d'.Ok := by
  obtain ⟨_, _, _, rfl⟩ := h
  exact ⟨hok.kind, hok.fat32, hok.sectors, hok.mask, hok.shift, hok.fits, hhint⟩

end

namespace Dpb
variable {d : Dpb}

/-- The three kinds of volumes, and the bound each puts on cluster numbers. -/
theorem Typed.kinds (hok : d.Typed) :
    (d.isFat12 = true ∧ d.maxCluster ≤ fatMagic) ∨
      (d.isFat12 = false ∧ d.isFat16 = true ∧ d.maxCluster ≤ fatMagic16) ∨
      (d.isFat12 = false ∧ d.isFat16 = false ∧ d.isFat32 = true ∧ d.maxCluster < longBad) := by
  cases h32 : d.isFat32 with
  | true =>
    obtain ⟨hsize, hmax⟩ := hok.fat32 h32
    refine Or.inr (Or.inr ⟨?_, ?_, rfl, ?_⟩)
    · simp [isFat12, hsize]
    · simp [isFat16, hsize]
    · rwa [maxCluster, if_pos h32]
  | false =>
    have hmax : d.maxCluster = d.size := by simp [maxCluster, h32]
    rw [hmax]
    cases h12 : d.isFat12 with
    | true =>
      simp only [isFat12, Bool.and_eq_true, decide_eq_true_eq] at h12
      exact Or.inl ⟨rfl, h12.2⟩
    | false =>
      have h16 : d.isFat16 = true := by simpa [h12, h32] using hok.kind
      have := h16
      simp only [isFat16, Bool.and_eq_true, decide_eq_true_eq] at this
      exact Or.inr (Or.inl ⟨rfl, h16, this.2⟩)

theorem Ok.kinds (hok : d.Ok) :
    (d.isFat12 = true ∧ d.maxCluster ≤ fatMagic) ∨
      (d.isFat12 = false ∧ d.isFat16 = true ∧ d.maxCluster ≤ fatMagic16) ∨
      (d.isFat12 = false ∧ d.isFat16 = false ∧ d.isFat32 = true ∧ d.maxCluster < longBad) :=
  hok.typed.kinds

/-- A cluster number is below the special values. -/
theorem Typed.has_lt (hok : d.Typed) {c : ℕ} (hc : d.Has c) : c < longBad := by
  have := hc.2
  rcases hok.kinds with ⟨-, h⟩ | ⟨-, -, h⟩ | ⟨-, -, -, h⟩ <;>
    simp only [fatMagic, fatMagic16, longBad] at * <;> omega

theorem Ok.has_lt (hok : d.Ok) {c : ℕ} (hc : d.Has c) : c < longBad := hok.typed.has_lt hc

/-- What may be put in the table is read back. -/
theorem Typed.decode_encode (hok : d.Typed) {c : ℕ} (hc : c = free ∨ c = longLastCluster ∨ d.Has c) :
    d.decode (d.encode c) = c := by
  rcases hok.kinds with ⟨h, hmax⟩ | ⟨h, h', hmax⟩ | ⟨h, h', h'', hmax⟩
  · simp only [decode, encode, h, if_true]
    rcases hc with rfl | rfl | hc
    · rfl
    · rfl
    · have hlt : c < bad12 := Nat.lt_of_le_of_lt (hc.2.trans hmax) (by decide)
      rw [Nat.mod_eq_of_lt (hlt.trans (by decide)),
        if_neg (Nat.not_le.mpr (hlt.trans (by decide))), if_neg hlt.ne]
  · simp only [decode, encode, h, h', if_true, Bool.false_eq_true, if_false]
    rcases hc with rfl | rfl | hc
    · rfl
    · rfl
    · have hlt : c < bad16 := Nat.lt_of_le_of_lt (hc.2.trans hmax) (by decide)
      rw [Nat.mod_eq_of_lt (hlt.trans (by decide)),
        if_neg (Nat.not_le.mpr (hlt.trans (by decide))), if_neg hlt.ne]
  · simp only [decode, encode, h, h', h'', if_true, Bool.false_eq_true, if_false]
    rcases hc with rfl | rfl | hc
    · rfl
    · rfl
    · have hlt : c < longBad := Nat.lt_of_le_of_lt hc.2 hmax
      rw [Nat.mod_eq_of_lt (hlt.trans (by decide)), if_neg (Nat.not_lt.mpr hlt.le)]

theorem same_setHint (d : Dpb) (c : ℕ) : d.Same (d.setHint c) := by
  rw [setHint]
  split
  · exact ⟨d.cluster, c, d.xnfreeclst, rfl⟩
  · exact ⟨c % 65536, d.xcluster, d.xnfreeclst, rfl⟩

theorem same_adjustFree (d : Dpb) (wasfree : Bool) (c : ℕ) :
    d.Same (d.adjustFree wasfree c) ∧ (d.adjustFree wasfree c).hint = d.hint := by
  simp only [adjustFree]
  split
  · split
    · exact ⟨⟨d.cluster, d.xcluster, _, rfl⟩, rfl⟩
    · split
      · exact ⟨⟨d.cluster, d.xcluster, _, rfl⟩, rfl⟩
      · exact ⟨Same.refl d, rfl⟩
  · exact ⟨Same.refl d, rfl⟩

theorem Typed.setHint_hint (hok : d.Typed) {c : ℕ} (hc : c = unknCluster ∨ d.Has c) :
    (d.setHint c).hint = c := by
  rw [setHint]
  split
  · rename_i h32
    exact if_pos h32
  · rename_i h32
    have hlt : c < 65536 := by
      rcases hc with rfl | hc
      · decide
      · have := hc.2
        rcases hok.kinds with ⟨-, h⟩ | ⟨-, -, h⟩ | ⟨-, -, h, -⟩
        · simp only [fatMagic] at h; omega
        · simp only [fatMagic16] at h; omega
        · exact absurd h h32
    exact (if_neg h32).trans (Nat.mod_eq_of_lt hlt)

theorem Ok.setHint (hok : d.Ok) {c : ℕ} (hc : c = unknCluster ∨ d.Has c) : (d.setHint c).Ok := by
  refine (same_setHint d c).ok hok ?_
  rwa [hok.typed.setHint_hint hc]

theorem Ok.adjustFree (hok : d.Ok) (wasfree : Bool) (c : ℕ) : (d.adjustFree wasfree c).Ok := by
  obtain ⟨hsame, hhint⟩ := same_adjustFree d wasfree c
  refine hsame.ok hok ?_
  rw [hhint]
  exact hok.hint

end Dpb

/-! ## Reading and writing entries -/

/-- The volume is one of the three kinds, and its table can be accessed. -/
structure Volume.Ok (v : Volume) : Prop where
  dpb : v.dpb.Ok
  sound : v.fatOutcomes = []

/-- The table can be read. -/
structure Volume.Readable (v : Volume) : Prop where
  dpb : v.dpb.Typed
  sound : v.fatOutcomes = []

theorem Volume.Ok.readable {v : Volume} (h : v.Ok) : v.Readable := ⟨h.dpb.typed, h.sound⟩

/-- What a function may change of the table: entries, but not those for which `keep` holds. -/
structure Kept (keep : ℕ → Prop) (v v' : Volume) : Prop where
  ok : v'.Ok
  same : v.dpb.Same v'.dpb
  entry : ∀ c, keep c → v'.entry c = v.entry c

theorem Kept.refl {v : Volume} (h : v.Ok) (keep : ℕ → Prop) : Kept keep v v :=
  ⟨h, Dpb.Same.refl _, fun _ _ => rfl⟩

theorem Kept.trans {keep : ℕ → Prop} {v v' v'' : Volume} (h : Kept keep v v')
    (h' : Kept keep v' v'') : Kept keep v v'' :=
  ⟨h'.ok, h.same.trans h'.same, fun c hc => (h'.entry c hc).trans (h.entry c hc)⟩

theorem Kept.mono {keep keep' : ℕ → Prop} {v v' : Volume} (h : Kept keep v v')
    (hk : ∀ c, keep' c → keep c) : Kept keep' v v' :=
  ⟨h.ok, h.same, fun c hc => h.entry c (hk c hc)⟩

variable {v : Volume}

theorem getFATblock_ok (h : v.Readable) : v.getFATblock = (true, v) := by
  rw [Volume.getFATblock, h.sound]

theorem linkFat_read (h : v.Readable) {c : ℕ} (hc : v.dpb.Has c) :
    linkFat v c readCluster = (v.entry c, v) := by
  have hr : ¬ (c ≤ 1 ∨ c > v.dpb.maxCluster) := by have := hc.1; have := hc.2; omega
  have h2 : ¬ (readCluster < longBad ∧ readCluster > v.dpb.maxCluster) := by
    have := hc.1; have := hc.2
    rw [readCluster]
    omega
  rw [linkFat, if_neg hr, if_neg h2]
  rcases h.dpb.kind with hk | hk | hk <;> simp [getFATblock_ok h, hk]

theorem linkFat_out {c c' : ℕ} (hc : ¬ v.dpb.Has c) : linkFat v c c' = (1, v) := by
  have hr : c ≤ 1 ∨ c > v.dpb.maxCluster := by
    by_contra hr
    exact hc ⟨by omega, by omega⟩
  rw [linkFat, if_pos hr]

theorem setEntry_entry (h : v.dpb.Ok) (c : ℕ) {c' : ℕ}
    (hc' : c' = free ∨ c' = longLastCluster ∨ v.dpb.Has c') :
    (v.setEntry c c').entry = Function.update v.entry c c' := by
  obtain ⟨hsame, -⟩ := Dpb.same_adjustFree v.dpb (v.fat c == free) c'
  funext d
  rw [Volume.entry, Volume.setEntry, hsame.decode]
  rcases eq_or_ne d c with rfl | hne
  · simp only [Function.update_self]
    exact h.typed.decode_encode hc'
  · simp only [Function.update_of_ne hne]
    rfl

/-- An entry of the volume is written. -/
theorem linkFat_setEntry (h : v.Readable) {c c' : ℕ} (hc : v.dpb.Has c)
    (hc' : c' = free ∨ c' = longLastCluster ∨ v.dpb.Has c') :
    linkFat v c c' = (0, v.setEntry c c') := by
  have hr : ¬ (c ≤ 1 ∨ c > v.dpb.maxCluster) := by have := hc.1; have := hc.2; omega
  have h2 : ¬ (c' < longBad ∧ c' > v.dpb.maxCluster) := by
    rintro ⟨hlt, hgt⟩
    rcases hc' with rfl | rfl | hc'
    · exact absurd hgt (Nat.not_lt_zero _)
    · exact absurd hlt (by decide)
    · exact absurd hc'.2 (Nat.not_le.mpr hgt)
  have h1 : c' ≠ readCluster := by
    rcases hc' with rfl | rfl | hc'
    · decide
    · decide
    · exact (Nat.lt_of_lt_of_le Nat.one_lt_two hc'.1).ne'
  rw [linkFat, if_neg hr, if_neg h2]
  rcases h.dpb.kind with hk | hk | hk <;> simp [getFATblock_ok h, hk, h1]

/-- **Writing an entry** changes what is read there, and nothing else. -/
theorem linkFat_write (h : v.Ok) {c c' : ℕ} (hc : v.dpb.Has c)
    (hc' : c' = free ∨ c' = longLastCluster ∨ v.dpb.Has c') :
    ∃ v', linkFat v c c' = (0, v') ∧ Kept (· ≠ c) v v' ∧
      v'.entry = Function.update v.entry c c' ∧ v'.dpb.hint = v.dpb.hint := by
  refine ⟨v.setEntry c c', linkFat_setEntry h.readable hc hc', ?_⟩
  obtain ⟨hsame, hhint⟩ := Dpb.same_adjustFree v.dpb (v.fat c == free) c'
  have hentry := setEntry_entry h.dpb c hc'
  refine ⟨⟨⟨h.dpb.adjustFree _ _, h.sound⟩, hsame, fun d hd => ?_⟩, hentry, hhint⟩
  rw [hentry, Function.update_of_ne hd]

/-- An entry that is not an error, and leads to another such entry. -/
def Volume.Leads (v : Volume) (c : ℕ) : Prop :=
  v.entry c = longLastCluster ∨ v.dpb.Has (v.entry c) ∧
    (v.entry (v.entry c) = longLastCluster ∨ v.dpb.Has (v.entry (v.entry c)))

theorem nextCluster_leads (h : v.Readable) {c : ℕ} (hc : v.dpb.Has c) (hl : v.Leads c) :
    nextCluster v c = (v.entry c, v) := by
  simp only [nextCluster, linkFat_read h hc]
  rcases hl with hl | ⟨hhas, hl⟩
  · rw [if_pos]
    right
    rw [hl]
    decide
  · have hlt := h.dpb.has_lt hhas
    rw [if_neg (by have := hhas.1; omega), linkFat_read h hhas, if_neg]
    rcases hl with hl | hl
    · rw [hl]
      simp [longLastCluster, longBad]
    · have := hl.1; have := hl.2
      simp only
      omega

theorem isFreeCluster_ok (h : v.Readable) (c : ℕ) :
    (isFreeCluster v c).2 = v ∧
      ((isFreeCluster v c).1 = true ↔ v.dpb.Has c ∧ v.entry c = free) := by
  by_cases hc : v.dpb.Has c
  · simp [isFreeCluster, linkFat_read h hc, hc]
  · simp [isFreeCluster, linkFat_out hc, hc, free]

/-! ## Accesses that may fail -/

/-- An entry is read, or something is wrong. -/
theorem linkFat_readCases (v : Volume) (c : ℕ) :
    (linkFat v c readCluster).2.fat = v.fat ∧ (linkFat v c readCluster).2.dpb = v.dpb ∧
      ((linkFat v c readCluster).1 = 1 ∨
        v.dpb.Has c ∧ (linkFat v c readCluster).1 = v.entry c) := by
  have hblock : v.getFATblock.2.fat = v.fat ∧ v.getFATblock.2.dpb = v.dpb := by
    rw [Volume.getFATblock]
    split <;> exact ⟨rfl, rfl⟩
  simp only [linkFat]
  split
  · exact ⟨rfl, rfl, Or.inl rfl⟩
  · rename_i hc
    split
    · exact ⟨rfl, rfl, Or.inl rfl⟩
    · split
      · exact ⟨hblock.1, hblock.2, Or.inl rfl⟩
      · split
        · exact ⟨hblock.1, hblock.2, Or.inl rfl⟩
        · refine ⟨hblock.1, hblock.2, Or.inr ⟨⟨by omega, by omega⟩, ?_⟩⟩
          rw [if_pos trivial, Volume.entry, Volume.entry, hblock.1, hblock.2]

/-- The same for `next_cluster`. -/
theorem nextCluster_cases (v : Volume) (c : ℕ) :
    (nextCluster v c).2.fat = v.fat ∧ (nextCluster v c).2.dpb = v.dpb ∧
      ((nextCluster v c).1 = 1 ∨ v.dpb.Has c ∧ (nextCluster v c).1 = v.entry c) := by
  obtain ⟨hfat, hdpb, hread⟩ := linkFat_readCases v c
  simp only [nextCluster]
  generalize linkFat v c readCluster = candidate at hfat hdpb hread ⊢
  split
  · exact ⟨hfat, hdpb, hread⟩
  · obtain ⟨hfat', hdpb', -⟩ := linkFat_readCases candidate.2 candidate.1
    split
    · exact ⟨hfat'.trans hfat, hdpb'.trans hdpb, Or.inl rfl⟩
    · exact ⟨hfat'.trans hfat, hdpb'.trans hdpb, hread⟩

/-- An entry is written, or nothing changes. -/
theorem linkFat_writeCases (v : Volume) (c : ℕ) {c' : ℕ} (hc' : c' ≠ readCluster) :
    v.dpb.Same (linkFat v c c').2.dpb ∧ (linkFat v c c').2.dpb.hint = v.dpb.hint ∧
      ((linkFat v c c').1 = 1 ∧ (linkFat v c c').2.fat = v.fat ∨
        v.dpb.Has c ∧ (linkFat v c c').1 = 0 ∧
          (linkFat v c c').2.fat = Function.update v.fat c (v.dpb.encode c')) := by
  have hblock : v.getFATblock.2.fat = v.fat ∧ v.getFATblock.2.dpb = v.dpb := by
    rw [Volume.getFATblock]
    split <;> exact ⟨rfl, rfl⟩
  have hsame : v.dpb.Same v.getFATblock.2.dpb := by rw [hblock.2]; exact .refl _
  have hhint : v.getFATblock.2.dpb.hint = v.dpb.hint := by rw [hblock.2]
  simp only [linkFat, if_neg hc']
  split
  · exact ⟨.refl _, rfl, Or.inl ⟨rfl, rfl⟩⟩
  · rename_i hc
    split
    · exact ⟨.refl _, rfl, Or.inl ⟨rfl, rfl⟩⟩
    · split
      · exact ⟨hsame, hhint, Or.inl ⟨rfl, hblock.1⟩⟩
      · split
        · exact ⟨hsame, hhint, Or.inl ⟨rfl, hblock.1⟩⟩
        · have hadjust := Dpb.same_adjustFree v.getFATblock.2.dpb
            (v.getFATblock.2.fat c == free) c'
          refine ⟨hsame.trans hadjust.1, hadjust.2.trans hhint,
            Or.inr ⟨⟨by omega, by omega⟩, rfl, ?_⟩⟩
          rw [Volume.setEntry, hblock.1, hblock.2]

/-! ## The other sectors -/

/-- The sectors that are not of the table are as they were, and none was accessed. -/
def SameSectors (v v' : Volume) : Prop := v'.disk = v.disk ∧ v'.outcomes = v.outcomes

theorem SameSectors.refl (v : Volume) : SameSectors v v := ⟨rfl, rfl⟩

theorem SameSectors.trans {v v' v'' : Volume} (h : SameSectors v v') (h' : SameSectors v' v'') :
    SameSectors v v'' :=
  ⟨h'.1.trans h.1, h'.2.trans h.2⟩

theorem getFATblock_sectors (v : Volume) : SameSectors v v.getFATblock.2 := by
  rw [Volume.getFATblock]
  split <;> exact ⟨rfl, rfl⟩

theorem linkFat_sectors (v : Volume) (c c' : ℕ) : SameSectors v (linkFat v c c').2 := by
  simp only [linkFat]
  split
  · exact .refl v
  · split
    · exact .refl v
    · split
      · exact getFATblock_sectors v
      · split
        · exact getFATblock_sectors v
        · split
          · exact getFATblock_sectors v
          · exact (getFATblock_sectors v).trans ⟨rfl, rfl⟩

theorem nextCluster_sectors (v : Volume) (c : ℕ) : SameSectors v (nextCluster v c).2 := by
  have hfirst := linkFat_sectors v c readCluster
  simp only [nextCluster]
  split
  · exact hfirst
  · split <;> exact hfirst.trans (linkFat_sectors _ _ _)

theorem searchFree_sectors (size start n idx : ℕ) (v : Volume) :
    SameSectors v (searchFree size start n idx v).2 := by
  induction n generalizing idx v with
  | zero => exact .refl v
  | succ n ih =>
    have hread : SameSectors v (isFreeCluster v idx).2 := linkFat_sectors v idx readCluster
    simp only [searchFree]
    split
    · exact hread
    · split
      · exact hread
      · exact hread.trans (ih _ _)

theorem findFatFree_sectors (v : Volume) : SameSectors v (findFatFree v).2 := by
  simp only [findFatFree]
  split <;> exact (searchFree_sectors _ _ _ _ v).trans ⟨rfl, rfl⟩

theorem lowerHint_sectors (v : Volume) (st : ℕ) : SameSectors v (v.lowerHint st) := by
  rw [Volume.lowerHint]
  split_ifs <;> exact ⟨rfl, rfl⟩

theorem wipeLoop_sectors (n st : ℕ) (v : Volume) : SameSectors v (wipeLoop n st v) := by
  induction n generalizing st v with
  | zero => exact .refl v
  | succ n ih =>
    have hnext := nextCluster_sectors v st
    have hlink := hnext.trans (linkFat_sectors _ st free)
    simp only [wipeLoop]
    split
    · exact .refl v
    · split
      · exact hnext
      · split
        · exact hlink
        · exact (hlink.trans (lowerHint_sectors _ st)).trans (ih _ _)

/-! ## Searching for a free cluster -/

theorem searchFree_some (h : v.Readable) {size start n idx c : ℕ}
    (hc : (searchFree size start n idx v).1 = some c) : v.dpb.Has c ∧ v.entry c = free := by
  induction n generalizing idx with
  | zero => simp [searchFree] at hc
  | succ n ih =>
    obtain ⟨hv, hiff⟩ := isFreeCluster_ok h idx
    simp only [searchFree, hv] at hc
    split at hc
    · rename_i hfree
      obtain rfl : idx = c := by simpa using hc
      exact hiff.mp hfree
    · split at hc
      · simp at hc
      · exact ih hc

theorem searchFree_snd (h : v.Readable) (size start n idx : ℕ) :
    (searchFree size start n idx v).2 = v := by
  induction n generalizing idx with
  | zero => rfl
  | succ n ih =>
    have hv := (isFreeCluster_ok h idx).1
    simp only [searchFree, hv]
    split
    · rfl
    · split
      · rfl
      · exact ih _

/-- The second half of the search, from 2 up to where it began. -/
theorem searchFree_below (h : v.Readable) {size start n idx : ℕ} (hstart : start ≤ size)
    (hidx : idx < start) (hn : start - idx ≤ n)
    (hnone : (searchFree size start n idx v).1 = none) :
    ∀ c, idx ≤ c → c < start → v.dpb.Has c → v.entry c ≠ free := by
  induction n generalizing idx with
  | zero => omega
  | succ n ih =>
    obtain ⟨hv, hiff⟩ := isFreeCluster_ok h idx
    simp only [searchFree, hv] at hnone
    split at hnone
    · simp at hnone
    · rename_i hfree
      intro c hle hlt hhas hentry
      rcases hle.eq_or_lt with rfl | hle
      · exact hfree (hiff.mpr ⟨hhas, hentry⟩)
      · have hnext : nextIdx size idx = idx + 1 := if_neg (by omega)
        rw [hnext, if_neg (by omega)] at hnone
        exact ih (by omega) (by omega) hnone c hle hlt hhas hentry

/-- The search as a whole, from a cluster on and around to it again. -/
theorem searchFree_around (h : v.Readable) {size start n idx : ℕ} (h2 : 2 ≤ start)
    (hstart : start ≤ size) (hidx : start ≤ idx) (hsize : idx ≤ size)
    (hn : size + start ≤ n + idx + 1) (hnone : (searchFree size start n idx v).1 = none) :
    ∀ c, idx ≤ c ∨ c < start → c ≤ size → v.dpb.Has c → v.entry c ≠ free := by
  induction n generalizing idx with
  | zero => omega
  | succ n ih =>
    obtain ⟨hv, hiff⟩ := isFreeCluster_ok h idx
    simp only [searchFree, hv] at hnone
    split at hnone
    · simp at hnone
    · rename_i hfree
      intro c hc hle hhas hentry
      rcases eq_or_ne c idx with rfl | hne
      · exact hfree (hiff.mpr ⟨hhas, hentry⟩)
      · by_cases hlast : idx + 1 > size
        · -- the search goes on at 2
          have hbelow : c < start := by omega
          have h2c : 2 ≤ c := hhas.1
          have hnext : nextIdx size idx = 2 := if_pos hlast
          rw [hnext, if_neg (by omega)] at hnone
          exact searchFree_below h hstart (by omega) (by omega) hnone c hhas.1 hbelow hhas hentry
        · have hnext : nextIdx size idx = idx + 1 := if_neg hlast
          rw [hnext, if_neg (by omega)] at hnone
          exact ih (by omega) (by omega) (by omega) hnone c (by omega) hle hhas hentry

theorem kept_setHint (h : v.Ok) {c : ℕ} (hc : c = unknCluster ∨ v.dpb.Has c) :
    Kept (fun _ => True) v { v with dpb := v.dpb.setHint c } :=
  ⟨⟨h.dpb.setHint hc, h.sound⟩, Dpb.same_setHint _ _,
    fun _ _ => (Dpb.same_setHint _ _).decode _⟩

/-- Where the search begins does not matter, if it is nowhere in particular or a cluster. -/
theorem findFatFree_cases (h : v.Readable)
    (hhint : v.dpb.hint = unknCluster ∨ v.dpb.Has v.dpb.hint) :
    (∃ c, v.dpb.Has c ∧ v.entry c = free ∧
        findFatFree v = (c, { v with dpb := v.dpb.setHint c })) ∨
      (∀ c, v.dpb.Has c → v.entry c ≠ free) ∧
        findFatFree v = (longLastCluster, { v with dpb := v.dpb.setHint unknCluster }) := by
  generalize hidx : (if v.dpb.hint ≠ unknCluster then v.dpb.hint else 2) = idx
  have hsnd := searchFree_snd h v.dpb.maxCluster idx v.dpb.maxCluster idx
  cases hsearch : (searchFree v.dpb.maxCluster idx v.dpb.maxCluster idx v).1 with
  | some c =>
    obtain ⟨hhas, hfree⟩ := searchFree_some h hsearch
    refine Or.inl ⟨c, hhas, hfree, ?_⟩
    simp only [findFatFree, hidx, hsearch, hsnd]
  | none =>
    refine Or.inr ⟨fun c hc => ?_, ?_⟩
    · have hrange : 2 ≤ idx ∧ idx ≤ v.dpb.maxCluster := by
        rw [← hidx]
        split
        · rename_i hne
          exact hhint.resolve_left hne
        · exact ⟨Nat.le_refl 2, hc.1.trans hc.2⟩
      exact searchFree_around h hrange.1 hrange.2 (Nat.le_refl idx) hrange.2 (by omega) hsearch c
        (by omega) hc.2 hc
    · simp only [findFatFree, hidx, hsearch, hsnd]

/-- **What `find_fat_free` does**: it returns a free cluster, or if there is none
`LONG_LAST_CLUSTER`. -/
theorem findFatFree_spec (h : v.Ok) : ∃ c v', findFatFree v = (c, v') ∧ Kept (fun _ => True) v v' ∧
    (v.dpb.Has c ∧ v.entry c = free ∨
      c = longLastCluster ∧ ∀ d, v.dpb.Has d → v.entry d ≠ free) := by
  obtain ⟨c, hhas, hfree, hfind⟩ | ⟨hfull, hfind⟩ := findFatFree_cases h.readable h.dpb.hint
  · exact ⟨c, _, hfind, kept_setHint h (Or.inr hhas), Or.inl ⟨hhas, hfree⟩⟩
  · exact ⟨_, _, hfind, kept_setHint h (Or.inl rfl), Or.inr ⟨rfl, hfull⟩⟩

/-! ## Chains -/

/-- The clusters form a chain of the volume. -/
structure Volume.IsChain (v : Volume) (L : List ℕ) : Prop where
  range : ∀ c ∈ L, v.dpb.Has c
  nodup : L.Nodup
  linked : Chained v.entry longLastCluster L

instance (v : Volume) (L : List ℕ) : Decidable (v.IsChain L) :=
  decidable_of_iff ((∀ c ∈ L, v.dpb.Has c) ∧ L.Nodup ∧ Chained v.entry longLastCluster L)
    ⟨fun h => ⟨h.1, h.2.1, h.2.2⟩, fun h => ⟨h.range, h.nodup, h.linked⟩⟩

variable {L : List ℕ}

theorem Volume.isChain_nil (v : Volume) : v.IsChain [] :=
  ⟨fun _ h => (nomatch h), List.nodup_nil, trivial⟩

theorem Kept.isChain {keep : ℕ → Prop} {v' : Volume} (h : Kept keep v v') (hL : v.IsChain L)
    (hk : ∀ c ∈ L, keep c) : v'.IsChain L :=
  ⟨fun c hc => (h.same.has c).mpr (hL.range c hc), hL.nodup,
    hL.linked.congr fun c hc => h.entry c (hk c hc)⟩

theorem Volume.IsChain.entry (h : v.IsChain L) {i c : ℕ} (hi : L[i]? = some c) :
    v.entry c = longLastCluster ∧ L[i + 1]? = none ∨
      ∃ d, L[i + 1]? = some d ∧ v.entry c = d ∧ v.dpb.Has d := by
  have hc := h.linked.getElem hi
  cases hnext : L[i + 1]? with
  | none => rw [hnext] at hc; exact Or.inl ⟨hc, rfl⟩
  | some d =>
    rw [hnext] at hc
    exact Or.inr ⟨d, rfl, hc, h.range d (List.mem_of_getElem? hnext)⟩

/-- The clusters of a chain are in use. -/
theorem Volume.IsChain.not_free (h : v.IsChain L) {c : ℕ} (hc : c ∈ L) : v.entry c ≠ free := by
  obtain ⟨i, hi⟩ := List.mem_iff_getElem?.mp hc
  obtain ⟨hentry, -⟩ | ⟨d, -, hentry, hd⟩ := h.entry hi
  · rw [hentry]; decide
  · rw [hentry]
    exact (Nat.lt_of_lt_of_le Nat.zero_lt_two hd.1).ne'

/-- **Following a chain.** -/
theorem nextCluster_chain (h : v.Readable) (hL : v.IsChain L) {i c : ℕ} (hi : L[i]? = some c) :
    nextCluster v c = ((L[i + 1]?).getD longLastCluster, v) := by
  have hleads : v.Leads c := by
    obtain ⟨hentry, -⟩ | ⟨d, hd, hentry, hhas⟩ := hL.entry hi
    · exact Or.inl hentry
    · refine Or.inr ⟨hentry ▸ hhas, ?_⟩
      rw [hentry]
      obtain ⟨hentry', -⟩ | ⟨e, -, hentry', hhas'⟩ := hL.entry hd
      · exact Or.inl hentry'
      · exact Or.inr (hentry' ▸ hhas')
  rw [nextCluster_leads h (hL.range c (List.mem_of_getElem? hi)) hleads, hL.linked.getElem hi]

/-- A chain that does not go through the changed entry. -/
theorem Kept.isChain_of_notMem {v' : Volume} {c : ℕ} (h : Kept (· ≠ c) v v') (hL : v.IsChain L)
    (hc : c ∉ L) : v'.IsChain L :=
  h.isChain hL fun d hd => by rintro rfl; exact hc hd

/-- The first cluster is one of the volume, if there is any. -/
theorem Volume.IsChain.head_cases (hL : v.IsChain L) :
    L.headD free = free ∨ v.dpb.Has (L.headD free) := by
  cases L with
  | nil => exact Or.inl rfl
  | cons c L => exact Or.inr (hL.range c List.mem_cons_self)

/-- There is a first cluster exactly if there is any. -/
theorem Volume.IsChain.head_free_iff (hL : v.IsChain L) : L.headD free = free ↔ L = [] := by
  cases L with
  | nil => simp
  | cons c L =>
    have := (hL.range c List.mem_cons_self).1
    refine iff_of_false (fun hc => ?_) (List.cons_ne_nil c L)
    rw [List.headD_cons, free] at hc
    omega

/-- The first cluster determines the chain. -/
theorem Volume.IsChain.unique {L' : List ℕ} (h : v.Ok) (hL : v.IsChain L) (hL' : v.IsChain L')
    (heq : L.headD free = L'.headD free) : L = L' := by
  have hstop {M : List ℕ} (hM : v.IsChain M) : longLastCluster ∉ M := fun hm =>
    absurd (h.dpb.has_lt (hM.range _ hm)) (by decide)
  refine hL.linked.unique hL'.linked (hstop hL) (hstop hL') ?_
  cases L with
  | nil => rw [hL'.head_free_iff.mp heq.symm]
  | cons c L =>
    cases L' with
    | nil => exact absurd (hL.head_free_iff.mp heq) (List.cons_ne_nil c L)
    | cons d L' => exact heq

/-- What is left of a chain after its first clusters. -/
theorem Volume.IsChain.drop (h : v.IsChain L) (n : ℕ) : v.IsChain (L.drop n) := by
  refine ⟨fun c hc => h.range c (List.mem_of_mem_drop hc), h.nodup.sublist (List.drop_sublist n L),
    ?_⟩
  have := h.linked
  rw [← List.take_append_drop n L, chained_append] at this
  exact this.2

/-! ## Freeing a chain -/

theorem kept_lowerHint (h : v.Ok) {st : ℕ} (hst : v.dpb.Has st) :
    Kept (fun _ => True) v (v.lowerHint st) := by
  rw [Volume.lowerHint]
  by_cases hc : v.dpb.hint = unknCluster ∨
      v.dpb.hint > (if v.dpb.isFat32 then st else st % 65536)
  · rw [if_pos hc]
    exact kept_setHint h (Or.inr hst)
  · rw [if_neg hc]
    exact Kept.refl h _

theorem wipeLoop_spec (h : v.Ok) (hL : v.IsChain L) {n : ℕ} (hn : L.length ≤ n) :
    Kept (· ∉ L) v (wipeLoop n (L.headD longLastCluster) v) ∧
      ∀ c ∈ L, (wipeLoop n (L.headD longLastCluster) v).entry c = free := by
  induction L generalizing n v with
  | nil =>
    have : wipeLoop n longLastCluster v = v := by cases n <;> simp [wipeLoop]
    rw [List.headD_nil, this]
    exact ⟨Kept.refl h _, fun _ hc => (nomatch hc)⟩
  | cons st L ih =>
    obtain ⟨n, rfl⟩ := Nat.exists_eq_add_of_le' (Nat.lt_of_lt_of_le (Nat.succ_pos _) hn)
    have hhas := hL.range st List.mem_cons_self
    have hlast : st ≠ longLastCluster :=
      ((h.dpb.has_lt hhas).trans (by decide : longBad < longLastCluster)).ne
    have hnext : nextCluster v st = (L.headD longLastCluster, v) := by
      rw [nextCluster_chain h.readable hL (i := 0) rfl]
      cases L <;> rfl
    have hnext2 : ¬ L.headD longLastCluster ≤ 1 := by
      cases L with
      | nil => decide
      | cons d L =>
        have := (hL.range d (by simp)).1
        simp only [List.headD_cons]
        omega
    obtain ⟨v₁, hlink, hkept, hentry, hhint⟩ := linkFat_write h hhas (Or.inl rfl)
    have hkept₂ := kept_lowerHint hkept.ok ((hkept.same.has st).mpr hhas)
    have hstep : wipeLoop (n + 1) st v =
        wipeLoop n (L.headD longLastCluster) (v₁.lowerHint st) := by
      simp only [wipeLoop, if_neg hlast, hnext, if_neg hnext2, hlink, ne_eq, not_true, if_false]
    have hst : st ∉ L := (List.nodup_cons.mp hL.nodup).1
    have hL₂ : (v₁.lowerHint st).IsChain L :=
      hkept₂.isChain (hkept.isChain_of_notMem (hL.drop 1) hst) fun _ _ => trivial
    obtain ⟨hkept₃, hfree⟩ := ih hkept₂.ok hL₂ (by simpa using hn)
    rw [List.headD_cons, hstep]
    have hall := (hkept.trans (hkept₂.mono fun _ _ => trivial))
    refine ⟨(hall.mono fun c hc => ?_).trans (hkept₃.mono fun c hc => ?_),
      List.forall_mem_cons.mpr ⟨?_, hfree⟩⟩
    · rintro rfl; exact hc List.mem_cons_self
    · exact fun hmem => hc (List.mem_cons_of_mem st hmem)
    · rw [hkept₃.entry st hst, hkept₂.entry st trivial, hentry, Function.update_self]

/-- Different clusters of a volume are not more than it has. -/
theorem Volume.IsChain.length_le (h : v.IsChain L) : L.length ≤ v.dpb.maxCluster := by
  have hsub : L ⊆ List.range' 1 v.dpb.maxCluster := fun c hc => by
    have := h.range c hc
    rw [List.mem_range'_1]
    exact ⟨by have := this.1; omega, by have := this.2; omega⟩
  simpa using h.nodup.length_le_of_subset hsub

/-- **What `wipe_out_clusters` does**: the clusters of the chain become free. -/
theorem wipeOutClusters_spec (h : v.Ok) (hL : v.IsChain L) :
    Kept (· ∉ L) v (wipeOutClusters v (L.headD longLastCluster)) ∧
      ∀ c ∈ L, (wipeOutClusters v (L.headD longLastCluster)).entry c = free :=
  wipeLoop_spec h hL hL.length_le

/-! ## Counting the free clusters -/

/-- How many clusters are free. -/
def Volume.freeCount (v : Volume) : ℕ :=
  {c ∈ Finset.Icc 2 v.dpb.maxCluster | v.entry c = free}.card

variable {v' : Volume}

theorem freeCount_congr (hs : v.dpb.Same v'.dpb) (he : v'.entry = v.entry) :
    v'.freeCount = v.freeCount := by
  rw [Volume.freeCount, Volume.freeCount, he, hs.maxCluster]

/-- One more cluster is in use. -/
theorem freeCount_used {c : ℕ} (hs : v.dpb.Same v'.dpb) (hc : v.dpb.Has c)
    (hfree : v.entry c = free) (hused : v'.entry c ≠ free)
    (hrest : ∀ d, d ≠ c → (v'.entry d = free ↔ v.entry d = free)) :
    v'.freeCount + 1 = v.freeCount := by
  have herase : {d ∈ Finset.Icc 2 v'.dpb.maxCluster | v'.entry d = free} =
      {d ∈ Finset.Icc 2 v.dpb.maxCluster | v.entry d = free}.erase c := by
    ext d
    simp only [Finset.mem_filter, Finset.mem_erase, hs.maxCluster]
    by_cases hd : d = c
    · subst hd; simp [hused]
    · simp [hd, hrest d hd]
  have hmem : c ∈ {d ∈ Finset.Icc 2 v.dpb.maxCluster | v.entry d = free} := by
    simp [hfree, hc.1, hc.2]
  rw [Volume.freeCount, Volume.freeCount, herase, Finset.card_erase_of_mem hmem]
  have := Finset.card_pos.mpr ⟨c, hmem⟩
  omega

theorem freeCount_eq_zero (h : ∀ c, v.dpb.Has c → v.entry c ≠ free) :
    v.freeCount = 0 := by
  rw [Volume.freeCount, Finset.card_eq_zero, Finset.filter_eq_empty_iff]
  intro c hc
  rw [Finset.mem_Icc] at hc
  exact h c hc

end Fat
end BurdahDos
