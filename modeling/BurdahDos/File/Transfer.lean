import BurdahDos.File.Resize
import Mathlib

/-!
# Transfers

Where the bytes of a file are on the disk follows from its chain: `loc` gives sector and offset of a
byte.  A turn of the loop of `rwblock` transfers bytes from there, or to there and nowhere else,
whether it goes through a sector buffer or takes several clusters at once, for which these have to
be behind one another on the disk (`Consecutive`).
-/

set_option autoImplicit false

namespace BurdahDos
namespace File

open Fat

variable {v : Volume} {L L' : List ℕ} {fnp : FNode} {mode : XfrMode}

/-! ## Where the bytes are -/

/-- The sector of a file with number `q`, counted from its beginning. -/
def sectorOf (d : Dpb) (L : List ℕ) (q : ℕ) : ℕ :=
  d.clus2phys (L.getD (q / d.clusterSectors) 0) + q % d.clusterSectors

/-- Sector and offset of the byte `i` of a file. -/
def loc (d : Dpb) (L : List ℕ) (i : ℕ) : ℕ × ℕ := (sectorOf d L (i / d.secsize), i % d.secsize)

theorem clusterSectors_pos (d : Dpb) : 0 < d.clusterSectors := Nat.two_pow_pos _

section
variable {d : Dpb} (hd : d.Ok)
include hd

theorem secsize_pos : 0 < d.secsize := by
  obtain ⟨k, -, -, hk⟩ := hd.sectors
  rw [hk]
  exact Nat.two_pow_pos k

/-- The sectors of a cluster are in the data area, and their numbers do not overflow. -/
theorem clus2phys_eq {c : ℕ} (hc : d.Has c) :
    d.clus2phys c = d.dataStart + (c - 2) * d.clusterSectors := by
  have hfits := hd.fits
  have hlt : (c - 2) * d.clusterSectors + d.clusterSectors ≤
      (d.maxCluster - 1) * d.clusterSectors := by
    rw [← Nat.succ_mul]
    refine Nat.mul_le_mul_right _ ?_
    have := hc.1; have := hc.2
    omega
  have hpos := clusterSectors_pos d
  have heq : d.clus2phys c = ((c - 2) * d.clusterSectors + d.dataStart) % 2 ^ 32 := by
    rw [Dpb.clus2phys, Nat.shiftLeft_eq]
    rfl
  rw [heq, Nat.mod_eq_of_lt (by omega), Nat.add_comm]

/-- Different clusters have different sectors. -/
theorem clus2phys_inj {c c' j j' : ℕ} (hc : d.Has c) (hc' : d.Has c') (hj : j < d.clusterSectors)
    (hj' : j' < d.clusterSectors) (heq : d.clus2phys c + j = d.clus2phys c' + j') :
    c = c' ∧ j = j' := by
  have hpos := clusterSectors_pos d
  rw [clus2phys_eq hd hc, clus2phys_eq hd hc'] at heq
  have hsum : (c - 2) * d.clusterSectors + j = (c' - 2) * d.clusterSectors + j' := by omega
  have hdiv : c - 2 = c' - 2 := by
    have h1 : ((c - 2) * d.clusterSectors + j) / d.clusterSectors = c - 2 := by
      rw [Nat.mul_comm, Nat.mul_add_div hpos, Nat.div_eq_of_lt hj, Nat.add_zero]
    have h2 : ((c' - 2) * d.clusterSectors + j') / d.clusterSectors = c' - 2 := by
      rw [Nat.mul_comm, Nat.mul_add_div hpos, Nat.div_eq_of_lt hj', Nat.add_zero]
    rw [← h1, ← h2, hsum]
  rw [hdiv] at hsum
  have := hc.1; have := hc'.1
  exact ⟨by omega, by omega⟩

theorem sector_eq (q : ℕ) : q % 256 &&& d.clsmask = q % d.clusterSectors := by
  have hmask : d.clsmask = 2 ^ d.shftcnt - 1 := by have := hd.mask; omega
  rw [hmask, Nat.and_two_pow_sub_one_eq_mod, Dpb.clusterSectors]
  refine Nat.mod_mod_of_dvd q ?_
  exact Nat.pow_dvd_pow 2 (m := d.shftcnt) (n := 8) (hd.shift.trans (by decide))

end

theorem div_clusterSize (d : Dpb) (i : ℕ) :
    i / d.secsize / d.clusterSectors = i / d.clusterSize := Nat.div_div_eq_div_mul _ _ _

/-- The cluster of a byte of the file. -/
theorem lt_length_of_lt {d : Dpb} {i : ℕ} (hi : i < L.length * d.clusterSize) :
    i / d.clusterSize < L.length := by
  rw [Nat.mul_comm] at hi
  exact Nat.div_lt_of_lt_mul hi

/-- Where a byte is does not depend on how the chain goes on. -/
theorem loc_grown {d : Dpb} {i : ℕ} (hL : L <+: L') (hi : i < L.length * d.clusterSize) :
    loc d L' i = loc d L i := by
  obtain ⟨M, rfl⟩ := hL
  have hlt := lt_length_of_lt hi
  rw [loc, loc, sectorOf, sectorOf, div_clusterSize, List.getD_append _ _ _ _ hlt]

theorem loc_same {d d' : Dpb} (h : d.Same d') (L : List ℕ) (i : ℕ) : loc d' L i = loc d L i := by
  obtain ⟨_, _, _, rfl⟩ := h
  rfl

/-- Different bytes of a file are at different places. -/
theorem loc_inj (h : v.dpb.Ok) (hL : v.IsChain L) {i i' : ℕ}
    (hi : i < L.length * v.dpb.clusterSize) (hi' : i' < L.length * v.dpb.clusterSize)
    (heq : loc v.dpb L i = loc v.dpb L i') : i = i' := by
  have hlt := lt_length_of_lt hi
  have hlt' := lt_length_of_lt hi'
  have hpos := clusterSectors_pos v.dpb
  obtain ⟨hsec, hoff⟩ := Prod.mk.inj heq
  rw [sectorOf, sectorOf, div_clusterSize, div_clusterSize, List.getD_eq_getElem _ _ hlt,
    List.getD_eq_getElem _ _ hlt'] at hsec
  obtain ⟨hcl, hj⟩ := clus2phys_inj h (hL.range _ (List.getElem_mem hlt))
    (hL.range _ (List.getElem_mem hlt')) (Nat.mod_lt _ hpos) (Nat.mod_lt _ hpos) hsec
  have hq : i / v.dpb.clusterSize = i' / v.dpb.clusterSize :=
    (List.Nodup.getElem_inj_iff hL.nodup).mp hcl
  rw [← div_clusterSize, ← div_clusterSize] at hq
  have hsector : i / v.dpb.secsize = i' / v.dpb.secsize := by
    rw [← Nat.div_add_mod (i / v.dpb.secsize) v.dpb.clusterSectors, hq, hj, Nat.div_add_mod]
  rw [← Nat.div_add_mod i v.dpb.secsize, hsector, hoff, Nat.div_add_mod]

/-- A byte of the file is in one of its clusters. -/
theorem loc_mem {d : Dpb} {i : ℕ} (hi : i < L.length * d.clusterSize) :
    ∃ c ∈ L, ∃ j < d.clusterSectors, (loc d L i).1 = d.clus2phys c + j := by
  have hlt := lt_length_of_lt hi
  refine ⟨_, List.getElem_mem hlt, i / d.secsize % d.clusterSectors,
    Nat.mod_lt _ (clusterSectors_pos d), ?_⟩
  rw [loc, sectorOf, div_clusterSize, List.getD_eq_getElem _ _ hlt]

/-! ## Clusters behind one another -/

/-- The `n` sectors of the file from number `q` on are those of the disk from `currentblock` on. -/
structure Consecutive (d : Dpb) (L : List ℕ) (q currentblock n : ℕ) : Prop where
  le : q + n ≤ L.length * d.clusterSectors
  sector : ∀ k < n, sectorOf d L (q + k) = currentblock + k

theorem div_lt_length {d : Dpb} {q : ℕ} (hq : q < L.length * d.clusterSectors) :
    q / d.clusterSectors < L.length := by
  rw [Nat.mul_comm] at hq
  exact Nat.div_lt_of_lt_mul hq

theorem sectorOf_grown {d : Dpb} {q : ℕ} (hL : L <+: L')
    (hq : q < L.length * d.clusterSectors) : sectorOf d L' q = sectorOf d L q := by
  obtain ⟨M, rfl⟩ := hL
  rw [sectorOf, sectorOf, List.getD_append _ _ _ _ (div_lt_length hq)]

theorem Consecutive.mono {d : Dpb} {q currentblock n : ℕ} (h : Consecutive d L q currentblock n)
    (hL : L <+: L') : Consecutive d L' q currentblock n := by
  refine ⟨h.le.trans (Nat.mul_le_mul_right _ hL.length_le), fun k hk => ?_⟩
  have := h.le
  rw [sectorOf_grown hL (by omega)]
  exact h.sector k hk

theorem Consecutive.same {d d' : Dpb} (hs : d.Same d') {q currentblock n : ℕ}
    (h : Consecutive d L q currentblock n) : Consecutive d' L q currentblock n := by
  obtain ⟨_, _, _, rfl⟩ := hs
  exact ⟨h.le, h.sector⟩

/-- The sectors of one cluster, from number `q` on and up to its end at most. -/
theorem consecutive_cluster {d : Dpb} {q n c : ℕ} (hc : L[q / d.clusterSectors]? = some c)
    (hn : q % d.clusterSectors + n ≤ d.clusterSectors) :
    Consecutive d L q (d.clus2phys c + q % d.clusterSectors) n := by
  have hpos := clusterSectors_pos d
  obtain ⟨hlt, rfl⟩ := List.getElem?_eq_some_iff.mp hc
  have hdiv := Nat.div_add_mod q d.clusterSectors
  refine ⟨?_, fun k hk => ?_⟩
  · have : (q / d.clusterSectors + 1) * d.clusterSectors ≤ L.length * d.clusterSectors :=
      Nat.mul_le_mul_right _ hlt
    rw [Nat.succ_mul, Nat.mul_comm] at this
    omega
  · have hsum : q + k = d.clusterSectors * (q / d.clusterSectors) +
        (q % d.clusterSectors + k) := by omega
    have hlt' : q % d.clusterSectors + k < d.clusterSectors := by omega
    have hq : (q + k) / d.clusterSectors = q / d.clusterSectors := by
      rw [hsum, Nat.mul_add_div hpos, Nat.div_eq_of_lt hlt', Nat.add_zero]
    have hr : (q + k) % d.clusterSectors = q % d.clusterSectors + k := by
      rw [hsum, Nat.mul_add_mod, Nat.mod_eq_of_lt hlt']
    rw [sectorOf, hq, hr, List.getD_eq_getElem _ _ hlt, Nat.add_assoc]

theorem Consecutive.append {d : Dpb} {q currentblock n n' : ℕ}
    (h : Consecutive d L q currentblock n) (h' : Consecutive d L (q + n) (currentblock + n) n') :
    Consecutive d L q currentblock (n + n') := by
  refine ⟨by have := h'.le; omega, fun k hk => ?_⟩
  rcases Nat.lt_or_ge k n with hlt | hge
  · exact h.sector k hlt
  · have := h'.sector (k - n) (by omega)
    rw [show q + n + (k - n) = q + k by omega] at this
    omega

/-- The fnode has gone on in its file. -/
def Walked (fnp fnp' : FNode) : Prop := Moved (fnp.seek fnp'.offset) fnp'

theorem Walked.refl (fnp : FNode) : Walked fnp fnp := Moved.refl fnp

theorem Walked.trans {fnp fnp' fnp'' : FNode} (h : Walked fnp fnp') (h' : Walked fnp' fnp'') :
    Walked fnp fnp'' := by
  obtain ⟨_, _, _, _, heq⟩ := h
  obtain ⟨a, b, c, e, heq'⟩ := h'
  exact ⟨a, b, c, e, by rw [heq', heq]; rfl⟩

theorem Moved.walked {fnp fnp' : FNode} (h : Moved fnp fnp') : Walked fnp fnp' := by
  obtain ⟨_, _, _, _, rfl⟩ := h
  exact ⟨_, _, _, _, rfl⟩

theorem Walked.seek {fnp fnp' : FNode} (h : Walked fnp fnp') (offset : ℕ) :
    Walked fnp (fnp'.seek offset) := by
  obtain ⟨_, _, _, _, heq⟩ := h
  exact ⟨_, _, _, _, by rw [heq]; rfl⟩

/-- What the coalescing loop leaves. -/
structure Coalesced (mode : XfrMode) (fnp : FNode) (v : Volume) (L L' : List ℕ)
    (q currentblock least most : ℕ) (r : ℕ × FNode × Volume) : Prop where
  grown : Grown L L' v r.2.2
  placed : Placed r.2.2.dpb L' r.2.1
  on : r.2.1.On L'
  walked : Walked fnp r.2.1
  read : mode = .read → L' = L ∧ r.2.2 = v
  le : least ≤ r.1
  ge : r.1 ≤ most
  consecutive : Consecutive v.dpb L' q currentblock r.1
  offset : r.2.1.offset = (q + r.1) * v.dpb.secsize

theorem coalesce_sectors (mode : XfrMode) (currentblock startoffset most turns n : ℕ) (fnp : FNode)
    (v : Volume) :
    SameSectors v (coalesce mode currentblock startoffset most turns n fnp v).2.2 := by
  induction turns generalizing n fnp v with
  | zero => exact .refl v
  | succ turns ih =>
    have hmap := mapCluster_sectors v fnp mode
    simp only [coalesce]
    split
    · split
      · exact hmap
      · split
        · exact hmap
        · exact hmap.trans (ih _ _ _)
    · exact .refl v

theorem coalesce_spec (mode : XfrMode) (h : v.Ok) (hL : v.IsChain L) (hp : Placed v.dpb L fnp)
    (hon : fnp.On L) {q currentblock most n : ℕ} (hcons : Consecutive v.dpb L q currentblock n) (hn : n ≤ most)
    (haligned : n < most → v.dpb.clusterSectors ∣ q + n)
    (hoff : fnp.offset = (q + n) * v.dpb.secsize) (turns : ℕ) :
    ∃ L', Coalesced mode fnp v L L' q currentblock n most
      (coalesce mode currentblock (q * v.dpb.secsize) most turns n fnp v) := by
  induction turns generalizing fnp v L n with
  | zero =>
    exact ⟨L, .refl h hL, hp, hon, .refl fnp, fun _ => ⟨rfl, rfl⟩, Nat.le_refl n, hn, hcons, hoff⟩
  | succ turns ih =>
    by_cases hlt : n < most
    · obtain ⟨L', hm⟩ := mapCluster_spec mode h hL hp fun hnil => absurd hnil hon.ne_nil
      rw [coalesce, if_pos hlt]
      dsimp only
      have hrel : fnp.relcluster v.dpb = (q + n) / v.dpb.clusterSectors := by
        rw [relcluster_eq, hoff, Dpb.clusterSize, Nat.mul_comm v.dpb.secsize,
          Nat.mul_div_mul_right _ _ (secsize_pos h.dpb)]
      rw [hrel] at hm
      generalize mapCluster v fnp mode = m at hm ⊢
      have hcons' := hcons.mono hm.grown.pre
      have hon' : m.2.1.On L' := by
        rcases hm.placed.cached with ⟨rfl, -, -⟩ | hon'
        · exact absurd (List.prefix_nil.mp hm.grown.pre) hon.ne_nil
        · exact hon'
      have hoff' : m.2.1.offset = (q + n) * v.dpb.secsize := by
        obtain ⟨_, _, _, _, heq⟩ := hm.moved
        rw [heq]
        exact hoff
      have hstop : Coalesced mode fnp v L L' q currentblock n most (n, m.2) :=
        ⟨hm.grown, hm.placed, hon', hm.moved.walked, hm.read, Nat.le_refl n, hn, hcons', hoff'⟩
      rcases hm.result with ⟨hrc, -, hat⟩ | ⟨hout, -, -⟩
      · rw [if_neg (not_not_intro hrc)]
        by_cases hnext : m.2.2.dpb.clus2phys m.2.1.cluster ≠ currentblock + n
        · rw [if_pos hnext]
          exact ⟨L', hstop⟩
        · rw [if_neg hnext]
          have hsame := hm.grown.kept.same
          have hblock : m.2.2.dpb.clus2phys m.2.1.cluster = currentblock + n :=
            Decidable.not_not.mp hnext
          obtain ⟨t, ht⟩ := haligned hlt
          -- the next cluster begins at this sector
          have hmod : (q + n) % v.dpb.clusterSectors = 0 := by rw [ht, Nat.mul_mod_right]
          have hcl : L'[(q + n) / v.dpb.clusterSectors]? = some m.2.1.cluster := hat ▸ hon'
          have hmask : m.2.2.dpb.clsmask + 1 = v.dpb.clusterSectors := by
            obtain ⟨_, _, _, heq⟩ := hsame
            rw [heq]
            exact h.dpb.mask
          generalize hn' : min (n + m.2.2.dpb.clsmask + 1) most = n'
          have hle : n ≤ n' := by omega
          have hmore : Consecutive v.dpb L' (q + n) (currentblock + n) (n' - n) := by
            have := consecutive_cluster (d := v.dpb) (n := n' - n) hcl (by omega)
            rwa [hmod, Nat.add_zero, ← hsame.clus2phys, hblock] at this
          have hall := hcons'.append hmore
          rw [Nat.add_sub_cancel' hle] at hall
          obtain ⟨L'', hc⟩ := ih hm.grown.kept.ok hm.grown.chain
            (hm.placed.seek (q * v.dpb.secsize + n' * v.dpb.secsize)) hon' (hall.same hsame)
            (by omega) (fun hlt' => ⟨t + 1, by
              rw [Nat.mul_succ, hsame.clusterSectors, ← ht]
              omega⟩) (by rw [Nat.add_mul, hsame.secsize]; rfl)
          rw [hsame.secsize] at hc ⊢
          refine ⟨L'', hm.grown.trans hc.grown, hc.placed, hc.on,
            (hm.moved.walked.seek _).trans hc.walked, fun hr => ?_, hle.trans hc.le, hc.ge,
            hc.consecutive.same hsame.symm, hc.offset.trans (by rw [hsame.secsize])⟩
          obtain ⟨rfl, hv⟩ := hm.read hr
          obtain ⟨rfl, hv'⟩ := hc.read hr
          exact ⟨rfl, hv'.trans hv⟩
      · rw [if_pos hout.ne_success]
        exact ⟨L', hstop⟩
    · rw [coalesce, if_neg hlt]
      exact ⟨L, .refl h hL, hp, hon, .refl fnp, fun _ => ⟨rfl, rfl⟩, Nat.le_refl n, hn, hcons, hoff⟩

/-! ## What a transfer does to the bytes -/

/-- The bytes of `data` are stored at the positions of the file from `p` on, and no others
change. -/
structure Stored (d : Dpb) (L : List ℕ) (p n : ℕ) (data : Bytes) (disk disk' : ℕ → ℕ → UInt8) :
    Prop where
  inside : ∀ i < n, disk' (loc d L (p + i)).1 (loc d L (p + i)).2 = data i
  outside : ∀ sector o, (∀ i < n, (sector, o) ≠ loc d L (p + i)) → disk' sector o = disk sector o

/-- The bytes of the file from `p` on are in the buffer from `pos` on, which is otherwise the
same. -/
structure Fetched (d : Dpb) (L : List ℕ) (p n : ℕ) (disk : ℕ → ℕ → UInt8) (pos : ℕ)
    (buffer buffer' : Bytes) : Prop where
  inside : ∀ i < n, buffer' (pos + i) = disk (loc d L (p + i)).1 (loc d L (p + i)).2
  outside : ∀ i, i < pos ∨ pos + n ≤ i → buffer' i = buffer i

/-- The bytes from `p` on go to the buffer at `pos`, or come from there. -/
def Effect (mode : XfrMode) (d : Dpb) (L : List ℕ) (p n pos : ℕ) (buffer buffer' : Bytes)
    (disk disk' : ℕ → ℕ → UInt8) : Prop :=
  match mode with
  | .read => Fetched d L p n disk pos buffer buffer' ∧ disk' = disk
  | .write => Stored d L p n (fun i => buffer (pos + i)) disk disk' ∧ buffer' = buffer

theorem Effect.zero (mode : XfrMode) (d : Dpb) (L : List ℕ) (p pos : ℕ) (buffer : Bytes)
    (disk : ℕ → ℕ → UInt8) : Effect mode d L p 0 pos buffer buffer disk disk := by
  cases mode with
  | read => exact ⟨⟨fun _ h => absurd h (Nat.not_lt_zero _), fun _ _ => rfl⟩, rfl⟩
  | write => exact ⟨⟨fun _ h => absurd h (Nat.not_lt_zero _), fun _ _ _ => rfl⟩, rfl⟩

theorem Effect.same {d d' : Dpb} (hs : d.Same d') {p n pos : ℕ} {buffer buffer' : Bytes}
    {disk disk' : ℕ → ℕ → UInt8} (h : Effect mode d L p n pos buffer buffer' disk disk') :
    Effect mode d' L p n pos buffer buffer' disk disk' := by
  obtain ⟨_, _, _, rfl⟩ := hs
  cases mode with
  | read => exact ⟨⟨h.1.inside, h.1.outside⟩, h.2⟩
  | write => exact ⟨⟨h.1.inside, h.1.outside⟩, h.2⟩

/-- One transfer and the next are one transfer. -/
theorem Effect.append (h : v.dpb.Ok) (hL : v.IsChain L') (hpre : L <+: L') {p n m pos : ℕ}
    {buffer buffer' buffer'' : Bytes} {disk disk' disk'' : ℕ → ℕ → UInt8}
    (hn : p + n ≤ L.length * v.dpb.clusterSize) (hm : p + n + m ≤ L'.length * v.dpb.clusterSize)
    (h₁ : Effect mode v.dpb L p n pos buffer buffer' disk disk')
    (h₂ : Effect mode v.dpb L' (p + n) m (pos + n) buffer' buffer'' disk' disk'') :
    Effect mode v.dpb L' p (n + m) pos buffer buffer'' disk disk'' := by
  have hloc : ∀ i < n, loc v.dpb L' (p + i) = loc v.dpb L (p + i) := fun i hi =>
    loc_grown hpre (by omega)
  have hrest {i : ℕ} (hi : ¬ i < n) : p + n + (i - n) = p + i ∧ pos + n + (i - n) = pos + i := by
    omega
  cases mode with
  | read =>
    obtain ⟨⟨hin, hout⟩, rfl⟩ := h₁
    obtain ⟨⟨hin', hout'⟩, rfl⟩ := h₂
    refine ⟨⟨fun i hi => ?_, fun i hi => ?_⟩, rfl⟩
    · by_cases hlt : i < n
      · rw [hout' _ (by omega), hin i hlt, hloc i hlt]
      · have := hin' (i - n) (by omega)
        rwa [(hrest hlt).1, (hrest hlt).2] at this
    · rw [hout' i (by omega), hout i (by omega)]
  | write =>
    obtain ⟨⟨hin, hout⟩, rfl⟩ := h₁
    obtain ⟨⟨hin', hout'⟩, rfl⟩ := h₂
    refine ⟨⟨fun i hi => ?_, fun sector o hne => ?_⟩, rfl⟩
    · by_cases hlt : i < n
      · rw [hout' _ _ fun j hj heq => ?_, hloc i hlt, hin i hlt]
        have := loc_inj h hL (by omega) (by omega) heq
        omega
      · have := hin' (i - n) (by omega)
        simp only [(hrest hlt).1, (hrest hlt).2] at this
        exact this
    · rw [hout' sector o fun j hj heq => ?_, hout sector o fun i hi heq => ?_]
      · exact hne i (by omega) (heq.trans (hloc i hi).symm)
      · refine hne (n + j) (by omega) ?_
        rw [heq, Nat.add_assoc]

/-- The table is the same. -/
structure SameTable (v v' : Volume) : Prop where
  dpb : v'.dpb = v.dpb
  fat : v'.fat = v.fat
  sound : v'.fatOutcomes = v.fatOutcomes

theorem SameTable.kept {v' : Volume} (h : v.Ok) (ht : SameTable v v') (keep : ℕ → Prop) :
    Kept keep v v' := by
  refine ⟨⟨ht.dpb ▸ h.dpb, ht.sound.trans h.sound⟩, ht.dpb ▸ .refl _, fun c _ => ?_⟩
  rw [Volume.entry, Volume.entry, ht.dpb, ht.fat]

theorem access_table (v : Volume) : SameTable v v.access.2 := by
  rw [Volume.access]
  split <;> exact ⟨rfl, rfl, rfl⟩

theorem access_none (h : v.outcomes = []) : v.access = (none, v) := by
  rw [Volume.access, h]

/-- A transfer that fails was to fail. -/
theorem access_some (h : v.access.1.isSome = true) : v.outcomes ≠ [] := by
  intro hnil
  rw [access_none hnil] at h
  exact Bool.false_ne_true h

theorem Consecutive.loc {d : Dpb} (hd : d.Ok) {q currentblock n i : ℕ}
    (h : Consecutive d L q currentblock n) (hi : i < n * d.secsize) :
    File.loc d L (q * d.secsize + i) = (currentblock + i / d.secsize, i % d.secsize) := by
  have hpos := secsize_pos hd
  have hlt : i / d.secsize < n := by
    rw [Nat.mul_comm] at hi
    exact Nat.div_lt_of_lt_mul hi
  rw [File.loc, Nat.mul_comm q, Nat.mul_add_div hpos, Nat.mul_add_mod, h.sector _ hlt]

theorem dskxfer_table (mode : XfrMode) (currentblock sectors : ℕ) (buffer : Bytes) (pos : ℕ) :
    SameTable v (dskxfer v mode currentblock sectors buffer pos).2.2 := by
  cases mode with
  | read => exact access_table v
  | write => exact ⟨(access_table v).dpb, (access_table v).fat, (access_table v).sound⟩

/-- **What `dskxfer` does** on sectors that hold bytes of the file, if it succeeds. -/
theorem dskxfer_effect (mode : XfrMode) (h : v.dpb.Ok) (hnil : v.outcomes = []) {q currentblock n : ℕ}
    (hc : Consecutive v.dpb L q currentblock n) (buffer : Bytes) (pos : ℕ) :
    (dskxfer v mode currentblock n buffer pos).2.2.outcomes = [] ∧
      Effect mode v.dpb L (q * v.dpb.secsize) (n * v.dpb.secsize) pos buffer
        (dskxfer v mode currentblock n buffer pos).2.1 v.disk
        (dskxfer v mode currentblock n buffer pos).2.2.disk := by
  have hpos := secsize_pos h
  cases mode with
  | read =>
    simp only [dskxfer, access_none hnil, Option.getD_none]
    refine ⟨hnil, ⟨fun i hi => ?_, fun i hi => if_neg (by omega)⟩, rfl⟩
    rw [if_pos (by omega), Nat.add_sub_cancel_left, hc.loc h hi]
  | write =>
    simp only [dskxfer, access_none hnil, Option.getD_none]
    refine ⟨hnil, ⟨fun i hi => ?_, fun sector o hne => if_neg ?_⟩, rfl⟩
    · have hlt : i / v.dpb.secsize < n := by
        rw [Nat.mul_comm] at hi
        exact Nat.div_lt_of_lt_mul hi
      rw [hc.loc h hi]
      simp only
      rw [if_pos ⟨Nat.le_add_right _ _, by omega, Nat.mod_lt _ hpos⟩, Nat.add_sub_cancel_left,
        Nat.add_assoc, Nat.mul_comm, Nat.div_add_mod]
    · rintro ⟨hge, hlt, ho⟩
      have hi : (sector - currentblock) * v.dpb.secsize + o < n * v.dpb.secsize := by
        have : (sector - currentblock + 1) * v.dpb.secsize ≤ n * v.dpb.secsize :=
          Nat.mul_le_mul_right _ (by omega)
        rw [Nat.succ_mul] at this
        omega
      refine hne _ hi ?_
      rw [hc.loc h hi, Nat.mul_comm, Nat.mul_add_div hpos, Nat.mul_add_mod, Nat.div_eq_of_lt ho,
        Nat.mod_eq_of_lt ho]
      ext
      · simp only; omega
      · rfl

/-! ## One transfer -/

/-- What a transfer leaves: so many bytes are done, or it has failed, and where the fnode is. -/
structure Transferred (mode : XfrMode) (fnp : FNode) (v : Volume) (L L' : List ℕ)
    (buffer : Bytes) (ret toXfer : ℕ) (r : Turn × FNode × Bytes × Volume) : Prop where
  grown : Grown L L' v r.2.2.2
  placed : Placed r.2.2.2.dpb L' r.2.1
  on : r.2.1.On L'
  walked : Walked fnp r.2.1
  read : mode = .read → L' = L
  turn : (∃ n, r.1 = .transferred n ∧ 0 < n ∧ n ≤ toXfer ∧ r.2.1.offset = fnp.offset + n ∧
      fnp.offset + n ≤ L'.length * v.dpb.clusterSize ∧
      (mode = .read → fnp.offset + n ≤ fnp.dir.size) ∧
      (v.outcomes = [] → r.2.2.2.outcomes = [] ∧
        Effect mode v.dpb L' fnp.offset n ret buffer r.2.2.1 v.disk r.2.2.2.disk)) ∨
    (∃ code, r.1 = .exit code) ∧ r.2.1.offset = fnp.offset ∧ v.outcomes ≠ []

theorem Grown.table {v' v'' : Volume} (h : Grown L L' v v') (ht : SameTable v' v'') :
    Grown L L' v v'' :=
  h.trans (.of_kept h.chain (ht.kept h.kept.ok _))

theorem normalXfer_spec (h : v.Ok) (hL : v.IsChain L) (hp : Placed v.dpb L fnp) (hon : fnp.On L)
    (hat : fnp.clusterOffset = fnp.relcluster v.dpb) {ret toXfer : ℕ} (hpos : 0 < toXfer)
    (hread : mode = .read → fnp.offset < fnp.dir.size) (buffer : Bytes) :
    Transferred mode fnp v L L buffer ret toXfer (normalXfer v fnp mode buffer ret toXfer
      (v.dpb.clus2phys fnp.cluster + (fnp.offset / v.dpb.secsize % 256 &&& v.dpb.clsmask))
      (fnp.offset % v.dpb.secsize)) := by
  have hsec := secsize_pos h.dpb
  have htable := access_table v
  have hbase := (Grown.refl h hL).table htable
  have hplaced : Placed v.access.2.dpb L fnp := htable.dpb ▸ hp
  rw [sector_eq h.dpb]
  rw [relcluster_eq, ← div_clusterSize] at hat
  have hboff := Nat.mod_lt fnp.offset hsec
  have hdiv := Nat.div_add_mod fnp.offset v.dpb.secsize
  rw [FNode.On, hat] at hon
  have hcons := consecutive_cluster (d := v.dpb) (n := 1) hon (Nat.mod_lt _ (clusterSectors_pos _))
  rw [← hat] at hon
  generalize v.dpb.clus2phys fnp.cluster +
    fnp.offset / v.dpb.secsize % v.dpb.clusterSectors = block at hcons ⊢
  -- the bytes up to the end of the sector
  have hloc {i : ℕ} (hi : fnp.offset % v.dpb.secsize + i < v.dpb.secsize) :
      loc v.dpb L (fnp.offset + i) = (block, fnp.offset % v.dpb.secsize + i) := by
    have := hcons.loc h.dpb (i := fnp.offset % v.dpb.secsize + i) (by omega)
    rw [Nat.div_eq_of_lt hi, Nat.mod_eq_of_lt hi, Nat.add_zero, ← Nat.add_assoc,
      Nat.mul_comm, hdiv] at this
    exact this
  have hbytes {n : ℕ} (hn : fnp.offset % v.dpb.secsize + n ≤ v.dpb.secsize) :
      fnp.offset + n ≤ L.length * v.dpb.clusterSize := by
    have := Nat.mul_le_mul_right v.dpb.secsize hcons.le
    rw [Nat.succ_mul, Nat.mul_assoc, Nat.mul_comm v.dpb.clusterSectors, Nat.mul_comm] at this
    rw [Dpb.clusterSize]
    omega
  unfold normalXfer
  dsimp only
  by_cases hfail : v.access.1.isSome = true
  · rw [if_pos hfail]
    exact ⟨hbase, hplaced, hon, .refl fnp, fun _ => rfl,
      Or.inr ⟨⟨_, rfl⟩, rfl, access_some hfail⟩⟩
  · rw [if_neg hfail]
    cases mode with
    | read =>
      have hsize := hread rfl
      dsimp only
      rw [htable.dpb]
      generalize hn : min (min toXfer (v.dpb.secsize - fnp.offset % v.dpb.secsize))
        (fnp.dir.size - fnp.offset) = n
      refine ⟨hbase, hplaced.seek _, hon, (Walked.refl fnp).seek _, fun _ => rfl,
        Or.inl ⟨n, rfl, by omega, by omega, rfl, hbytes (by omega), fun _ => by omega,
          fun hnil => ?_⟩⟩
      rw [access_none hnil]
      refine ⟨hnil, ⟨fun i hi => ?_, fun i hi => if_neg (by omega)⟩, rfl⟩
      dsimp only
      rw [if_pos (by omega), hloc (by omega), Nat.add_sub_cancel_left]
    | write =>
      dsimp only
      rw [htable.dpb]
      generalize hn : min toXfer (v.dpb.secsize - fnp.offset % v.dpb.secsize) = n
      refine ⟨hbase.table ⟨htable.dpb.symm, rfl, rfl⟩, hp.seek _, hon, (Walked.refl fnp).seek _,
        fun hr => (by cases hr), Or.inl ⟨n, rfl, by omega, by omega, rfl, hbytes (by omega),
          fun hr => (by cases hr), fun hnil => ?_⟩⟩
      rw [access_none hnil]
      refine ⟨hnil, ⟨fun i hi => ?_, fun sector o hne => if_neg ?_⟩, rfl⟩
      · rw [hloc (by omega)]
        simp only
        rw [if_pos ⟨trivial, by omega, by omega⟩, Nat.add_sub_cancel_left]
      · rintro ⟨rfl, hge, hlt⟩
        refine hne (o - fnp.offset % v.dpb.secsize) (by omega) ?_
        rw [hloc (by omega), Nat.add_sub_cancel' hge]

theorem directXfer_spec (h : v.Ok) (hL : v.IsChain L) (hp : Placed v.dpb L fnp) (hon : fnp.On L)
    (hat : fnp.clusterOffset = fnp.relcluster v.dpb) {ret toXfer wanted : ℕ}
    (hboff : fnp.offset % v.dpb.secsize = 0) (hpos : 0 < wanted)
    (hwanted : wanted * v.dpb.secsize ≤ toXfer)
    (hread : mode = .read → fnp.offset + wanted * v.dpb.secsize ≤ fnp.dir.size)
    (buffer : Bytes) :
    ∃ L', Transferred mode fnp v L L' buffer ret toXfer (directXfer v fnp mode buffer ret
      (v.dpb.clus2phys fnp.cluster + (fnp.offset / v.dpb.secsize % 256 &&& v.dpb.clsmask))
      (fnp.offset / v.dpb.secsize % 256 &&& v.dpb.clsmask) wanted) := by
  have hsec := secsize_pos h.dpb
  have hspc := clusterSectors_pos v.dpb
  rw [sector_eq h.dpb]
  rw [relcluster_eq, ← div_clusterSize] at hat
  have hdiv := Nat.div_add_mod fnp.offset v.dpb.secsize
  have hmask : v.dpb.clsmask + 1 = v.dpb.clusterSectors := h.dpb.mask
  generalize hq : fnp.offset / v.dpb.secsize = q at hat hdiv ⊢
  have hqoff : fnp.offset = q * v.dpb.secsize := by rw [Nat.mul_comm]; omega
  have hmod := Nat.mod_lt q hspc
  have hqmod := Nat.div_add_mod q v.dpb.clusterSectors
  generalize hfirst : min (v.dpb.clsmask + 1 - q % v.dpb.clusterSectors) wanted = first
  rw [FNode.On, hat] at hon
  have hcons := consecutive_cluster (d := v.dpb) (n := first) hon (by omega)
  rw [← hat] at hon
  generalize v.dpb.clus2phys fnp.cluster + q % v.dpb.clusterSectors = block at hcons ⊢
  obtain ⟨L', hc⟩ := coalesce_spec mode h hL
    (hp.seek (q * v.dpb.secsize + first * v.dpb.secsize)) hon hcons (by omega : first ≤ wanted) (fun hlt => by
      refine ⟨q / v.dpb.clusterSectors + 1, ?_⟩
      rw [Nat.mul_succ]
      omega) (Nat.add_mul _ _ _).symm wanted
  unfold directXfer
  dsimp only
  rw [hfirst, hqoff]
  have hsectors := coalesce_sectors mode block (q * v.dpb.secsize) wanted wanted first
    (fnp.seek (q * v.dpb.secsize + first * v.dpb.secsize)) v
  generalize coalesce mode block (q * v.dpb.secsize) wanted wanted first
    (fnp.seek (q * v.dpb.secsize + first * v.dpb.secsize)) v = r at hc hsectors ⊢
  have htable := dskxfer_table (v := r.2.2) mode block r.1 buffer ret
  have hsame := hc.grown.kept.same
  have hgrown := hc.grown.table htable
  have hplaced : Placed (dskxfer r.2.2 mode block r.1 buffer ret).2.2.dpb L' r.2.1 := by
    rw [htable.dpb]
    exact hc.placed
  have hread' : mode = .read → L' = L := fun hr => (hc.read hr).1
  by_cases hfail : (!(dskxfer r.2.2 mode block r.1 buffer ret).1) = true
  · rw [if_pos hfail]
    refine ⟨L', hgrown, hplaced.seek _, hc.on, hc.walked.seek _, hread',
      Or.inr ⟨⟨_, rfl⟩, hqoff.symm, fun hnil => ?_⟩⟩
    rw [← hsectors.2] at hnil
    cases mode <;> simp [dskxfer, access_none hnil] at hfail
  · rw [if_neg hfail]
    have hle := Nat.mul_le_mul_right v.dpb.secsize hc.ge
    have hoff : q * v.dpb.secsize + r.1 * v.dpb.secsize = (q + r.1) * v.dpb.secsize :=
      (Nat.add_mul _ _ _).symm
    refine ⟨L', hgrown, hplaced, hc.on, hc.walked, hread', Or.inl ⟨r.1 * v.dpb.secsize, rfl,
      Nat.mul_pos ?_ hsec, hle.trans hwanted, ?_, ?_, fun hr => ?_, fun hnil => ?_⟩⟩
    · have := hc.le
      omega
    · rw [hc.offset, hqoff, hoff]
    · have := Nat.mul_le_mul_right v.dpb.secsize hc.consecutive.le
      rw [Nat.mul_assoc, Nat.mul_comm v.dpb.clusterSectors] at this
      rw [hqoff, hoff]
      exact this
    · have := hread hr
      omega
    · rw [← hsectors.2] at hnil
      rw [hqoff, ← hsectors.1]
      have := dskxfer_effect mode hc.grown.kept.ok.dpb hnil (hc.consecutive.same hsame)
        buffer ret
      rw [hsame.secsize] at this
      exact ⟨this.1, this.2.same hsame.symm⟩

/-- **What one transfer does**, the fnode being at the cluster it is about. -/
theorem xfer_spec (mode : XfrMode) (h : v.Ok) (hL : v.IsChain L) (hp : Placed v.dpb L fnp)
    (hon : fnp.On L) (hat : fnp.clusterOffset = fnp.relcluster v.dpb) (ret : ℕ) {toXfer : ℕ} (hpos : 0 < toXfer)
    (hread : mode = .read → fnp.offset < fnp.dir.size) (buffer : Bytes) :
    ∃ L', Transferred mode fnp v L L' buffer ret toXfer (xfer v fnp mode buffer ret toXfer) := by
  unfold xfer
  dsimp only
  have hle : fnp.wanted toXfer mode ≤ toXfer ∧
      (mode = .read → fnp.offset + fnp.wanted toXfer mode ≤ fnp.dir.size) := by
    cases mode with
    | read =>
      have := hread rfl
      simp only [FNode.wanted]
      omega
    | write => exact ⟨Nat.le_refl _, fun hr => (nomatch hr)⟩
  generalize fnp.wanted toXfer mode = wanted at hle ⊢
  by_cases hdirect : fnp.offset % v.dpb.secsize = 0 ∧ wanted / v.dpb.secsize ≠ 0
  · rw [if_pos hdirect]
    have hdiv := Nat.div_mul_le_self wanted v.dpb.secsize
    exact directXfer_spec h hL hp hon hat hdirect.1 (Nat.pos_of_ne_zero hdirect.2)
      (hdiv.trans hle.1) (fun hr => by have := hle.2 hr; omega) buffer
  · rw [if_neg hdirect]
    exact ⟨L, normalXfer_spec h hL hp hon hat hpos hread buffer⟩

end File
end BurdahDos
