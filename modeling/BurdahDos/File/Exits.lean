import BurdahDos.File.Call
import Mathlib

/-!
# The ways out of `rwblock`

After a call the SFT should agree with the table that the call leaves, whatever becomes of the
call. Two of its exits do not copy the fnode back: the one for an offset that overflows, after
`dos_extend` may have given an empty file its first clusters, and the one for a failed
`shrink_file`, after it may have freed the cluster the SFT is at.  `consistent_iff` says when these
are taken in such a state.
-/

set_option autoImplicit false

namespace BurdahDos
namespace File

open Fat

variable {s s' : System} {L L' : List ℕ} {fnp : FNode} {mode : XfrMode} {fd : ℕ}

/-- The SFT agrees with the table, and the clusters that have been allocated since `v` are in its
chain. -/
def Sft.Consistent (v v' : Volume) (f : Sft) : Prop :=
  ∃ L, f.Attached v' L ∧ ∀ c, v.entry c = free → v'.entry c ≠ free → c ∈ L

/-- The call ends where the fnode is not copied back although the SFT is out of date: it truncates
the file below the cluster of the SFT, or below its size, and the buffers cannot be flushed; or it
gives an empty file clusters up to a position at which the transfer would overflow. -/
def Forgets (s : System) (fd : ℕ) (count : UInt16) (mode : XfrMode) : Prop :=
  let f := s.sft fd
  let d := s.vol.dpb
  mode = .write ∧
    (count = 0 ∧ f.stclust ≠ free ∧ s.vol.access.1.isSome = true ∧
        (clustersFor d f.posit ≤ f.relclust ∨ clustersFor d f.posit * d.clusterSize < f.size) ∨
      count ≠ 0 ∧ f.stclust = free ∧ 2 ^ 32 ≤ f.posit + count.toNat ∧
        f.posit / d.clusterSize < s.vol.freeCount)

/-! ## Exits that leave the SFT as it was -/

theorem Rechained.consistent {v v' : Volume} {f : Sft} (h : Rechained L L' v v')
    (ha : f.Attached v' L') : f.Consistent v v' :=
  ⟨L', ha, fun _ => h.allocated⟩

theorem headD_take {k : ℕ} (hk : 0 < k) (L : List ℕ) : (L.take k).headD free = L.headD free := by
  obtain ⟨k, rfl⟩ := Nat.exists_eq_succ_of_ne_zero hk.ne'
  cases L <;> rfl

/-- The chain has been cut behind the back of the SFT. -/
theorem Sft.Attached.cut_iff {v v' : Volume} {f : Sft} {k : ℕ} (ha : f.Attached v L)
    (hr : Rechained L (L.take k) v v') (hk : k < L.length) :
    f.Consistent v v' ↔ f.relclust < k ∧ f.size ≤ k * v.dpb.clusterSize := by
  have hlen : (L.take k).length = k := List.length_take_of_le hk.le
  have hne : L ≠ [] := List.ne_nil_of_length_pos ((Nat.zero_le k).trans_lt hk)
  constructor
  · rintro ⟨L', ha', -⟩
    have hhead : L'.headD free = L.headD free := ha'.head.symm.trans ha.head
    have hne' : L' ≠ [] := fun hnil =>
      hne (ha.chain.head_free_iff.mp (hhead.symm.trans (ha'.chain.head_free_iff.mpr hnil)))
    rcases Nat.eq_zero_or_pos k with rfl | hpos
    · -- the first cluster is free
      obtain ⟨c, M, rfl⟩ := List.exists_cons_of_ne_nil hne
      obtain ⟨c', M', rfl⟩ := List.exists_cons_of_ne_nil hne'
      obtain rfl : c' = c := hhead
      exact absurd (hr.freed c' List.mem_cons_self (by simp))
        (ha'.chain.not_free List.mem_cons_self)
    · obtain rfl := ha'.chain.unique hr.ok hr.chain (hhead.trans (headD_take hpos L).symm)
      have hon := ha'.cached.resolve_left fun hnil => hne' hnil.1
      have hsize := ha'.size
      have hlt := (List.getElem?_eq_some_iff.mp hon).1
      rw [hlen] at hlt hsize
      rw [hr.same.clusterSize] at hsize
      exact ⟨hlt, hsize⟩
  · rintro ⟨hlt, hsize⟩
    refine hr.consistent ⟨hr.chain, ?_, Or.inr ?_, ?_⟩
    · rw [headD_take (by omega)]
      exact ha.head
    · rw [List.getElem?_take, if_pos hlt]
      exact ha.cached.resolve_left fun hnil => hne hnil.1
    · rwa [hlen, hr.same.clusterSize]

/-- The chain has grown without the SFT. -/
theorem Sft.Attached.grown_iff {v v' : Volume} {f : Sft} (ha : f.Attached v L)
    (hg : Grown L L' v v') : f.Consistent v v' ↔ L = [] → L' = [] := by
  constructor
  · rintro ⟨M, ha', hall⟩ rfl
    have hM : M = [] := ha'.chain.head_free_iff.mp (ha'.head.symm.trans ha.head)
    refine List.eq_nil_iff_forall_not_mem.mpr fun c hc => ?_
    have := hall c (hg.new c hc (by simp)) (hg.chain.not_free hc)
    rw [hM] at this
    exact absurd this (by simp)
  · intro hnil
    have hlen := Nat.mul_le_mul_right v.dpb.clusterSize hg.pre.length_le
    refine hg.rechained.consistent ⟨hg.chain, ?_, ?_, ?_⟩
    · rw [ha.head]
      cases hL : L with
      | nil => rw [hnil hL]
      | cons c L =>
        obtain ⟨M, rfl⟩ := hg.pre
        rw [hL]
        rfl
    · rcases ha.cached with ⟨hL, hcached⟩ | hon
      · exact Or.inl ⟨hnil hL, hcached⟩
      · obtain ⟨M, rfl⟩ := hg.pre
        exact Or.inr ((List.getElem?_append_left (List.getElem?_eq_some_iff.mp hon).1).trans hon)
    · rw [hg.kept.same.clusterSize]
      exact ha.size.trans hlen

/-! ## Exits that copy the fnode back -/

/-- The fnode is copied back. -/
theorem consistent_back {v : Volume} (hr : Rechained L L' v s'.vol) (hp : Placed s'.vol.dpb L' fnp)
    (hidx : fnp.sftIdx = fd) (hfd : fd ≠ 0xff)
    (hsize : fnp.dir.size ≤ L'.length * v.dpb.clusterSize) :
    ((fnodeToSft s' fnp).sft fd).Consistent v (fnodeToSft s' fnp).vol := by
  refine Rechained.consistent hr ?_
  rw [← hidx]
  exact fnodeToSft_attached hr.chain hp (hidx ▸ hfd) (by rwa [hr.same.clusterSize])

/-- The fnode is copied back after the loop. -/
theorem Looped.consistent {L'' : List ℕ} {v : Volume} {buffer : Bytes} {count k : ℕ}
    {r : ℤ × FNode × Bytes × System} (h : Looped mode fnp s L' L'' buffer 0 count k r)
    (hr : Rechained L L' v s.vol) (hidx : fnp.sftIdx = fd) (hfd : fd ≠ 0xff)
    (hw : mode = .write → fnp.offset ≤ fnp.dir.size)
    (hsize : fnp.dir.size ≤ L'.length * s.vol.dpb.clusterSize) :
    ((fnodeToSft r.2.2.2 r.2.1).sft fd).Consistent v (fnodeToSft r.2.2.2 r.2.1).vol := by
  refine consistent_back (hr.trans h.grown.rechained) h.placed (h.went.sftIdx.trans hidx) hfd ?_
  have hlen := Nat.mul_le_mul_right s.vol.dpb.clusterSize h.grown.pre.length_le
  have hall : r.2.1.dir.size ≤ L''.length * s.vol.dpb.clusterSize := by
    cases mode with
    | read =>
      rw [(h.read rfl).2.2.1]
      exact hsize.trans hlen
    | write =>
      rw [h.write rfl]
      refine Nat.max_le.mpr ⟨hsize.trans hlen, ?_⟩
      rcases Nat.eq_zero_or_pos k with rfl | hk
      · exact ((hw rfl).trans hsize).trans hlen
      · exact h.bytes hk
  rwa [hr.same.clusterSize] at hall

/-- What holds when `dos_extend` has made the room it was asked for. -/
theorem Extended.enough {emptywrite : Bool} {e : ℤ × FNode × System}
    (h : Extended emptywrite fnp s L L' e) (hok : s.vol.Ok) (hrc : e.1 = success)
    (hsize : fnp.dir.size ≤ L.length * s.vol.dpb.clusterSize) :
    e.2.1.offset = fnp.offset ∧ fnp.offset ≤ e.2.1.dir.size ∧
      e.2.1.dir.size = max fnp.dir.size fnp.offset ∧
      e.2.1.dir.size ≤ L'.length * s.vol.dpb.clusterSize := by
  have hoff : e.2.1.offset = fnp.offset := by
    obtain ⟨_, _, _, _, _, heq⟩ := h.resized
    rw [heq]
    rfl
  refine ⟨hoff, ?_⟩
  obtain ⟨rfl, rfl, hle⟩ | ⟨hlt, -, hsize', hlen, -⟩ | ⟨-, hne, -⟩ := h.result
  · exact ⟨hle, (Nat.max_eq_left hle).symm, hsize⟩
  · refine ⟨hsize'.ge, by omega, ?_⟩
    rw [hsize', ← clustersFor_le_iff hok.dpb]
    cases emptywrite with
    | true =>
      rw [extendTarget, if_pos rfl] at hlen
      omega
    | false =>
      refine (clustersFor_le_iff hok.dpb).mpr ?_
      have hlen' : fnp.offset / s.vol.dpb.clusterSize < L'.length := hlen
      rw [Nat.div_lt_iff_lt_mul (clusterSize_pos hok.dpb)] at hlen'
      exact hlen'.le
  · exact absurd hrc hne

/-- After `dos_extend` the chain is long enough for the position, and `shrink_file` cuts it
there. -/
theorem Extended.shrunk {e : ℤ × FNode × System} (h : Extended true fnp s L L' e)
    (hok : s.vol.Ok) (hrc : e.1 = success)
    (hsize : fnp.dir.size ≤ L.length * s.vol.dpb.clusterSize) (hidx : fnp.sftIdx ≠ 0xff) :
    clustersFor s.vol.dpb fnp.offset ≤ L'.length ∧
      fnp.offset ≤ clustersFor s.vol.dpb fnp.offset * s.vol.dpb.clusterSize ∧
      Shrunk (e.2.1.setSize e.2.1.offset) e.2.2.vol L' (clustersFor s.vol.dpb fnp.offset)
        (shrinkFile e.2.2.vol (e.2.1.setSize e.2.1.offset)) := by
  obtain ⟨hoff, hle, -, hroom⟩ := h.enough hok hrc hsize
  have hidx' : e.2.1.sftIdx = fnp.sftIdx := by
    obtain ⟨_, _, _, _, _, heq⟩ := h.resized
    rw [heq]
    rfl
  have hneed : clustersFor s.vol.dpb fnp.offset ≤ L'.length :=
    (clustersFor_le_iff hok.dpb).mpr (hle.trans hroom)
  have hk : clustersFor e.2.2.vol.dpb fnp.offset = clustersFor s.vol.dpb fnp.offset := by
    rw [clustersFor, clustersFor, h.grown.kept.same.clusterSize]
  refine ⟨hneed, (clustersFor_le_iff hok.dpb).mp (Nat.le_refl _), ?_⟩
  rw [← hk, ← hoff] at hneed ⊢
  exact shrinkFile_spec h.grown.kept.ok h.grown.chain (h.placed.setSize e.2.1.offset)
    (hidx' ▸ hidx : e.2.1.sftIdx ≠ 0xff) rfl hneed

section
variable (h : s.vol.Ok) (hfd : fd ≠ 0xff) (ha : (s.sft fd).Attached s.vol L)
  (hpos : (s.sft fd).posit < 2 ^ 32)
include h hfd ha hpos

/-- What `dos_extend` does in a call. -/
theorem extended_call (emptywrite : Bool) :
    ∃ L', Extended emptywrite (sftToFnode s fd).modified s L L'
      (dosExtend s (sftToFnode s fd).modified emptywrite) :=
  dosExtend_spec h ha.chain (ha.placed h hfd).modified hfd hpos emptywrite

/-- The disk is full. -/
theorem full_consistent (buffer : Bytes) {count : UInt16}
    (hrc : (dosExtend s (sftToFnode s fd).modified (count == 0)).1 ≠ success) :
    let r := rwblock s fd buffer count .write
    (r.2.2.sft fd).Consistent s.vol r.2.2.vol ∧ ¬ Forgets s fd count .write := by
  obtain ⟨L', he⟩ := extended_call h hfd ha hpos (count == 0)
  dsimp only
  rw [rwblock_full buffer hrc]
  generalize dosExtend s (sftToFnode s fd).modified (count == 0) = e at he hrc
  have hidx : e.2.1.sftIdx = fd := by
    obtain ⟨_, _, _, _, _, heq⟩ := he.resized
    rw [heq]
    rfl
  obtain ⟨rfl, -⟩ | ⟨-, hrc', -⟩ | ⟨hlt, -, hsize, hlen, hfull⟩ := he.result
  · exact absurd rfl hrc
  · exact absurd hrc' hrc
  · replace hlt : (s.sft fd).size < (s.sft fd).posit := hlt
    replace hlen : L'.length ≤ extendTarget s.vol.dpb (s.sft fd).posit (count == 0) := hlen
    refine ⟨consistent_back he.grown.rechained he.placed hidx hfd ?_, ?_⟩
    · rw [hsize]
      split
      · rename_i hnil
        have hpre := he.grown.pre
        rw [hnil] at hpre ⊢
        exact List.prefix_nil.mp hpre ▸ ha.size
      · exact Nat.le_refl _
    · rintro ⟨-, ⟨rfl, hne, -, hcut⟩ | ⟨hcount, hfree, -, hroom⟩⟩
      · have hpre := he.grown.pre.length_le
        have hk : extendTarget s.vol.dpb (s.sft fd).posit ((0 : UInt16) == 0) =
            clustersFor s.vol.dpb (s.sft fd).posit - 1 := rfl
        have hneed : (s.sft fd).posit ≤
            clustersFor s.vol.dpb (s.sft fd).posit * s.vol.dpb.clusterSize :=
          (clustersFor_le_iff h.dpb).mp (Nat.le_refl _)
        rcases ha.cached with ⟨rfl, -⟩ | hon
        · exact hne ha.head
        · have := (List.getElem?_eq_some_iff.mp hon).1
          omega
      · have hnil : L = [] := ha.chain.head_free_iff.mp (ha.head ▸ hfree)
        have hcount' := he.grown.count
        have hk : extendTarget s.vol.dpb (s.sft fd).posit (count == 0) =
            (s.sft fd).posit / s.vol.dpb.clusterSize := by
          rw [beq_false_of_ne hcount]
          rfl
        rw [hnil, List.length_nil] at hcount'
        omega

/-- A write of no bytes. -/
theorem truncate_consistent_iff (buffer : Bytes)
    (hrc : (dosExtend s (sftToFnode s fd).modified true).1 = success) :
    let r := rwblock s fd buffer 0 .write
    (r.2.2.sft fd).Consistent s.vol r.2.2.vol ↔ ¬ Forgets s fd 0 .write := by
  obtain ⟨L', he⟩ := extended_call h hfd ha hpos true
  dsimp only
  rw [rwblock_truncate buffer rfl hrc]
  generalize dosExtend s (sftToFnode s fd).modified true = e at he hrc
  have hidx : e.2.1.sftIdx = fd := by
    obtain ⟨_, _, _, _, _, heq⟩ := he.resized
    rw [heq]
    rfl
  obtain ⟨hoff, -⟩ := he.enough h hrc ha.size
  replace hoff : e.2.1.offset = (s.sft fd).posit := hoff
  obtain ⟨hneed, hroom, hshrunk⟩ := he.shrunk h hrc ha.size hfd
  replace hneed : clustersFor s.vol.dpb (s.sft fd).posit ≤ L'.length := hneed
  replace hroom : (s.sft fd).posit ≤
    clustersFor s.vol.dpb (s.sft fd).posit * s.vol.dpb.clusterSize := hroom
  replace hshrunk : Shrunk (e.2.1.setSize e.2.1.offset) e.2.2.vol L'
      (clustersFor s.vol.dpb (s.sft fd).posit)
      (shrinkFile e.2.2.vol (e.2.1.setSize e.2.1.offset)) := hshrunk
  have hresult := hshrunk.result
  rw [access_same he.sectors] at hresult
  generalize shrinkFile e.2.2.vol (e.2.1.setSize e.2.1.offset) = c at hshrunk hresult ⊢
  generalize hkdef : clustersFor s.vol.dpb (s.sft fd).posit = k at hneed hroom hshrunk hresult
  have hchain := he.grown.rechained.trans hshrunk.cut.rechained
  have hpre := he.grown.pre.length_le
  have hforgets : Forgets s fd 0 .write ↔ (s.sft fd).stclust ≠ free ∧
      s.vol.access.1.isSome = true ∧
        ¬ ((s.sft fd).relclust < k ∧ (s.sft fd).size ≤ k * s.vol.dpb.clusterSize) := by
    simp only [Forgets, hkdef, ne_eq, not_true, false_and, or_false, true_and]
    rw [not_and_or, Nat.not_lt, Nat.not_le]
  by_cases hfail : k < L'.length ∧ s.vol.access.1.isSome = true
  · -- the SFT is left alone
    have hneg : c.1 < 0 := by rw [hresult, if_pos hfail]; decide
    have hL : L' = L := by
      obtain ⟨-, hL, -⟩ | ⟨hlt, -⟩ | ⟨-, hne, -⟩ := he.result
      · exact hL
      · have hbound : L'.length ≤ max L.length (k - 1 + 1) := by
          have := he.bound
          rwa [extendTarget, if_pos rfl, show (sftToFnode s fd).modified.offset =
            (s.sft fd).posit from rfl, hkdef] at this
        have hp0 : 0 < (s.sft fd).posit := Nat.zero_lt_of_lt hlt
        have hk0 : 0 < k := by
          rw [← hkdef, clustersFor_pos h.dpb hp0]
          exact Nat.succ_pos _
        exact (he.grown.pre.eq_of_length_le (by omega)).symm
      · exact absurd hrc hne
    subst hL
    rw [if_pos hneg, hforgets]
    dsimp only
    have hself : e.2.2.sft fd = s.sft fd := he.told.self
    have hused : (s.sft fd).stclust ≠ free := fun hfree => by
      have hnil : L' = [] := ha.chain.head_free_iff.mp (ha.head ▸ hfree)
      rw [hnil] at hfail
      exact Nat.not_lt_zero _ hfail.1
    rw [hself, ha.cut_iff hchain hfail.1]
    tauto
  · -- the fnode is copied back
    have hneg : ¬ c.1 < 0 := by rw [hresult, if_neg hfail]; decide
    rw [if_neg hneg]
    have hlen : (L'.take k).length = k := List.length_take_of_le hneed
    have hback : ((fnodeToSft { e.2.2 with vol := c.2.2 } c.2.1).sft fd).Consistent s.vol
        (fnodeToSft { e.2.2 with vol := c.2.2 } c.2.1).vol := by
      obtain ⟨_, _, _, _, heq⟩ := hshrunk.moved
      refine consistent_back hchain hshrunk.placed ?_ hfd ?_
      · rw [heq]
        exact hidx
      · rw [heq, hlen]
        exact hoff.le.trans hroom
    refine iff_of_true hback ?_
    rw [hforgets]
    rintro ⟨hused, haccess, hcut⟩
    have hle' : L'.length ≤ k := Nat.not_lt.mp fun hlt => hfail ⟨hlt, haccess⟩
    refine hcut ⟨?_, ha.size.trans (Nat.mul_le_mul_right _ (by omega))⟩
    rcases ha.cached with ⟨rfl, -⟩ | hon
    · exact absurd ha.head hused
    · have := (List.getElem?_eq_some_iff.mp hon).1
      omega

/-- A write of some bytes. -/
theorem write_consistent_iff (buffer : Bytes) {count : UInt16} (hcount : count ≠ 0)
    (hrc : (dosExtend s (sftToFnode s fd).modified false).1 = success) :
    let r := rwblock s fd buffer count .write
    (r.2.2.sft fd).Consistent s.vol r.2.2.vol ↔ ¬ Forgets s fd count .write := by
  obtain ⟨L', he⟩ := extended_call h hfd ha hpos false
  generalize hdef : dosExtend s (sftToFnode s fd).modified false = e at he hrc
  obtain ⟨hoff, hle, -, hsize⟩ := he.enough h hrc ha.size
  replace hoff : e.2.1.offset = (s.sft fd).posit := hoff
  have hsame := he.grown.kept.same
  have hcount16 : count.toNat < 2 ^ 16 := count.toNat_lt
  have hforgets : Forgets s fd count .write ↔ (s.sft fd).stclust = free ∧
      2 ^ 32 ≤ (s.sft fd).posit + count.toNat ∧
        (s.sft fd).posit / s.vol.dpb.clusterSize < s.vol.freeCount := by
    simp only [Forgets, hcount, false_and, false_or, ne_eq, not_false_iff, true_and]
  dsimp only
  by_cases hover : (e.2.1.offset + count.toNat) % 2 ^ 32 < e.2.1.offset
  · -- the SFT is left alone
    rw [rwblock_overflow buffer hdef hrc hcount hover]
    dsimp only
    have hself : e.2.2.sft fd = s.sft fd := he.told.self
    have hend : 2 ^ 32 ≤ (s.sft fd).posit + count.toNat := by rw [hoff] at hover; omega
    rw [hself, ha.grown_iff he.grown, hforgets, ← ha.chain.head_free_iff, ← ha.head]
    have hempty (hfree : (s.sft fd).stclust = free) : L = [] :=
      ha.chain.head_free_iff.mp (ha.head.symm.trans hfree)
    constructor
    · rintro hnil ⟨hfree, -, -⟩
      have hsize' := ha.size
      rw [hempty hfree, List.length_nil, Nat.zero_mul] at hsize'
      obtain ⟨-, -, hle'⟩ | ⟨-, -, -, hlen, -⟩ | ⟨-, hne, -⟩ := he.result
      · replace hle' : (s.sft fd).posit ≤ (s.sft fd).size := hle'
        omega
      · rw [hnil hfree] at hlen
        exact Nat.not_lt_zero _ hlen
      · exact hne hrc
    · intro hn hfree
      obtain ⟨-, hL, -⟩ | ⟨-, -, -, hlen, -⟩ | ⟨-, hne, -⟩ := he.result
      · exact hL.trans (hempty hfree)
      · replace hlen : (s.sft fd).posit / s.vol.dpb.clusterSize < L'.length := hlen
        have hcount' := he.grown.count
        rw [hempty hfree, List.length_nil] at hcount'
        exact absurd ⟨hfree, hend, by omega⟩ hn
      · exact absurd hrc hne
  · rw [rwblock_write buffer hdef hrc hcount hover]
    have hidx : e.2.1.sftIdx = fd := by
      obtain ⟨_, _, _, _, _, heq⟩ := he.resized
      rw [heq]
      rfl
    have hw : XfrMode.write = .write → e.2.1.offset ≤ e.2.1.dir.size := fun _ => by
      obtain ⟨_, hle', -⟩ := he.enough h hrc ha.size
      rw [hoff]
      exact hle'
    obtain ⟨L'', k, hr⟩ := rwLoop_spec .write he.grown.kept.ok he.grown.chain
      he.placed (by rw [hidx]; exact hfd) hw 0 (Nat.le_refl count.toNat) buffer
    refine iff_of_true (hr.consistent he.grown.rechained hidx hfd hw ?_) ?_
    · rw [hsame.clusterSize]
      exact hsize
    · rw [hforgets]
      rintro ⟨-, hend, -⟩
      rw [hoff] at hover
      omega

/-- **On which ways out the SFT is left out of date.** -/
theorem consistent_iff (buffer : Bytes) (count : UInt16) (mode : XfrMode) :
    ((rwblock s fd buffer count mode).2.2.sft fd).Consistent s.vol
        (rwblock s fd buffer count mode).2.2.vol ↔
      ¬ Forgets s fd count mode := by
  cases mode with
  | read =>
    rw [rwblock_read]
    obtain ⟨L', k, hr⟩ := rwLoop_spec .read h ha.chain (ha.placed h hfd) hfd
      (fun hr => (nomatch hr)) 0 (Nat.le_refl count.toNat) buffer
    exact iff_of_true (hr.consistent (.refl h ha.chain) rfl hfd (fun hr => (nomatch hr)) ha.size)
      fun hf => (nomatch hf.1)
  | write =>
    by_cases hrc : (dosExtend s (sftToFnode s fd).modified (count == 0)).1 = success
    · by_cases hcount : count = 0
      · subst hcount
        exact truncate_consistent_iff h hfd ha hpos buffer hrc
      · rw [beq_false_of_ne hcount] at hrc
        exact write_consistent_iff h hfd ha hpos buffer hcount hrc
    · obtain ⟨hcons, hn⟩ := full_consistent h hfd ha hpos buffer hrc
      exact iff_of_true hcons hn

end

/-- A file of 1000 bytes in the clusters 2 and 3, of which the SFT 0 is at the second one although
its position is 100, and buffers that cannot be flushed. -/
def unflushed : System :=
  smallSystem (smallVolume (fun c => if c = 2 then 3 else if c = 3 then 0xFFF else 0)
    [some fun _ _ => 0]) (smallSft 2 1000 100 1 3) { smallSft 0 0 0 0 0 with count := 0 }

theorem unflushed_attached : (unflushed.sft 0).Attached unflushed.vol [2, 3] where
  chain := by decide
  head := rfl
  cached := Or.inr rfl
  size := by decide

theorem consistent_iff_unflushed :
    ((rwblock unflushed 0 (fun _ => 0) 10 .write).2.2.sft 0).Consistent unflushed.vol
        (rwblock unflushed 0 (fun _ => 0) 10 .write).2.2.vol ↔ ¬ Forgets unflushed 0 10 .write :=
  consistent_iff (smallVolume_ok _ _) (by decide) unflushed_attached (by decide) _ _ _

/-- A truncation that fails leaves the SFT at a cluster that is free. -/
theorem unflushed_not_consistent : unflushed.vol.Ok ∧
    (unflushed.sft 0).Attached unflushed.vol [2, 3] ∧
      ¬ ((rwblock unflushed 0 (fun _ => 0) 0 .write).2.2.sft 0).Consistent unflushed.vol
        (rwblock unflushed 0 (fun _ => 0) 0 .write).2.2.vol := by
  have hiff := truncate_consistent_iff (smallVolume_ok _ _) (by decide) unflushed_attached
    (by decide) (fun _ => 0) rfl
  exact ⟨smallVolume_ok _ _, unflushed_attached, fun h => hiff.mp h ⟨rfl, Or.inl (by decide)⟩⟩

end File
end BurdahDos
