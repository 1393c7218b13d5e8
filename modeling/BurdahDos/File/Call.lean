import BurdahDos.File.Loop
import Mathlib

/-!
# A call of `rwblock`

An SFT is *attached* to a chain if it knows where the chain begins, its cluster is the one at its
relative cluster, and the chain is long enough for the size.  A call begins by copying such an SFT
to an fnode placed in the chain, and copies the fnode back on most of its ways out.  Meanwhile the
chain may have become another one, `Rechained`: nothing else changes in the table.
-/

set_option autoImplicit false

namespace BurdahDos
namespace File

open Fat

variable {s : System} {v v' v'' : Volume} {L L' L'' : List ℕ} {fnp : FNode} {mode : XfrMode}

/-! ## Attached SFTs -/

/-- The SFT agrees with the table about a file that has the chain `L`. -/
structure Sft.Attached (v : Volume) (L : List ℕ) (f : Sft) : Prop where
  chain : v.IsChain L
  head : f.stclust = L.headD free
  cached : L = [] ∧ f.cuclust = free ∧ f.relclust = 0 ∨ L[f.relclust]? = some f.cuclust
  size : f.size ≤ L.length * v.dpb.clusterSize

theorem Sft.Attached.placed (h : s.vol.Ok) {fd : ℕ} (hfd : fd ≠ 0xff)
    (ha : (s.sft fd).Attached s.vol L) : Placed s.vol.dpb L (sftToFnode s fd) := by
  refine ⟨?_, ha.cached⟩
  have hidx : (sftToFnode s fd).sftIdx ≠ 0xff := hfd
  rw [FNode.head, if_neg hidx, ← ha.head]
  exact getdstart_setdstart h.dpb _ (ha.head ▸ ha.chain.head_cases)

theorem Placed.modified {d : Dpb} (h : Placed d L fnp) : Placed d L fnp.modified :=
  ⟨h.head, h.cached⟩

/-- The SFT that an fnode was copied back to. -/
theorem fnodeToSft_attached (hL : s.vol.IsChain L) (hp : Placed s.vol.dpb L fnp)
    (hidx : fnp.sftIdx ≠ 0xff) (hsize : fnp.dir.size ≤ L.length * s.vol.dpb.clusterSize) :
    ((fnodeToSft s fnp).sft fnp.sftIdx).Attached s.vol L := by
  have hhead := hp.head
  rw [FNode.head, if_neg hidx] at hhead
  simp only [fnodeToSft, Function.update_self]
  exact ⟨hL, hhead, hp.cached, hsize⟩

/-! ## What becomes of the chain -/

/-- The chain `L` has become `L'`.  What is only in one of the two was, or is, free. -/
structure Rechained (L L' : List ℕ) (v v' : Volume) : Prop where
  ok : v'.Ok
  same : v.dpb.Same v'.dpb
  chain : v'.IsChain L'
  new : ∀ c ∈ L', c ∉ L → v.entry c = free
  freed : ∀ c ∈ L, c ∉ L' → v'.entry c = free
  others : ∀ c, c ∉ L → c ∉ L' → v'.entry c = v.entry c

theorem Rechained.refl (h : v.Ok) (hL : v.IsChain L) : Rechained L L v v :=
  ⟨h, .refl _, hL, fun _ hc hn => absurd hc hn, fun _ hc hn => absurd hc hn, fun _ _ _ => rfl⟩

theorem Rechained.trans (h : Rechained L L' v v') (h' : Rechained L' L'' v' v'') :
    Rechained L L'' v v'' where
  ok := h'.ok
  same := h.same.trans h'.same
  chain := h'.chain
  new c hc hn := by
    by_cases hc' : c ∈ L'
    · exact h.new c hc' hn
    · rw [← h.others c hn hc']
      exact h'.new c hc hc'
  freed c hc hn := by
    by_cases hc' : c ∈ L'
    · exact h'.freed c hc' hn
    · rw [h'.others c hc' hn]
      exact h.freed c hc hc'
  others c hc hn := by
    by_cases hc' : c ∈ L'
    · rw [h'.freed c hc' hn, h.new c hc' hc]
    · rw [h'.others c hc' hn, h.others c hc hc']

theorem Grown.rechained (h : Grown L L' v v') : Rechained L L' v v' :=
  ⟨h.kept.ok, h.kept.same, h.chain, h.new, fun _ hc hn => absurd (h.pre.subset hc) hn,
    fun c _ hn => h.kept.entry c hn⟩

theorem Cut.rechained {k : ℕ} (h : Cut L k v v') : Rechained L (L.take k) v v' where
  ok := h.kept.ok
  same := h.kept.same
  chain := h.chain
  new _ hc hn := absurd (List.mem_of_mem_take hc) hn
  freed c hc hn := by
    rw [← List.take_append_drop k L, List.mem_append] at hc
    exact h.freed c (hc.resolve_left hn)
  others c hc _ := h.kept.entry c hc

/-- The clusters that were allocated are in the chain. -/
theorem Rechained.allocated (h : Rechained L L' v v') {c : ℕ} (hfree : v.entry c = free)
    (hused : v'.entry c ≠ free) : c ∈ L' := by
  by_contra hn
  by_cases hc : c ∈ L
  · exact hused (h.freed c hc hn)
  · exact hused ((h.others c hc hn).trans hfree)

/-! ## The ways through a call -/

/-- **A read** is the loop, and the fnode is copied back. -/
theorem rwblock_read (s : System) (fd : ℕ) (buffer : Bytes) (count : UInt16) :
    let r := rwLoop .read count.toNat s (sftToFnode s fd) buffer 0 count.toNat
    rwblock s fd buffer count .read = (r.1, r.2.2.1, fnodeToSft r.2.2.2 r.2.1) := by
  unfold rwblock rwTransfer
  dsimp only
  by_cases hcount : count.toNat = 0
  · rw [if_pos hcount, hcount]
    rfl
  · rw [if_neg hcount, if_neg fun h => (nomatch h.2)]

/-- A write that `dos_extend` fails to make room for. -/
theorem rwblock_full {fd : ℕ} (buffer : Bytes) {count : UInt16}
    (hrc : (dosExtend s (sftToFnode s fd).modified (count == 0)).1 ≠ success) :
    let r := dosExtend s (sftToFnode s fd).modified (count == 0)
    rwblock s fd buffer count .write = (0, buffer, fnodeToSft r.2.2 r.2.1) := by
  unfold rwblock
  dsimp only
  rw [if_pos hrc]

/-- A write of no bytes truncates the file. -/
theorem rwblock_truncate {fd : ℕ} (buffer : Bytes) {e : ℤ × FNode × System}
    (he : dosExtend s (sftToFnode s fd).modified true = e) (hrc : e.1 = success) :
    let r := shrinkFile e.2.2.vol (e.2.1.setSize e.2.1.offset)
    rwblock s fd buffer 0 .write =
      if r.1 < 0 then (deAccess, buffer, { e.2.2 with vol := r.2.2 })
      else (0, buffer, fnodeToSft { e.2.2 with vol := r.2.2 } r.2.1) := by
  have hzero : ((0 : UInt16) == 0) = true := rfl
  unfold rwblock rwTransfer
  dsimp only
  rw [hzero, he, if_neg (not_not_intro hrc), if_pos UInt16.toNat_zero]

/-- A write past the largest position there is. -/
theorem rwblock_overflow {fd : ℕ} (buffer : Bytes) {count : UInt16} {e : ℤ × FNode × System}
    (he : dosExtend s (sftToFnode s fd).modified false = e) (hrc : e.1 = success)
    (hcount : count ≠ 0) (hover : (e.2.1.offset + count.toNat) % 2 ^ 32 < e.2.1.offset) :
    rwblock s fd buffer count .write = (deHndlDskFull, buffer, e.2.2) := by
  have hzero : (count == 0) = false := beq_false_of_ne hcount
  have hcount' : count.toNat ≠ 0 := fun h => hcount (UInt16.toNat_inj.mp h)
  unfold rwblock rwTransfer
  dsimp only
  rw [hzero, he, if_neg (not_not_intro hrc), if_neg hcount', if_pos ⟨hover, rfl⟩]

/-- **A write** is the loop, after `dos_extend`, and the fnode is copied back. -/
theorem rwblock_write {fd : ℕ} (buffer : Bytes) {count : UInt16} {e : ℤ × FNode × System}
    (he : dosExtend s (sftToFnode s fd).modified false = e) (hrc : e.1 = success)
    (hcount : count ≠ 0) (hover : ¬ (e.2.1.offset + count.toNat) % 2 ^ 32 < e.2.1.offset) :
    let r := rwLoop .write count.toNat e.2.2 e.2.1 buffer 0 count.toNat
    rwblock s fd buffer count .write = (r.1, r.2.2.1, fnodeToSft r.2.2.2 r.2.1) := by
  have hzero : (count == 0) = false := beq_false_of_ne hcount
  have hcount' : count.toNat ≠ 0 := fun h => hcount (UInt16.toNat_inj.mp h)
  unfold rwblock rwTransfer
  dsimp only
  rw [hzero, he, if_neg (not_not_intro hrc), if_neg hcount', if_neg fun h => hover h.1]

/-! ## A small volume

For runs on fixed inputs. -/

/-- The DPB of a FAT12 volume with nine clusters of one sector. -/
def smallDpb : Dpb where
  unit := 0
  secsize := 512
  clsmask := 0
  shftcnt := 0
  dirents := 16
  data := 8
  size := 10
  fatsize := 1
  dirstrt := 7
  cluster := unknCluster
  xnfreeclst := xunknClstFree
  xdata := 8
  xsize := 10
  xrootclst := 0
  xcluster := unknCluster

theorem smallDpb_ok : smallDpb.Ok where
  kind := Or.inl rfl
  fat32 h := absurd h Bool.false_ne_true
  sectors := ⟨9, by decide⟩
  mask := rfl
  shift := Nat.zero_le 7
  fits := by decide
  hint := Or.inl rfl

/-- Such a volume with these entries in its table. -/
def smallVolume (fat : ℕ → ℕ) (outcomes : List Outcome) : Volume where
  dpb := smallDpb
  fat := fat
  disk := fun _ _ => 0
  fatOutcomes := []
  outcomes := outcomes

theorem smallVolume_ok (fat : ℕ → ℕ) (outcomes : List Outcome) : (smallVolume fat outcomes).Ok :=
  ⟨smallDpb_ok, rfl⟩

/-- An SFT that is open for reading and writing on the first entry of the root directory. -/
def smallSft (stclust size posit relclust cuclust : ℕ) : Sft where
  count := 1
  mode := 2
  attrib := 0x20
  fclean := true
  fdate := false
  dcb := 0
  stclust := stclust
  time := 0
  date := 0
  size := size
  posit := posit
  relclust := relclust
  dirsector := 7
  diridx := 0
  name := Vector.replicate 11 0x20
  cuclust := cuclust

/-- A system with two SFTs, SHARE being installed. -/
def smallSystem (v : Volume) (f f' : Sft) : System where
  vol := v
  sft := fun i => if i = 0 then f else f'
  total := 2
  shareInstalled := true
  time := 0
  date := 0

end File
end BurdahDos
