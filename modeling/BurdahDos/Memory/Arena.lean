import BurdahDos.Memory.Chain
import Mathlib

/-!
# The arena stays well formed

An arena is a chain of MCBs that tiles the range from `first_mcb` to its end.  Every operation keeps
that range tiled, and keeps the allocated blocks it is not about (`Kept`), as long as
`uppermem_root` tells the truth:

* a search of `DosMemAlloc` that begins there must find an MCB of the chain (or none at all);
* and `FreeProcessMem`, which links upper memory in for its search, must find that the chain ends
  there and the blocks of upper memory begin (`RootOk`).

It may not: the block at `uppermem_root` can be freed and joined to the block before it, after which
`DosUmbLink` unlinks nothing but says it did (`lostRoot_not_kept`).
-/

set_option autoImplicit false

namespace BurdahDos
namespace Memory

open Tiling

/-- The blocks `bs` tile the range from `first_mcb` to `e`, within the `2 ^ 16` segments. -/
structure Arena (s : State) (bs : List Mcb) (e : ℕ) : Prop where
  tiled : Tiled s.mem s.firstMcb bs e
  fits : e ≤ 2 ^ 16

/-! ## Allocating -/

/-- What one pass of `DosMemAlloc` ends with; a found block is free and large enough. -/
def Passed (size a e x : ℕ) (bs : List Mcb) : Pass → Prop
  | .fail _ _ mem => ∃ bs', Scanned a e x bs mem bs'
  | .again mem => ∃ bs', Scanned a e x bs mem bs'
  | .found f _ mem => ∃ bs', Scanned a e x bs mem bs' ∧
      ∃ h, At a bs' f h ∧ h.mPsp = freePsp ∧ size ≤ h.mSize

theorem afterSearch_spec (s : State) {size : ℕ} (mode : UInt16) {a e x : ℕ} {bs bs' : List Mcb}
    {t : Search} (h : Scanned a e x bs t.mem bs') (hs : Seen size a bs' t) :
    Passed size a e x bs (afterSearch s size mode t) := by
  rw [afterSearch]
  split
  · rename_i f hf
    refine ⟨bs', h, ?_⟩
    rcases Option.or_eq_some_iff.mp (Option.filter_eq_some_iff.mp hf).1 with hbig | ⟨-, hfound⟩
    · split at hbig
      · obtain ⟨hb, hle⟩ := Option.filter_eq_some_iff.mp hbig
        obtain ⟨k, hk, hfree⟩ := hs.biggest f hb
        rw [h.tiled.linked.mem_eq hk] at hle
        exact ⟨k, hk, hfree, of_decide_eq_true hle⟩
      · cases hbig
    · exact hs.found f hfound
  · split
    · exact ⟨_, h⟩
    · exact ⟨_, h⟩

/-- The search of `DosMemAlloc` begins at a block of the chain, unless it stops right there. -/
def SearchOk (s : State) (bs : List Mcb) (size : ℕ) (mode : UInt16) : Prop :=
  mcbValid (s.mem (searchFrom s size mode)) = true →
    ∃ h, At s.firstMcb bs (searchFrom s size mode) h

theorem pass_spec {s : State} {bs : List Mcb} {e : ℕ} (h : Arena s bs e) (size : ℕ)
    (mode : UInt16) (hok : SearchOk s bs size mode) :
    ∃ p, pass s size mode = some p ∧
      (p = .fail deMcbdestry none s.mem ∨
        Passed size s.firstMcb e (searchFrom s size mode) bs p) := by
  cases hv : mcbValid (s.mem (searchFrom s size mode)) with
  | false =>
    refine ⟨_, ?_, Or.inl rfl⟩
    obtain ⟨n, hn⟩ : ∃ n, chainFuel = n + 1 := ⟨2 ^ 16 - 1, rfl⟩
    rw [pass, hn, search, visit, hv]
    rfl
  | true =>
    obtain ⟨b, pre, suf, rfl, hx⟩ := hok hv
    have hseen : Seen size s.firstMcb pre ⟨s.mem, none, none⟩ :=
      ⟨fun _ h => (by cases h), fun _ h => (by cases h)⟩
    obtain ⟨p, hp, hs⟩ := search_spec size mode chainFuel h.tiled h.fits hseen
      ⟨b, pre, [], rfl, rfl⟩ (suf_lt_fuel h.tiled h.fits)
    rw [pass, hx, hp]
    cases p with
    | destroyed mem => exact ⟨_, rfl, Or.inr hs⟩
    | stopIt t =>
      obtain ⟨bs', hscan, f, k, hf, hk⟩ := hs
      exact ⟨_, rfl, Or.inr ⟨bs', hscan, k, by rw [hf]; exact hk⟩⟩
    | next t =>
      obtain ⟨bs', hscan, hseen⟩ := hs
      exact ⟨_, rfl, Or.inr (afterSearch_spec s mode hscan hseen)⟩

/-- What an operation leaves: an arena over the same range, with the allocated blocks it was not
about. -/
def Leaves (T : ℕ → UInt16 → Prop) (s : State) (bs : List Mcb) (e : ℕ) (s' : State) : Prop :=
  s'.firstMcb = s.firstMcb ∧ ∃ bs', Arena s' bs' e ∧ Keeps T s.firstMcb bs bs'

theorem finish_spec {s t : State} {bs : List Mcb} {e x size : ℕ} (mode : UInt16) {p : Pass}
    (hfirst : t.firstMcb = s.firstMcb) (he : e ≤ 2 ^ 16) (hp : Passed size s.firstMcb e x bs p)
    (hagain : ∀ mem, p ≠ .again mem) :
    ∃ r, finish t size mode p = some r ∧ Leaves noTarget s bs e r.2 := by
  cases p with
  | fail rc asize mem =>
    obtain ⟨bs', h⟩ := hp
    exact ⟨_, rfl, hfirst, bs', ⟨hfirst ▸ h.tiled, he⟩, h.keeps⟩
  | again mem => exact absurd rfl (hagain mem)
  | found f asize mem =>
    obtain ⟨bs', h, b, ⟨pre, suf, rfl, rfl⟩, hfree, hsize⟩ := hp
    obtain ⟨cs, hcs, hk⟩ := carve_spec mode t.cuPsp h.tiled he hfree hsize
    exact ⟨_, rfl, hfirst, cs, ⟨by rw [hfirst]; exact hcs, he⟩, h.keeps.trans hk⟩

/-- When a pass searches again. -/
theorem pass_again {s : State} {size : ℕ} {mode : UInt16} {mem : Mem}
    (hp : pass s size mode = some (.again mem)) :
    mode ≠ largest ∧ mode &&& firstFitU ≠ 0 ∧ s.upperLinked = true := by
  rw [pass] at hp
  split at hp
  · cases hp
  · cases hp
  · cases hp
  · replace hp := Option.some.inj hp
    rw [afterSearch] at hp
    split at hp
    · cases hp
    · split at hp
      · assumption
      · cases hp

/-- It began at `uppermem_root`. -/
theorem searchFrom_eq_root {s : State} {mode : UInt16} (size : ℕ)
    (h : mode ≠ largest ∧ mode &&& firstFitU ≠ 0 ∧ s.upperLinked = true) :
    searchFrom s size mode = s.uppermemRoot := by
  have hbits : mode &&& (firstFitUo ||| firstFitU) ≠ 0 := by
    intro h0
    refine h.2.1 ?_
    rw [show firstFitU = (firstFitUo ||| firstFitU) &&& firstFitU by decide, ← UInt16.and_assoc, h0]
    decide
  simp [searchFrom, h.1, h.2.2, hbits]

theorem searchFrom_eq (s : State) (size : ℕ) (mode : UInt16) :
    searchFrom s size mode = s.uppermemRoot ∨ searchFrom s size mode = s.firstMcb :=
  ite_eq_or_eq ..

/-- The second search has no reason for a third one. -/
theorem clear_firstFitU (mode : UInt16) : (mode &&& ~~~firstFitU) &&& firstFitU = 0 := by
  rw [UInt16.and_assoc, show ~~~firstFitU &&& firstFitU = 0 by decide, UInt16.and_zero]

theorem at_first {mem : Mem} {a e : ℕ} {bs : List Mcb} (h : Tiled mem a bs e) :
    ∃ b, At a bs a b := by
  obtain ⟨b, cs, rfl⟩ := List.exists_cons_of_ne_nil h.ended.ne_nil
  exact ⟨b, [], cs, rfl, rfl⟩

/-- **What `DosMemAlloc` does**: it ends, and leaves all allocated blocks. -/
theorem dosMemAlloc_spec {s : State} {bs : List Mcb} {e : ℕ} (h : Arena s bs e) (size : ℕ)
    (mode : UInt16) (hok : SearchOk s bs size mode) :
    ∃ r, dosMemAlloc s size mode = some r ∧ Leaves noTarget s bs e r.2 := by
  obtain ⟨p, hp, hpass⟩ := pass_spec h size mode hok
  rw [dosMemAlloc, hp]
  rcases hpass with rfl | hpass
  · exact ⟨_, rfl, rfl, bs, h, Keeps.refl _ _ _⟩
  · cases p with
    | fail => exact finish_spec mode rfl h.fits hpass (fun _ => nofun)
    | found => exact finish_spec mode rfl h.fits hpass (fun _ => nofun)
    | again mem =>
      obtain ⟨bs', hscan⟩ := hpass
      have hroot := searchFrom_eq_root size (pass_again hp)
      rw [hroot] at hscan
      have hs' : Arena { s with mem := mem } bs' e := ⟨hscan.tiled, h.fits⟩
      have hok' : SearchOk { s with mem := mem } bs' size (mode &&& ~~~firstFitU) := by
        intro _
        rcases searchFrom_eq { s with mem := mem } size (mode &&& ~~~firstFitU) with hx | hx
        · rw [hx]; exact hscan.start
        · rw [hx]; exact at_first hscan.tiled
      obtain ⟨q, hq, hpass'⟩ := pass_spec hs' size _ hok'
      have hagain : ∀ mem, q ≠ .again mem := by
        rintro mem rfl
        exact (pass_again hq).2.1 (clear_firstFitU mode)
      simp only [hq]
      rcases hpass' with rfl | hpass'
      · exact ⟨_, rfl, rfl, bs', hs', hscan.keeps⟩
      · obtain ⟨r, hr, hfirst, cs, hcs, hk⟩ :=
          finish_spec (s := { s with mem := mem }) _ rfl h.fits hpass' hagain
        exact ⟨r, hr, hfirst, cs, hcs, hscan.keeps.trans hk⟩

/-! ## Freeing and resizing -/

/-- The operations on one block. -/
def onlyAt (p : ℕ) : ℕ → UInt16 → Prop := fun x _ => x = p

/-- A change of owners and names moves no block. -/
theorem Arena.reown {s : State} {bs : List Mcb} {e : ℕ} (h : Arena s bs e) {mem : Mem}
    {T : ℕ → UInt16 → Prop} (hsize : ∀ x, (mem x).mSize = (s.mem x).mSize)
    (htype : ∀ x, (mem x).mType = (s.mem x).mType)
    (hpsp : ∀ x, ¬ T x (s.mem x).mPsp → (mem x).mPsp = (s.mem x).mPsp) :
    ∃ bs', Arena { s with mem := mem } bs' e ∧ Keeps T s.firstMcb bs bs' := by
  obtain ⟨bs', hbs', hat⟩ := h.tiled.rewrite hsize (fun x hx => (htype x).trans hx)
    fun x hx => (htype x).trans hx
  refine ⟨bs', ⟨hbs', h.fits⟩, fun x b hx _ hT => ⟨mem x, hat x b hx, ?_, ?_⟩⟩
  · rw [hsize, h.tiled.linked.mem_eq hx]
  · rw [← h.tiled.linked.mem_eq hx] at hT ⊢
    exact hpsp x hT

/-- **What `DosMemFree` does**: wherever it is told to free, it only takes an owner away. -/
theorem dosMemFree_spec {s : State} {bs : List Mcb} {e : ℕ} (h : Arena s bs e) (para : ℕ) :
    Leaves (onlyAt para) s bs e (dosMemFree s para).2 := by
  rw [dosMemFree]
  split
  · exact ⟨rfl, bs, h, Keeps.refl _ _ _⟩
  · split
    · exact ⟨rfl, bs, h, Keeps.refl _ _ _⟩
    · split
      · exact ⟨rfl, bs, h, Keeps.refl _ _ _⟩
      · refine ⟨rfl, h.reown (fun x => ?_) (fun x => ?_) fun x hx => ?_⟩ <;>
          rw [modify_apply] <;> split
        all_goals simp_all [onlyAt]

section Change

variable {s : State} {pre suf : List Mcb} {b : Mcb} {e : ℕ}

/-- A block of the chain gets another owner. -/
theorem chown_spec (h : Arena s (pre ++ b :: suf) e) (psp : UInt16) :
    Leaves (onlyAt (s.firstMcb + total pre)) s (pre ++ b :: suf) e
      { s with mem := s.mem.modify (s.firstMcb + total pre) fun m => { m with mPsp := psp } } := by
  refine ⟨rfl, h.reown (fun x => ?_) (fun x => ?_) fun x hx => ?_⟩ <;>
    rw [modify_apply] <;> split
  all_goals simp_all [onlyAt]

theorem cutDown_apply {mem : Mem} {p size : ℕ} (hb : mem p = b) (hp : p + (b.mSize + 1) ≤ 2 ^ 16)
    (hlt : size < b.mSize) (x : ℕ) :
    cutDown mem p (p + (size + 1)) size x =
      if x = p then { b with mType := mcbNormal, mSize := size }
      else if x = p + (size + 1) then
        { mem x with mType := b.mType, mSize := b.mSize - (size + 1), mPsp := freePsp }
      else mem x := by
  have hrest : sub16 b.mSize (size + 1) = b.mSize - (size + 1) := sub16_eq (by omega) (by omega)
  have hne : p ≠ p + (size + 1) := by omega
  simp only [cutDown, modify_apply, if_true, hb, hrest, hne, hne.symm, if_false]
  split
  · simp_all
  · split <;> simp_all

theorem cutDown_spec (h : Arena s (pre ++ b :: suf) e) {size : ℕ} (hlt : size < b.mSize) :
    ∃ b₁ b₂, Tiled (cutDown s.mem (s.firstMcb + total pre)
        (s.firstMcb + total pre + (size + 1)) size) s.firstMcb (pre ++ b₁ :: b₂ :: suf) e ∧
      Keeps (onlyAt (s.firstMcb + total pre)) s.firstMcb (pre ++ b :: suf)
        (pre ++ b₁ :: b₂ :: suf) ∧ b₁.mSize = size ∧ b₂.mPsp = freePsp := by
  have hend := block_end h.tiled
  have hfits := h.fits
  have happ := fun x => cutDown_apply (mem_block h.tiled) (by omega) hlt x
  have hne : s.firstMcb + total pre + (size + 1) ≠ s.firstMcb + total pre := by omega
  obtain ⟨htiled, hkeep⟩ := split_spec h.tiled ((happ _).trans (if_pos rfl))
    ((happ _).trans ((if_neg hne).trans (if_pos rfl))) (by simp only; omega) rfl rfl
    fun x hx hx' => (happ x).trans ((if_neg hx).trans (if_neg hx'))
  exact ⟨_, _, htiled, hkeep _ (Or.inr rfl), rfl, rfl⟩

theorem Leaves.trans {T : ℕ → UInt16 → Prop} {s t u : State} {bs cs : List Mcb} {e : ℕ}
    (hfirst : t.firstMcb = s.firstMcb) (hk : Keeps T s.firstMcb bs cs) (h : Leaves T t cs e u) :
    Leaves T s bs e u := by
  obtain ⟨h1, ds, hds, hk'⟩ := h
  exact ⟨h1.trans hfirst, ds, hds, hk.trans (hfirst ▸ hk')⟩

/-- **What the shrinking of a block does**: its rest becomes a free block, joined to those that
follow. -/
theorem shrinkTo_spec (h : Arena s (pre ++ b :: suf) e) (size : ℕ) :
    ∃ r, shrinkTo s (s.firstMcb + total pre) size = some r ∧
      Leaves (onlyAt (s.firstMcb + total pre)) s (pre ++ b :: suf) e r.2 := by
  have hend := block_end h.tiled
  have hfits := h.fits
  rw [shrinkTo, mem_block h.tiled]
  split
  · rename_i hlt
    obtain ⟨b₁, b₂, ht, hk, hsize, hfree⟩ := cutDown_spec h hlt
    have hq : nxtMCBsize (s.firstMcb + total pre) size = s.firstMcb + total pre + (size + 1) :=
      Nat.mod_eq_of_lt (by omega)
    -- the rest is the block after `pre` and the block that stays
    have hrest : s.firstMcb + total pre + (size + 1) = s.firstMcb + total (pre ++ [b₁]) := by
      simp only [total_append, total, size_mcb, hsize]; omega
    have ht' : Tiled (cutDown s.mem (s.firstMcb + total pre)
        (s.firstMcb + total pre + (size + 1)) size) s.firstMcb ((pre ++ [b₁]) ++ b₂ :: suf) e := by
      simpa using ht
    obtain ⟨rc, mem', b', suf', heq, hj⟩ := joinMCBs_spec ht' h.fits
    have hk' := hj.keeps (onlyAt (s.firstMcb + total pre)) (Or.inl hfree)
    have harena : Arena { s with mem := mem' } (pre ++ b₁ :: b' :: suf') e :=
      ⟨by simpa using hj.tiled, h.fits⟩
    have hkeeps : Keeps (onlyAt (s.firstMcb + total pre)) s.firstMcb (pre ++ b :: suf)
        (pre ++ b₁ :: b' :: suf') := hk.trans (by simpa using hk')
    rw [← hrest] at heq
    simp only [hq, heq]
    split
    · exact ⟨_, rfl, rfl, _, harena, hkeeps⟩
    · exact ⟨_, rfl, Leaves.trans rfl hkeeps (chown_spec harena s.cuPsp)⟩
  · exact ⟨_, rfl, chown_spec h s.cuPsp⟩

/-- **What `DosMemChange` does** on a block of the chain. -/
theorem dosMemChange_spec (h : Arena s (pre ++ b :: suf) e) {para : ℕ} (size : ℕ)
    (hpara : sub16 para 1 = s.firstMcb + total pre) :
    ∃ r, dosMemChange s para size = some r ∧
      Leaves (onlyAt (sub16 para 1)) s (pre ++ b :: suf) e r.2 := by
  rw [dosMemChange, hpara, mem_block h.tiled]
  simp only
  split
  · exact ⟨_, rfl, rfl, _, h, Keeps.refl _ _ _⟩
  · split
    · obtain ⟨rc, mem', b', suf', heq, hj⟩ := joinMCBs_spec h.tiled h.fits
      have hk := hj.keeps (onlyAt (s.firstMcb + total pre)) (Or.inr rfl)
      have harena : Arena { s with mem := mem' } (pre ++ b' :: suf') e := ⟨hj.tiled, h.fits⟩
      rw [heq]
      simp only
      split
      · exact ⟨_, rfl, rfl, _, harena, hk⟩
      · split
        · exact ⟨_, rfl, rfl, _, harena, hk⟩
        · obtain ⟨r, hr, hleaves⟩ := shrinkTo_spec harena size
          exact ⟨r, hr, Leaves.trans rfl hk hleaves⟩
    · exact shrinkTo_spec h size

end Change

/-! ## The end of a process -/

/-- The blocks owned by a process. -/
def ownedBy (ps : UInt16) : ℕ → UInt16 → Prop := fun _ p => p = ps

/-- Headers of `ps` have lost their owner, and nothing else has changed. -/
structure Freed (ps : UInt16) (mem mem' : Mem) : Prop where
  size : ∀ x, (mem' x).mSize = (mem x).mSize
  type : ∀ x, (mem' x).mType = (mem x).mType
  psp : ∀ x, (mem x).mPsp ≠ ps → (mem' x).mPsp = (mem x).mPsp

theorem Freed.refl (ps : UInt16) (mem : Mem) : Freed ps mem mem :=
  ⟨fun _ => rfl, fun _ => rfl, fun _ _ => rfl⟩

theorem Freed.trans {ps : UInt16} {mem mem' mem'' : Mem} (h : Freed ps mem mem')
    (h' : Freed ps mem' mem'') : Freed ps mem mem'' where
  size x := (h'.size x).trans (h.size x)
  type x := (h'.type x).trans (h.type x)
  psp x hx := (h'.psp x (by rwa [h.psp x hx])).trans (h.psp x hx)

/-- `DosMemFree` on a block of `ps`. -/
theorem dosMemFree_freed {ps : UInt16} {s : State} {para : ℕ} (h : (s.mem para).mPsp = ps) :
    ∃ mem, (dosMemFree s para).2 = { s with mem := mem } ∧ Freed ps s.mem mem := by
  rw [dosMemFree]
  split
  · exact ⟨s.mem, rfl, Freed.refl _ _⟩
  · split
    · exact ⟨s.mem, rfl, Freed.refl _ _⟩
    · split
      · exact ⟨s.mem, rfl, Freed.refl _ _⟩
      · refine ⟨_, rfl, fun x => ?_, fun x => ?_, fun x hx => ?_⟩ <;>
          rw [modify_apply] <;> split
        all_goals simp_all

/-- Freed blocks do not move. -/
theorem Freed.arena {ps : UInt16} {s : State} {bs : List Mcb} {e : ℕ} {mem : Mem}
    (hf : Freed ps s.mem mem) (h : Arena s bs e) :
    ∃ bs', Arena { s with mem := mem } bs' e ∧ Keeps (ownedBy ps) s.firstMcb bs bs' :=
  h.reown hf.size hf.type hf.psp

/-- The chain after freeing, split at the same block. -/
theorem Freed.split {ps : UInt16} {mem mem' : Mem} {a e : ℕ} {pre suf : List Mcb} {b : Mcb}
    (hf : Freed ps mem mem') (h : Tiled mem a (pre ++ b :: suf) e) :
    ∃ pre' b' suf', Tiled mem' a (pre' ++ b' :: suf') e ∧ total pre' = total pre ∧
      b'.mSize = b.mSize ∧ b'.mType = b.mType ∧ total suf' = total suf := by
  obtain ⟨bs', hbs', hat⟩ := h.rewrite hf.size (fun x hx => (hf.type x).trans hx)
    fun x hx => (hf.type x).trans hx
  obtain ⟨pre', suf', rfl, hpos⟩ := hat _ b ⟨pre, suf, rfl, rfl⟩
  have hb := mem_block h
  have hend := block_end h
  have hend' := block_end hbs'
  rw [hf.size, hb] at hend'
  exact ⟨pre', _, suf', hbs', by omega, by rw [hf.size, hb], by rw [hf.type, hb], by omega⟩

/-- **What the loop of `FreeProcessMem` does** on the rest of a chain: it frees, and reads the chain
to its end if all its blocks are valid. -/
theorem freeLoop_spec (ps : UInt16) (fuel : ℕ) {s : State} {pre suf : List Mcb} {b : Mcb} {e : ℕ}
    (h : Arena s (pre ++ b :: suf) e) (hfuel : total suf < fuel) :
    ∃ done mem, freeLoop ps fuel (s.firstMcb + total pre) s = some (done, { s with mem := mem }) ∧
      Freed ps s.mem mem ∧ (b.mSize ≠ 0xffff → done = true) := by
  induction fuel generalizing pre b suf s with
  | zero => exact absurd hfuel (Nat.not_lt_zero _)
  | succ fuel ih =>
    have hb := mem_block h.tiled
    rw [freeLoop, hb]
    split
    · rename_i hinvalid
      refine ⟨false, s.mem, rfl, Freed.refl _ _, fun hsize => ?_⟩
      rw [block_valid h.tiled hsize] at hinvalid
      exact absurd hinvalid (by decide)
    · obtain ⟨mem, hmem, hfreed⟩ : ∃ mem, (if b.mPsp = ps then
          (dosMemFree s (s.firstMcb + total pre)).2 else s) = { s with mem := mem } ∧
            Freed ps s.mem mem := by
        split
        · rename_i hps
          exact dosMemFree_freed (by rw [hb, hps])
        · exact ⟨s.mem, rfl, Freed.refl _ _⟩
      obtain ⟨pre', b', suf', ht, hpre, -, htype, hsuf⟩ := hfreed.split h.tiled
      rw [hmem]
      simp only
      rw [← hpre, mem_block ht]
      split
      · exact ⟨true, mem, rfl, hfreed, fun _ => rfl⟩
      · rename_i hlast
        rcases block_type ht with ⟨-, hl⟩ | ⟨hne, -⟩
        · exact absurd hl hlast
        · obtain ⟨c, cs, rfl⟩ := List.exists_cons_of_ne_nil hne
          rw [nxtMCB_eq ht h.fits hne]
          have harena : Arena { s with mem := mem } ((pre' ++ [b']) ++ c :: cs) e :=
            ⟨by simpa using ht, h.fits⟩
          obtain ⟨done, mem', heq, hfreed', hdone⟩ := ih harena (by
            simp only [total] at hsuf; omega)
          refine ⟨done, mem', heq, hfreed.trans hfreed', fun _ => hdone ?_⟩
          refine block_small harena.tiled h.fits ?_
          simp only [total_append, total]
          omega

/-- The walk of `DosUmbLink` along blocks that are neither the last one nor at the root. -/
theorem umbWalk_spec {mem : Mem} {root : ℕ} (fuel : ℕ) {a e : ℕ} {pre mid suf : List Mcb} {b : Mcb}
    (q : Option ℕ) (h : Tiled mem a (pre ++ (mid ++ b :: suf)) e) (he : e ≤ 2 ^ 16)
    (hsmall : ∀ c ∈ mid, c.mSize ≠ 0xffff) (hroot : a + total (pre ++ mid) ≤ root)
    (hstop : a + total (pre ++ mid) = root ∨ b.mType = mcbLast) (hfuel : mid.length < fuel) :
    ∃ q', umbWalk mem root fuel (a + total pre) q = some (some (a + total (pre ++ mid), q')) ∧
      ((mid = [] ∧ q' = q) ∨ ∃ r z, mid = r ++ [z] ∧ q' = some (a + total (pre ++ r))) := by
  induction fuel generalizing pre mid q with
  | zero => exact absurd hfuel (Nat.not_lt_zero _)
  | succ fuel ih =>
    rw [umbWalk]
    cases mid with
    | nil =>
      rw [mem_block h, if_neg]
      · exact ⟨q, by simp, Or.inl ⟨rfl, rfl⟩⟩
      · rintro ⟨h1, h2⟩
        rcases hstop with hs | hs
        · exact h1 (by simpa using hs)
        · exact h2 hs
    | cons c cs =>
      have h' : Tiled mem a (pre ++ c :: (cs ++ b :: suf)) e := h
      have hne : cs ++ b :: suf ≠ [] := by simp
      have hnormal : c.mType ≠ mcbLast := by
        rcases block_type h' with ⟨hs, -⟩ | ⟨-, ht⟩
        · exact absurd hs hne
        · rw [ht]; decide
      have hlt : a + total pre ≠ root := by
        simp only [total_append, total] at hroot
        omega
      have h'' : Tiled mem a ((pre ++ [c]) ++ (cs ++ b :: suf)) e := by simpa using h
      have hassoc : pre ++ c :: cs = (pre ++ [c]) ++ cs := by simp
      rw [mem_block h', if_pos ⟨hlt, hnormal⟩,
        block_valid h' (hsmall c List.mem_cons_self), nxtMCB_eq h' he hne]
      rw [hassoc] at hroot hstop ⊢
      obtain ⟨q', hq', hor⟩ := ih (some (a + total pre)) h''
        (fun d hd => hsmall d (List.mem_cons_of_mem _ hd)) hroot hstop
        (by simp only [List.length_cons] at hfuel; omega)
      refine ⟨q', by simpa using hq', Or.inr ?_⟩
      rcases hor with ⟨rfl, rfl⟩ | ⟨r, z, rfl, rfl⟩
      · exact ⟨[], c, rfl, by simp⟩
      · exact ⟨c :: r, z, by simp, by simp⟩

/-- `FreeProcessMem` finds upper memory where `uppermem_root` says, if it has to link it in: the
chain ends there, and the chain of upper memory begins. -/
def RootOk (s : State) : Prop :=
  s.uppermemRoot ≠ 0xffff → s.uppermemLink &&& 1 = 0 →
    ∃ low upper e, Tiled s.mem s.firstMcb low s.uppermemRoot ∧
      Tiled s.mem s.uppermemRoot upper e ∧ e ≤ 2 ^ 16

section Link

variable {s : State} {low upper : List Mcb} {z : Mcb} {e : ℕ}

/-- Linking upper memory: the last low block announces the blocks of upper memory. -/
theorem dosUmbLink_one (hroot : s.uppermemRoot ≠ 0xffff) (hlink : s.uppermemLink &&& 1 = 0)
    (hlow : Tiled s.mem s.firstMcb (low ++ [z]) s.uppermemRoot)
    (hupper : Tiled s.mem s.uppermemRoot upper e) (he : e ≤ 2 ^ 16) :
    dosUmbLink s 1 = some { s with
      mem := s.mem.modify (s.firstMcb + total low) fun m => { m with mType := mcbNormal }
      uppermemLink := 1 } := by
  have hend := block_end hlow
  have hup := length_le_total upper
  have hpos := List.length_pos_iff.mpr hupper.ended.ne_nil
  have hfills := hupper.fills
  simp only [total] at hend
  have hlast : z.mType = mcbLast := by
    rcases block_type hlow with ⟨-, ht⟩ | ⟨hs, -⟩
    · exact ht
    · exact absurd rfl hs
  have hsmall : ∀ c ∈ low, c.mSize ≠ 0xffff := by
    intro c hc
    obtain ⟨r, t, rfl⟩ := List.append_of_mem hc
    simp only [total_append, total, size_mcb] at hend
    omega
  have hfuel : low.length < chainFuel := by
    have := length_le_total low
    rw [chainFuel]
    omega
  have hlow' : Tiled s.mem s.firstMcb ([] ++ (low ++ z :: [])) s.uppermemRoot := hlow
  have hle : s.firstMcb + total ([] ++ low) ≤ s.uppermemRoot := by
    rw [List.nil_append]; omega
  obtain ⟨q', hwalk, -⟩ :=
    umbWalk_spec chainFuel none hlow' (by omega) hsmall hle (Or.inr hlast) hfuel
  rw [dosUmbLink, if_neg hroot, if_neg (by rw [hlink]; decide)]
  simp only [total, List.nil_append, Nat.add_zero] at hwalk
  rw [hwalk]
  simp only [mem_block hlow, hlast, if_true]
  rfl

/-- After that the two chains are one. -/
theorem linked_tiled (hlow : Tiled s.mem s.firstMcb (low ++ [z]) s.uppermemRoot)
    (hupper : Tiled s.mem s.uppermemRoot upper e) :
    Tiled (s.mem.modify (s.firstMcb + total low) fun m => { m with mType := mcbNormal })
      s.firstMcb (low ++ ({ z with mType := mcbNormal } :: upper)) e := by
  have hend := block_end hlow
  simp only [total] at hend
  obtain ⟨hl, hz⟩ := linked_append.mp hlow.linked
  refine ⟨linked_append.mpr ⟨hl.congr fun x _ hx => ?_, ?_, ?_⟩, ?_, ?_⟩
  · rw [modify_apply, if_neg (by omega)]
  · rw [modify_apply, if_pos rfl, mem_block hlow]
  · rw [show s.firstMcb + total low + (Header.size ({ z with mType := mcbNormal } : Mcb) + 1) =
      s.uppermemRoot by simp only [size_mcb]; omega]
    exact hupper.linked.congr fun x hx _ => by rw [modify_apply, if_neg (by omega)]
  · have hlowEnds := (ended_append (List.cons_ne_nil z [])).mp hlow.ended
    refine (ended_append (List.cons_ne_nil _ _)).mpr ⟨hlowEnds.1, ?_⟩
    obtain ⟨u, us, rfl⟩ := List.exists_cons_of_ne_nil hupper.ended.ne_nil
    exact ⟨rfl, hupper.ended⟩
  · have := hupper.fills
    simp only [total_append, total, size_mcb]
    omega

/-- Unlinking upper memory, when its first block is in the chain: the block before it is the last
one again. -/
theorem dosUmbLink_zero {pre suf : List Mcb} {b c : Mcb} (hroot : s.uppermemRoot ≠ 0xffff)
    (hlink : s.uppermemLink = 1) (h : Tiled s.mem s.firstMcb (pre ++ b :: c :: suf) e)
    (he : e ≤ 2 ^ 16) (hpos : s.firstMcb + total (pre ++ [b]) = s.uppermemRoot) :
    dosUmbLink s 0 = some { s with
      mem := s.mem.modify (s.firstMcb + total pre) fun m => { m with mType := mcbLast }
      uppermemLink := 0 } := by
  have hend := block_end h
  have htype : b.mType = mcbNormal := by
    rcases block_type h with ⟨hs, -⟩ | ⟨-, ht⟩
    · exact absurd hs (List.cons_ne_nil c suf)
    · exact ht
  have hroom : total (pre ++ [b]) < 2 ^ 16 - 1 := by
    simp only [total_append, total, size_mcb] at hpos hend ⊢
    omega
  have hsmall : ∀ d ∈ pre ++ [b], d.mSize ≠ 0xffff := by
    intro d hd
    obtain ⟨r, t, hr⟩ := List.append_of_mem hd
    rw [hr] at hroom
    simp only [total_append, total, size_mcb] at hroom
    omega
  have hfuel : (pre ++ [b]).length < chainFuel := by
    have := length_le_total (pre ++ [b])
    rw [chainFuel]
    omega
  have h' : Tiled s.mem s.firstMcb ([] ++ ((pre ++ [b]) ++ c :: suf)) e := by simpa using h
  obtain ⟨q', hwalk, hq⟩ := umbWalk_spec chainFuel none h' he hsmall hpos.le (Or.inl hpos) hfuel
  have hq' : q' = some (s.firstMcb + total pre) := by
    rcases hq with ⟨hnil, -⟩ | ⟨r, d, hr, rfl⟩
    · simp at hnil
    · obtain ⟨rfl, -⟩ := List.append_inj' hr rfl
      rfl
  simp only [List.nil_append, total, Nat.add_zero, hpos] at hwalk
  rw [dosUmbLink, if_neg hroot, if_neg (by rw [hlink]; decide), hwalk, hq']
  simp only [mem_block h, htype, if_true, and_self]

/-- The loop of `FreeProcessMem` over a whole chain of more than one block. -/
theorem freeLoop_first {bs : List Mcb} (h : Arena s bs e) (hlen : 2 ≤ bs.length) (ps : UInt16) :
    ∃ mem, freeLoop ps chainFuel s.firstMcb s = some (true, { s with mem := mem }) ∧
      Freed ps s.mem mem := by
  obtain ⟨b, suf, rfl⟩ := List.exists_cons_of_ne_nil h.tiled.ended.ne_nil
  have h' : Arena s ([] ++ b :: suf) e := h
  have hend := block_end h'.tiled
  have hfits := h.fits
  have hsuf := length_le_total suf
  simp only [total, List.length_cons] at hend hlen
  obtain ⟨done, mem, hloop, hfreed, hdone⟩ := freeLoop_spec ps chainFuel h' (by
    rw [chainFuel]; omega)
  obtain rfl := hdone (by omega)
  exact ⟨mem, hloop, hfreed⟩

/-- What becomes of the last low block while upper memory is linked. -/
theorem Freed.unlink {ps : UInt16} {mem mem' : Mem} {p : ℕ} (hlast : (mem p).mType = mcbLast)
    (h : Freed ps (mem.modify p fun m => { m with mType := mcbNormal }) mem') :
    Freed ps mem (mem'.modify p fun m => { m with mType := mcbLast }) where
  size x := by
    have := h.size x
    rw [modify_apply] at this ⊢
    split at this <;> simp_all
  type x := by
    have := h.type x
    rw [modify_apply] at this ⊢
    split at this <;> simp_all
  psp x hx := by
    have := h.psp x
    rw [modify_apply] at this ⊢
    split at this <;> simp_all

/-- **Linking, freeing and unlinking** changes the owners of the freed blocks only. -/
theorem freeProcessMem_linking (hroot : s.uppermemRoot ≠ 0xffff) (hlink : s.uppermemLink &&& 1 = 0)
    (hlow : Tiled s.mem s.firstMcb (low ++ [z]) s.uppermemRoot)
    (hupper : Tiled s.mem s.uppermemRoot upper e) (he : e ≤ 2 ^ 16) (ps : UInt16) :
    ∃ mem, freeProcessMem s ps = some (success, { s with mem := mem, uppermemLink := 0 }) ∧
      Freed ps s.mem mem := by
  have hend := block_end hlow
  have hlen : 2 ≤ (low ++ ({ z with mType := mcbNormal } :: upper)).length := by
    have := List.length_pos_iff.mpr hupper.ended.ne_nil
    simp only [List.length_append, List.length_cons]
    omega
  have hlast : (s.mem (s.firstMcb + total low)).mType = mcbLast := by
    rw [mem_block hlow]
    rcases block_type hlow with ⟨-, ht⟩ | ⟨hs, -⟩
    · exact ht
    · exact absurd rfl hs
  have hone := dosUmbLink_one hroot hlink hlow hupper he
  have hlinked := linked_tiled hlow hupper
  generalize hs₁ : ({ s with
      mem := s.mem.modify (s.firstMcb + total low) fun m => { m with mType := mcbNormal }
      uppermemLink := 1 } : State) = s₁ at hone
  have harena : Arena s₁ (low ++ ({ z with mType := mcbNormal } :: upper)) e := by
    rw [← hs₁]; exact ⟨hlinked, he⟩
  obtain ⟨mem₂, hloop, hfreed⟩ := freeLoop_first harena hlen ps
  -- the chain after freeing, split at the last low block
  obtain ⟨pre, b, suf, ht, hpre, hsize, -, hsuf⟩ := hfreed.split harena.tiled
  have hne : suf ≠ [] := by
    rintro rfl
    have := List.length_pos_iff.mpr hupper.ended.ne_nil
    have := length_le_total upper
    simp only [total] at hsuf
    omega
  obtain ⟨c, cs, rfl⟩ := List.exists_cons_of_ne_nil hne
  have hzero := dosUmbLink_zero (s := { s₁ with mem := mem₂ }) (by rw [← hs₁]; exact hroot)
    (by rw [← hs₁]) ht he (by
      simp only [total_append, total, size_mcb, hpre, hsize, ← hs₁] at hend ⊢
      omega)
  refine ⟨mem₂.modify (s.firstMcb + total low) fun m => { m with mType := mcbLast }, ?_, ?_⟩
  · rw [freeProcessMem, hone]
    simp only [hloop, hlink, hzero, hpre]
    rw [← hs₁]
  · exact Freed.unlink hlast (by rw [← hs₁] at hfreed; exact hfreed)

end Link

/-- **What `FreeProcessMem` does**: it takes the blocks of one process away from it. -/
theorem freeProcessMem_spec {s : State} {bs : List Mcb} {e : ℕ} (h : Arena s bs e) (ps : UInt16)
    (hok : RootOk s) :
    ∃ r, freeProcessMem s ps = some r ∧ Leaves (ownedBy ps) s bs e r.2 := by
  by_cases hlinking : s.uppermemRoot ≠ 0xffff ∧ s.uppermemLink &&& 1 = 0
  · obtain ⟨low, upper, e', hlow, hupper, he'⟩ := hok hlinking.1 hlinking.2
    obtain ⟨low, z, rfl⟩ := List.eq_nil_or_concat' low |>.resolve_left hlow.ended.ne_nil
    obtain ⟨mem, heq, hfreed⟩ :=
      freeProcessMem_linking hlinking.1 hlinking.2 hlow hupper he' ps
    obtain ⟨bs', hbs', hk⟩ := hfreed.arena h
    exact ⟨_, heq, rfl, bs', ⟨hbs'.tiled, h.fits⟩, hk⟩
  · -- upper memory is linked already, or there is none
    have hidle : ∀ mem n, n = 1 ∨ n = s.uppermemLink &&& 1 →
        dosUmbLink { s with mem := mem } n = some { s with mem := mem } := by
      intro mem n hn
      rw [dosUmbLink]
      split
      · rfl
      · rename_i hroot
        have hlink : s.uppermemLink &&& 1 = 1 := by
          have : s.uppermemLink &&& 1 ≠ 0 := fun h0 => hlinking ⟨hroot, h0⟩
          rw [Nat.and_one_is_mod] at this ⊢
          omega
        rw [if_pos (Or.inr (by simp only; omega))]
    obtain ⟨b, suf, rfl⟩ := List.exists_cons_of_ne_nil h.tiled.ended.ne_nil
    have h' : Arena s ([] ++ b :: suf) e := h
    obtain ⟨done, mem, hloop, hfreed, -⟩ := freeLoop_spec ps chainFuel h' (by
      have := block_end h'.tiled
      have := h.fits
      rw [chainFuel]
      omega)
    obtain ⟨bs', hbs', hk⟩ := hfreed.arena h
    simp only [total, Nat.add_zero] at hloop
    rw [freeProcessMem, hidle s.mem 1 (Or.inl rfl)]
    simp only [hloop]
    cases done with
    | false => exact ⟨_, rfl, rfl, bs', hbs', hk⟩
    | true =>
      simp only [hidle mem _ (Or.inr rfl)]
      exact ⟨_, rfl, rfl, bs', hbs', hk⟩

/-! ## Runs -/

/-- What a request is about: the blocks it may change or free. -/
def target : Request → ℕ → UInt16 → Prop
  | .dosMemAlloc _ _ => noTarget
  | .dosMemFree para => onlyAt para
  | .dosMemChange para _ => onlyAt (sub16 para 1)
  | .freeProcessMem ps => ownedBy ps
  | .setPsp _ => noTarget
  | .setMemAccessMode _ => noTarget

/-- A block of the chain begins at `x`. -/
def IsBlock (s : State) (x : ℕ) : Prop :=
  ∃ bs e b, Arena s bs e ∧ At s.firstMcb bs x b

theorem IsBlock.at {s : State} {x : ℕ} (hx : IsBlock s x) {bs : List Mcb} {e : ℕ}
    (h : Arena s bs e) : ∃ b, At s.firstMcb bs x b := by
  obtain ⟨cs, e', b, h', hb⟩ := hx
  obtain ⟨rfl, -⟩ := h.tiled.unique not_last_of_more h'.tiled
  exact ⟨b, hb⟩

/-- `DosMemChange` is called on a block of the chain. -/
def Allowed (s : State) : Request → Prop
  | .dosMemChange para _ => IsBlock s (sub16 para 1)
  | _ => True

/-- `uppermem_root` is right wherever the request relies on it: a search that begins there finds a
block of the chain, or no valid MCB, and upper memory can be linked in where it says. -/
def UpperOk (s : State) : Request → Prop
  | .dosMemAlloc size mode => mcbValid (s.mem (searchFrom s size mode)) = true →
      IsBlock s (searchFrom s size mode)
  | .freeProcessMem _ => RootOk s
  | _ => True

/-- What a request does to an arena that ends at `e`: it ends, the blocks tile the same range, none
of them overlap, and the allocated ones the request is not about are where they were. -/
structure Kept (e : ℕ) (s : State) (r : Request) : Prop where
  ends : (exec s r).isSome = true
  first : (serve s r).firstMcb = s.firstMcb
  arena : ∃ bs, Arena (serve s r) bs e
  disjoint : ∀ bs, Arena (serve s r) bs e → ∀ x b y c, At s.firstMcb bs x b →
    At s.firstMcb bs y c → x ≠ y →
    Disjoint (Set.Ico x (x + (b.mSize + 1))) (Set.Ico y (y + (c.mSize + 1)))
  keeps : ∀ bs bs', Arena s bs e → Arena (serve s r) bs' e →
    Keeps (target r) s.firstMcb bs bs'

theorem exec_spec {s : State} {bs : List Mcb} {e : ℕ} (h : Arena s bs e) {r : Request}
    (hr : Allowed s r) (hok : UpperOk s r) :
    ∃ s', exec s r = some s' ∧ Leaves (target r) s bs e s' := by
  cases r with
  | dosMemAlloc size mode =>
    obtain ⟨t, ht, hl⟩ := dosMemAlloc_spec h size mode fun hv => (hok hv).at h
    exact ⟨_, by rw [exec, ht]; rfl, hl⟩
  | dosMemFree para => exact ⟨_, rfl, dosMemFree_spec h para⟩
  | dosMemChange para size =>
    obtain ⟨b, pre, suf, rfl, hpara⟩ := IsBlock.at hr h
    obtain ⟨t, ht, hl⟩ := dosMemChange_spec h size hpara
    exact ⟨_, by rw [exec, ht]; rfl, hl⟩
  | freeProcessMem ps =>
    obtain ⟨t, ht, hl⟩ := freeProcessMem_spec h ps hok
    exact ⟨_, by rw [exec, ht]; rfl, hl⟩
  | setPsp psp => exact ⟨_, rfl, rfl, bs, ⟨h.tiled, h.fits⟩, Keeps.refl _ _ _⟩
  | setMemAccessMode mode => exact ⟨_, rfl, rfl, bs, ⟨h.tiled, h.fits⟩, Keeps.refl _ _ _⟩

theorem kept {s : State} {bs : List Mcb} {e : ℕ} (h : Arena s bs e) {r : Request}
    (hr : Allowed s r) (hok : UpperOk s r) : Kept e s r := by
  obtain ⟨s', hs', hfirst, bs', hbs', hk⟩ := exec_spec h hr hok
  have hserve : serve s r = s' := by rw [serve, hs']; rfl
  refine ⟨by rw [hs']; rfl, by rw [hserve, hfirst], ⟨bs', by rwa [hserve]⟩, ?_, ?_⟩
  · intro cs _ x b y c hb hc hxy
    exact hb.disjoint hc hxy
  · intro cs cs' hcs hcs'
    rw [hserve] at hcs'
    obtain ⟨rfl, -⟩ := h.tiled.unique not_last_of_more hcs.tiled
    obtain ⟨rfl, -⟩ := hbs'.tiled.unique not_last_of_more hcs'.tiled
    exact hk

/-- **The arena stays well formed** along every run whose requests all meet `UpperOk`. -/
theorem kept_run {s : State} {bs : List Mcb} {e : ℕ} (h : Arena s bs e) (reqs : List Request)
    (hok : Along serve (fun s r => Allowed s r ∧ UpperOk s r) s reqs) :
    Along serve (Kept e) s reqs :=
  Along.of_inv (I := fun s => ∃ bs, Arena s bs e)
    (fun _ _ ⟨_, hs⟩ hr => ⟨(kept hs hr.1 hr.2).arena, kept hs hr.1 hr.2⟩) ⟨bs, h⟩ hok

/-- Free memory and a program of another process, and no upper memory. -/
def lowOnly : State where
  mem := fun x =>
    if x = 0x100 then ⟨mcbNormal, 0, 0xa, []⟩
    else if x = 0x10b then ⟨mcbLast, 8, 5, []⟩
    else ⟨0, 0, 0, []⟩
  firstMcb := 0x100
  uppermemRoot := 0xffff
  uppermemLink := 0
  memAccessMode := 0
  cuPsp := 0x101

theorem lowOnly_arena : Arena lowOnly [lowOnly.mem 0x100, lowOnly.mem 0x10b] 0x111 :=
  ⟨⟨⟨rfl, rfl, trivial⟩, ⟨rfl, rfl⟩, rfl⟩, by decide⟩

theorem kept_run_lowOnly :
    Along serve (Kept 0x111) lowOnly [.dosMemAlloc 3 firstFit, .freeProcessMem 8] :=
  kept_run lowOnly_arena _ ⟨⟨trivial, fun _ => ⟨_, _, _, lowOnly_arena, [], _, rfl, rfl⟩⟩,
    ⟨trivial, fun h => absurd rfl h⟩, trivial⟩

/-! ## Where it does not -/

/-- What initialisation leaves: the low blocks end at `uppermem_root`, the upper ones begin there,
and upper memory is not linked in. -/
def Booted (s : State) : Prop :=
  s.uppermemLink = 0 ∧ s.uppermemRoot ≠ 0xffff ∧ ∃ low upper e,
    Tiled s.mem s.firstMcb low s.uppermemRoot ∧ Tiled s.mem s.uppermemRoot upper e ∧ e ≤ 2 ^ 16

/-- The states that programs can bring about, linking upper memory (INT 21h/AX=5803h) included. -/
inductive Reachable : State → Prop
  | boot {s : State} : Booted s → Reachable s
  | serve {s : State} (r : Request) : Reachable s → Allowed s r → Reachable (serve s r)
  | dosUmbLink {s s' : State} (n : ℕ) : Reachable s → dosUmbLink s n = some s' → Reachable s'

/-- A program of 15 paragraphs, free memory up to `9fffh`, the block that covers what lies between
conventional and upper memory, and free upper memory. -/
def booted : State where
  mem := fun x =>
    if x = 0x100 then ⟨mcbNormal, 0x101, 0xf, []⟩
    else if x = 0x110 then ⟨mcbLast, 0, 0x9eee, []⟩
    else if x = 0x9fff then ⟨mcbNormal, 8, 0x2800, []⟩
    else if x = 0xc800 then ⟨mcbLast, 0, 0x7fe, []⟩
    else ⟨0, 0, 0, []⟩
  firstMcb := 0x100
  uppermemRoot := 0x9fff
  uppermemLink := 0
  memAccessMode := 0
  cuPsp := 0x101

/-- Link upper memory, free the block at its root, and allocate: the search joins all free blocks
to one. -/
def joinedRoot : State :=
  serve (serve ((dosUmbLink booted 1).getD booted) (.dosMemFree 0x9fff)) (.dosMemAlloc 0x10 firstFit)

/-- Unlinking then changes nothing but `uppermem_link`. -/
def lostRoot : State := (dosUmbLink joinedRoot 0).getD joinedRoot

theorem eq_some_getD {α : Type*} {o : Option α} (d : α) (h : o.isSome = true) :
    o = some (o.getD d) := by
  cases o with
  | none => exact absurd h Bool.false_ne_true
  | some x => rfl

theorem booted_booted : Booted booted :=
  ⟨rfl, by decide, [booted.mem 0x100, booted.mem 0x110], [booted.mem 0x9fff, booted.mem 0xc800],
    0xcfff, ⟨⟨rfl, rfl, trivial⟩, ⟨rfl, rfl⟩, rfl⟩, ⟨⟨rfl, rfl, trivial⟩, ⟨rfl, rfl⟩, rfl⟩,
    by decide⟩

theorem lostRoot_reachable : Reachable lostRoot := by
  have h1 := Reachable.dosUmbLink 1 (.boot booted_booted) (eq_some_getD booted (by decide +kernel))
  have h2 := h1.serve (.dosMemFree 0x9fff) trivial
  have h3 := h2.serve (.dosMemAlloc 0x10 firstFit) trivial
  exact h3.dosUmbLink 0 (eq_some_getD joinedRoot (by decide +kernel))

theorem lostRoot_arena : Arena lostRoot
    [lostRoot.mem 0x100, lostRoot.mem 0x110, lostRoot.mem 0x121] 0xcfff where
  tiled :=
    { linked := ⟨by decide +kernel, by decide +kernel, by decide +kernel, trivial⟩
      ended := ⟨(by decide +kernel : (lostRoot.mem 0x100).mType = mcbNormal),
        (by decide +kernel : (lostRoot.mem 0x110).mType = mcbNormal),
        (by decide +kernel : (lostRoot.mem 0x121).mType = mcbLast)⟩
      fills := by decide +kernel }
  fits := by decide

theorem lostRoot_not_kept : ¬ ∀ s, Reachable s → ∀ bs e, Arena s bs e → ∀ reqs,
    Along serve Allowed s reqs → Along serve (Kept e) s reqs := by
  intro h
  obtain ⟨bs, hbs⟩ := (h lostRoot lostRoot_reachable _ _ lostRoot_arena [.freeProcessMem 0x200]
    ⟨trivial, trivial⟩).1.arena
  -- the last block, at `121h`, is told to be followed by another one
  generalize hs : serve lostRoot (.freeProcessMem 0x200) = s at hbs
  have hfirst : s.firstMcb = 0x100 := by rw [← hs]; decide +kernel
  have h1 : (s.mem 0x100).mType = mcbNormal ∧ (s.mem 0x100).mSize = 0xf := by
    rw [← hs]; decide +kernel
  have h2 : (s.mem 0x110).mType = mcbNormal ∧ (s.mem 0x110).mSize = 0x10 := by
    rw [← hs]; decide +kernel
  have h3 : (s.mem 0x121).mType = mcbNormal ∧ (s.mem 0x121).mSize = 0xcedd := by
    rw [← hs]; decide +kernel
  have hat1 : ∃ b, At s.firstMcb bs 0x100 b := hfirst ▸ at_first hbs.tiled
  have hat2 := hbs.tiled.next not_last_of_more hat1 h1.1
  rw [size_mcb, h1.2] at hat2
  have hat3 := hbs.tiled.next not_last_of_more hat2 h2.1
  rw [size_mcb, h2.2] at hat3
  have hlast := hbs.tiled.last_of_end hat3 (by rw [size_mcb, h3.2])
  exact not_last_of_more _ h3.1 hlast

end Memory
end BurdahDos
