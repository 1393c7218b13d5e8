import BurdahDos.Memory.Arena
import BurdahDos.Memory.Joined
import Mathlib

/-!
# What an allocation finds

`DosMemAlloc` is to search upper memory first for the strategies that ask for it, and to find there,
or else in the whole chain if the strategy says so, a maximal run of free blocks that is large
enough.  `DosMemLargest` is to say how large the largest run is.

Both do (`dosMemAlloc_exact`, `dosMemLargest_exact`), as long as there is a block at `uppermem_root`
to begin with.  The search of the whole chain can take it away: it joins the block there to a free
one before it.
-/

set_option autoImplicit false

namespace BurdahDos
namespace Memory

open Tiling

/-! ## Regions -/

/-- Strategies that take the last block. -/
def IsLast (mode : UInt16) : Prop := mode = lastFit ∨ mode = lastFitU ∨ mode = lastFitUo

/-- The strategies that can be set. -/
def Strategy (mode : UInt16) : Prop := IsFirst mode ∨ IsBest mode ∨ IsLast mode

instance (mode : UInt16) : Decidable (IsLast mode) := inferInstanceAs (Decidable (_ ∨ _))
instance (mode : UInt16) : Decidable (Strategy mode) := inferInstanceAs (Decidable (_ ∨ _))

/-- Of the blocks from `a` on, those from `root` on. -/
def upperPart (root : ℕ) : ℕ → List Mcb → List Mcb
  | _, [] => []
  | a, b :: bs => if a = root then b :: bs else upperPart root (a + (b.mSize + 1)) bs

/-- The strategy looks into upper memory first. -/
def Upper (s : State) (mode : UInt16) : Prop :=
  s.upperLinked = true ∧ mode &&& (firstFitUo ||| firstFitU) ≠ 0

instance (s : State) (mode : UInt16) : Decidable (Upper s mode) :=
  inferInstanceAs (Decidable (_ ∧ _))

/-- Where a request looks for a block, in this order. -/
def regions (s : State) (bs : List Mcb) (mode : UInt16) : List (ℕ × List Mcb) :=
  if Upper s mode then
    (s.uppermemRoot, upperPart s.uppermemRoot s.firstMcb bs) ::
      if mode &&& firstFitU ≠ 0 then [(s.firstMcb, bs)] else []
  else [(s.firstMcb, bs)]

/-- A maximal run of the region is large enough. -/
def HasRun (size : ℕ) (region : ℕ × List Mcb) : Prop :=
  ∃ r : ℕ × ℕ, MaxRun Free region.1 region.2 r.1 r.2 ∧ size ≤ r.2

/-- The run of the region that the strategy chooses. -/
structure ChosenRun (mode : UInt16) (size : ℕ) (region : ℕ × List Mcb) (r : ℕ × ℕ) : Prop where
  run : MaxRun Free region.1 region.2 r.1 r.2
  fits : size ≤ r.2
  best : ∀ r' : ℕ × ℕ, MaxRun Free region.1 region.2 r'.1 r'.2 → size ≤ r'.2 → Prefers mode r r'

section
variable {s s' : State} {mem : Mem} {a e size root : ℕ} {mode : UInt16}
  {bs bs' bs'' pre suf : List Mcb} {b c : Mcb} {r : ℕ × ℕ}

/-- The runs of a region are what is free once all are merged. -/
theorem mem_runs : r ∈ frees Free a (joined Free mergeMcb bs) ↔ MaxRun Free a bs r.1 r.2 :=
  mem_frees_joined merges_mcb

theorem Chosen.run (h : Chosen mode size (frees Free a (joined Free mergeMcb bs)) r) :
    ChosenRun mode size (a, bs) r :=
  ⟨mem_runs.mp h.mem, h.fits, fun _ hr => h.best _ (mem_runs.mpr hr)⟩

theorem not_hasRun (h : ∀ r ∈ frees Free a (joined Free mergeMcb bs), r.2 < size) :
    ¬ HasRun size (a, bs) :=
  fun ⟨r, hr, hle⟩ => absurd (h r (mem_runs.mpr hr)) (Nat.not_lt.mpr hle)

/-- Regions that become the same blocks have the same runs. -/
theorem maxRun_congr (h : joined Free mergeMcb bs' = joined Free mergeMcb bs) (x n : ℕ) :
    MaxRun Free a bs' x n ↔ MaxRun Free a bs x n := by
  rw [← mem_frees_joined merges_mcb, h, mem_frees_joined merges_mcb]

theorem hasRun_congr (h : joined Free mergeMcb bs' = joined Free mergeMcb bs) :
    HasRun size (a, bs') ↔ HasRun size (a, bs) :=
  exists_congr fun r => and_congr_left fun _ => maxRun_congr h r.1 r.2

theorem ChosenRun.congr {mode' : UInt16} (h : ChosenRun mode' size (a, bs') r)
    (hj : joined Free mergeMcb bs' = joined Free mergeMcb bs)
    (hp : ∀ r r', Prefers mode' r r' ↔ Prefers mode r r') : ChosenRun mode size (a, bs) r :=
  ⟨(maxRun_congr hj _ _).mp h.run, h.fits, fun r' hr' hfits =>
    (hp r r').mp (h.best r' ((maxRun_congr hj _ _).mpr hr') hfits)⟩

theorem upperPart_append (a : ℕ) (pre suf : List Mcb) (b : Mcb) :
    upperPart (a + total pre) a (pre ++ b :: suf) = b :: suf := by
  induction pre generalizing a with
  | nil => exact if_pos rfl
  | cons c pre ih =>
    have hrest : a + total (c :: pre) = a + (c.mSize + 1) + total pre := by
      simp only [total, size_mcb]; omega
    rw [List.cons_append, upperPart, if_neg (by omega), hrest, ih]

/-! ## The block at `uppermem_root` -/

/-- The block at `root` is free, and so is the one before it. -/
def Follows (root a : ℕ) (bs : List Mcb) : Prop :=
  ∃ pre b c suf, bs = pre ++ b :: c :: suf ∧ Free b ∧ Free c ∧ root = a + total (pre ++ [b])

/-- There still is a block at `root`, and from there on the same runs. -/
structure RootKept (root a : ℕ) (bs bs' : List Mcb) : Prop where
  block : ∃ h, At a bs' root h
  runs : joined Free mergeMcb (upperPart root a bs') = joined Free mergeMcb (upperPart root a bs)

/-- What merging makes of a list that is not empty. -/
theorem joined_cons (b : Mcb) (suf : List Mcb) :
    ∃ d ds, joined Free mergeMcb (b :: suf) = d :: ds := by
  obtain ⟨d, ds, h, -⟩ := joinFrom_head merges_mcb b suf
  exact ⟨d, ds, h⟩

/-- A search that begins at `root` joins only blocks from there on. -/
theorem rootKept_upper (a : ℕ) (pre suf : List Mcb) (b : Mcb) :
    RootKept (a + total pre) a (pre ++ b :: suf) (pre ++ joined Free mergeMcb (b :: suf)) := by
  obtain ⟨d, ds, hd⟩ := joined_cons b suf
  refine ⟨⟨d, pre, ds, by rw [hd], rfl⟩, ?_⟩
  rw [hd, upperPart_append, upperPart_append, ← hd, joined_joined merges_mcb]

/-- A search of the whole chain keeps the block at `root` unless it joins it to the one before. -/
theorem rootKept_whole (h : ∃ k, At a bs root k) (hf : ¬ Follows root a bs) :
    RootKept root a bs (joined Free mergeMcb bs) := by
  obtain ⟨c, pre, suf, rfl, rfl⟩ := h
  have hsplit : joined Free mergeMcb (pre ++ c :: suf) =
      joined Free mergeMcb pre ++ joined Free mergeMcb (c :: suf) :=
    joined_append fun b hb hbc => by
      obtain ⟨ini, rfl⟩ := List.getLast?_eq_some_iff.mp hb
      exact hf ⟨ini, b, c, suf, by simp, hbc.1, hbc.2, rfl⟩
  obtain ⟨d, ds, hd⟩ := joined_cons c suf
  have htotal : total (joined Free mergeMcb pre) = total pre := total_joined merges_mcb pre
  refine ⟨⟨d, joined Free mergeMcb pre, ds, by rw [hsplit, hd], by rw [htotal]⟩, ?_⟩
  rw [hsplit, hd, ← htotal, upperPart_append, ← hd, joined_joined merges_mcb, htotal,
    upperPart_append]

theorem joined_merge (hb : Free b) (hc : Free c) :
    joined Free mergeMcb (pre ++ b :: c :: suf) = joined Free mergeMcb (pre ++ mergeMcb b c :: suf) :=
  joined_append_congr merges_mcb pre (by rw [joined, joined, joinFrom, if_pos ⟨hb, hc⟩])

/-- Where the block at `root` is joined to the one before, it is none any more. -/
theorem Follows.lost (h : Follows root a bs) (k : Mcb) :
    ¬ At a (joined Free mergeMcb bs) root k := by
  obtain ⟨pre, b, c, suf, rfl, hb, hc, rfl⟩ := h
  intro hat
  rw [joined_merge hb hc] at hat
  obtain ⟨d, hd⟩ := starts_joined merges_mcb ⟨k, hat⟩
  rcases at_append.mp hd with hd | hd
  · have := hd.bounds
    simp only [total_append, total, size_mcb] at this
    omega
  · rcases at_cons.mp hd with ⟨heq, -⟩ | hd
    · simp only [total_append, total] at heq
      omega
    · have := hd.bounds
      simp only [total_append, total, size_mcb, mergeMcb] at this
      omega

/-- The run that begins before `root` is not empty. -/
theorem Follows.run (h : Follows root a bs) : ∃ r : ℕ × ℕ, MaxRun Free a bs r.1 r.2 ∧ 1 ≤ r.2 := by
  obtain ⟨pre, b, c, suf, rfl, hb, hc, rfl⟩ := h
  have hmem : mergeMcb b c ∈ pre ++ mergeMcb b c :: suf := by simp
  obtain ⟨d, hd, hfree, hle⟩ := exists_le_joined merges_mcb hmem hb
  rw [← joined_merge hb hc] at hd
  obtain ⟨pre', suf', hsplit⟩ := List.append_of_mem hd
  refine ⟨(a + total pre', d.mSize), mem_runs.mp (mem_frees.mpr ⟨d, ⟨pre', suf', hsplit, rfl⟩,
    hfree, rfl⟩), ?_⟩
  simp only [size_mcb, mergeMcb] at hle
  omega

/-! ## One pass -/

/-- What a pass ends with, if it searches the blocks `rest` after `pre`. -/
def PassEnds (s : State) (size : ℕ) (mode : UInt16) (e : ℕ) (pre rest : List Mcb) : Pass → Prop
  | .found f _ mem => ∃ r bs' k,
      Chosen mode size (frees Free (s.firstMcb + total pre) (joined Free mergeMcb rest)) r ∧
      f = r.1 ∧ Coalesced s.mem s.firstMcb e (pre ++ rest) mem bs' ∧ At s.firstMcb bs' r.1 k ∧
      Free k ∧ k.mSize = r.2
  | .again mem => (mode &&& firstFitU ≠ 0 ∧ s.upperLinked) ∧
      (∀ r ∈ frees Free (s.firstMcb + total pre) (joined Free mergeMcb rest), r.2 < size) ∧
      Coalesced s.mem s.firstMcb e (pre ++ rest) mem (pre ++ joined Free mergeMcb rest)
  | .fail rc _ mem => rc = deNomem ∧ ¬ (mode &&& firstFitU ≠ 0 ∧ s.upperLinked) ∧
      (∀ r ∈ frees Free (s.firstMcb + total pre) (joined Free mergeMcb rest), r.2 < size) ∧
      Coalesced s.mem s.firstMcb e (pre ++ rest) mem (pre ++ joined Free mergeMcb rest)

/-- A search from the block after `pre`. -/
theorem search_from (h : Tiled mem a (pre ++ b :: suf) e) (ha : 0 < a) (he : e ≤ 2 ^ 16)
    (size : ℕ) (mode : UInt16) :
    ∃ p, search size mode chainFuel (a + total pre) ⟨mem, none, none⟩ = some p ∧
      Ends size mode mem a e (pre ++ b :: suf) pre (joined Free mergeMcb (b :: suf)) p := by
  have hvars : Vars size mode (frees Free (a + total pre) []) ⟨mem, none, none⟩ :=
    ⟨Or.inl ⟨rfl, rfl⟩, Or.inl ⟨rfl, Or.inr (by simp)⟩, fun _ => rfl⟩
  have hrefl : Coalesced mem a e (pre ++ b :: suf) mem ((pre ++ []) ++ b :: suf) := by
    simpa using Coalesced.refl h
  simpa using search_exact (s := ⟨mem, none, none⟩) chainFuel hrefl ha he rfl hvars
    (suf_lt_fuel h he)

theorem pass_exact (h : Arena s (pre ++ b :: suf) e) (ha : 0 < s.firstMcb)
    (hfrom : searchFrom s size mode = s.firstMcb + total pre) (hl : mode ≠ largest)
    (hsize : 1 ≤ size) :
    ∃ p, pass s size mode = some p ∧ PassEnds s size mode e pre (b :: suf) p := by
  obtain ⟨p, hp, hends⟩ := search_from h.tiled ha h.fits size mode
  rw [pass, hfrom, hp]
  cases p with
  | destroyed mem => exact absurd hends id
  | stopIt t =>
    obtain ⟨-, r, bs', k, hchosen, hfound, hco, hat, hfree, hk⟩ := hends
    exact ⟨_, rfl, r, bs', k, hchosen, by rw [hfound]; rfl, hco, hat, hfree, hk⟩
  | next t =>
    obtain ⟨hco, hvars⟩ := hends
    refine ⟨_, rfl, ?_⟩
    rw [afterSearch]
    simp only [if_neg hl, Option.none_or]
    rcases hvars.found with ⟨hnone, hsmall⟩ | ⟨-, r, hchosen, hfound⟩
    · have hsmall := hsmall.resolve_left hl
      rw [hnone, Option.filter_none]
      by_cases hagain : mode &&& firstFitU ≠ 0 ∧ s.upperLinked
      · simp only [if_pos (And.intro hl hagain)]
        exact ⟨hagain, hsmall, hco⟩
      · simp only [if_neg fun h : mode ≠ largest ∧ _ => hagain h.2]
        exact ⟨rfl, hagain, hsmall, hco⟩
    · obtain ⟨k, hat, hfree, hk⟩ := mem_frees.mp hchosen.mem
      have hat' : At s.firstMcb (pre ++ joined Free mergeMcb (b :: suf)) r.1 k :=
        at_append.mpr (Or.inr hat)
      have hne : (t.mem r.1).mSize ≠ 0 := by
        have hfits := hchosen.fits
        rw [hco.tiled.linked.mem_eq hat']
        rw [size_mcb] at hk
        omega
      rw [hfound, Option.filter_some_pos (by simpa using hne)]
      exact ⟨r, _, k, hchosen, rfl, hco, hat', hfree, hk⟩

/-! ## Carving -/

/-- What the process is given: a block at `p` of exactly the requested size, in the run `r`; the
other allocated blocks are the same. -/
structure Given (s : State) (bs : List Mcb) (e size : ℕ) (r : ℕ × ℕ) (p : ℕ) (s' : State) : Prop where
  inside : r.1 ≤ p ∧ p + size ≤ r.1 + r.2
  block : ∃ bs' k, Arena s' bs' e ∧ s'.firstMcb = s.firstMcb ∧ At s.firstMcb bs' p k ∧
    k.mSize = size ∧ k.mPsp = s.cuPsp ∧
    ∀ x h, ¬ Free h → x ≠ p → (At s.firstMcb bs' x h ↔ At s.firstMcb bs x h)

/-- Allocated blocks stay where they are when a free one is replaced by blocks that are free except
for the one at `p`. -/
theorem at_carved {p : ℕ} (mid : List Mcb) (htotal : total mid = total [b]) (hfree : Free b)
    (hmid : ∀ x h, At (a + total pre) mid x h → x = p ∨ Free h) (x : ℕ) (h : Mcb) (hh : ¬ Free h)
    (hx : x ≠ p) : At a (pre ++ (mid ++ suf)) x h ↔ At a (pre ++ b :: suf) x h := by
  rw [← List.singleton_append (x := b), at_append, at_append, at_append, at_append, htotal]
  refine or_congr_right (or_congr_left ⟨fun hat => ?_, fun hat => ?_⟩)
  · rcases hmid x h hat with rfl | hf
    · exact absurd rfl hx
    · exact absurd hf hh
  · rcases at_cons.mp hat with ⟨-, rfl⟩ | ⟨l, r, hlr, -⟩
    · exact absurd hfree hh
    · simp at hlr

/-- The blocks of a list of two. -/
theorem at_pair {x y : ℕ} {b₁ b₂ h : Mcb} (hat : At y [b₁, b₂] x h) :
    x = y ∧ h = b₁ ∨ x = y + (b₁.mSize + 1) ∧ h = b₂ := by
  rcases at_cons.mp hat with h | hat
  · exact Or.inl h
  · rcases at_cons.mp hat with h | ⟨l, r, hlr, -⟩
    · exact Or.inr h
    · simp at hlr

/-- Where a process is given the end of the block `b` at `p`. -/
theorem carve_last_seg {p : ℕ} (cuPsp : UInt16) (hb : mem p = b)
    (hp : p + (b.mSize + 1) ≤ 2 ^ 16) (hlt : size < b.mSize) (hmode : IsLast mode) :
    (carve mem size mode cuPsp p).1 = p + (b.mSize - (size + 1) + 1) := by
  have hrest : sub16 b.mSize (size + 1) = b.mSize - (size + 1) := sub16_eq (by omega) (by omega)
  have hq : nxtMCBsize p (b.mSize - (size + 1)) = p + (b.mSize - (size + 1) + 1) :=
    Nat.mod_eq_of_lt (by omega)
  have hlarge : mode ≠ largest := by
    rintro rfl
    exact absurd hmode (by decide)
  have hmode' : mode = lastFit ∨ mode = lastFitUo ∨ mode = lastFitU := hmode.imp_right Or.symm
  rw [carve, hb, if_pos ⟨hlarge, hlt.ne⟩, if_pos hmode']
  simp only [nxtMCB, modify_apply, if_true, hb, hrest, hq]

/-- Where a process is given the beginning of the block at `p`, or all of it. -/
theorem carve_first_seg {p : ℕ} (cuPsp : UInt16) (hmode : size = (mem p).mSize ∨ ¬ IsLast mode) :
    (carve mem size mode cuPsp p).1 = p := by
  rw [carve]
  by_cases hsplit : mode ≠ largest ∧ size ≠ (mem p).mSize
  · have hmode' : ¬ (mode = lastFit ∨ mode = lastFitUo ∨ mode = lastFitU) := fun h =>
      hmode.resolve_left hsplit.2 (h.imp_right Or.symm)
    rw [if_pos hsplit, if_neg hmode']
  · rw [if_neg hsplit]

/-- **What carving gives**: a block of the requested size from the free block `b`. -/
theorem carve_given (cuPsp : UInt16) (h : Tiled mem a (pre ++ b :: suf) e) (he : e ≤ 2 ^ 16)
    (hfree : Free b) (hsize : size ≤ b.mSize) (hl : mode ≠ largest) {p : ℕ}
    (hp : (carve mem size mode cuPsp (a + total pre)).1 = p) :
    (a + total pre ≤ p ∧ p + size ≤ a + total pre + b.mSize) ∧
      ∃ bs' k, Tiled (carve mem size mode cuPsp (a + total pre)).2 a bs' e ∧ At a bs' p k ∧
        k.mSize = size ∧ k.mPsp = cuPsp ∧
        ∀ x h, ¬ Free h → x ≠ p → (At a bs' x h ↔ At a (pre ++ b :: suf) x h) := by
  have hb := mem_block h
  have hend := block_end h
  by_cases hall : size = b.mSize
  · -- the whole block
    rw [carve_first_seg cuPsp (Or.inl (by rw [hb]; exact hall))] at hp
    subst hp
    have hmem := fun x => modify_apply mem (a + total pre) x fun m =>
      { m with mPsp := cuPsp, mName := m.mName.set 0 0 }
    have htiled := (retag_spec h ((hmem _).trans (if_pos rfl)) (by simp only [hb])
      (by simp only [hb]) fun x hx => (hmem x).trans (if_neg hx)).1
    rw [carve, hb, if_neg fun hs => hs.2 hall]
    refine ⟨⟨Nat.le_refl _, by omega⟩, _, _, htiled, ⟨pre, suf, rfl, rfl⟩, ?_, rfl,
      at_carved [_] (by simp only [total, size_mcb, hb]) hfree fun x k hat => Or.inl ?_⟩
    · simp only [hb, hall]
    · rcases at_cons.mp hat with ⟨hx, -⟩ | ⟨l, r, hlr, -⟩
      · exact hx
      · simp at hlr
  · have hlt : size < b.mSize := lt_of_le_of_ne hsize hall
    by_cases hlast : IsLast mode
    · -- the end of it
      rw [carve_last_seg cuPsp hb (by omega) hlt hlast] at hp
      have happ := carve_last cuPsp hb (by omega) hlt (hlast.imp_right Or.symm)
      have hne : a + total pre ≠ a + total pre + (b.mSize - (size + 1) + 1) := by omega
      have htiled := (split_spec h ((happ _).trans ((if_neg hne).trans (if_pos rfl)))
        ((happ _).trans (if_pos rfl)) (by simp only; omega) rfl rfl
        fun x hx hx' => (happ x).trans ((if_neg hx').trans (if_neg hx))).1
      refine ⟨by omega, _, _, htiled,
        ⟨pre ++ [_], suf, by rw [List.append_assoc, List.singleton_append], ?_⟩, rfl, rfl,
        at_carved [_, _] ?_ hfree fun x k hat => ?_⟩
      · simp only [total_append, total, size_mcb]
        omega
      · simp only [total, size_mcb]
        omega
      · rcases at_pair hat with ⟨-, rfl⟩ | ⟨hx, -⟩
        · exact Or.inr rfl
        · exact Or.inl (hx.trans hp)
    · -- the beginning of it
      rw [carve_first_seg cuPsp (Or.inr hlast)] at hp
      subst hp
      have happ := carve_first cuPsp hb (by omega) hlt hl fun h => hlast (h.imp_right Or.symm)
      have hne : a + total pre + (size + 1) ≠ a + total pre := by omega
      have htiled := (split_spec h ((happ _).trans (if_pos rfl))
        ((happ _).trans ((if_neg hne).trans (if_pos rfl))) (by simp only; omega) rfl rfl
        fun x hx hx' => (happ x).trans ((if_neg hx).trans (if_neg hx'))).1
      refine ⟨by omega, _, _, htiled, ⟨pre, _ :: suf, rfl, rfl⟩, rfl, rfl,
        at_carved [_, _] ?_ hfree fun x k hat => ?_⟩
      · simp only [total, size_mcb]
        omega
      · rcases at_pair hat with ⟨hx, -⟩ | ⟨-, rfl⟩
        · exact Or.inl hx
        · exact Or.inr rfl

/-! ## Allocating -/

theorem Strategy.ne_largest (h : Strategy mode) : mode ≠ largest := by
  rintro rfl
  exact absurd h (by decide)

/-- Without the bit that has upper memory searched first, the strategy is the same. -/
theorem Strategy.clear (h : Strategy mode) (hu : mode &&& firstFitU ≠ 0) :
    Strategy (mode &&& ~~~firstFitU) ∧ (IsBest (mode &&& ~~~firstFitU) ↔ IsBest mode) ∧
      (IsFirst (mode &&& ~~~firstFitU) ↔ IsFirst mode) ∧
      (mode &&& ~~~firstFitU) &&& (firstFitUo ||| firstFitU) = 0 ∧
      mode &&& (firstFitUo ||| firstFitU) ≠ 0 := by
  rcases h with (rfl | rfl | rfl) | (rfl | rfl | rfl) | (rfl | rfl | rfl) <;>
    first | exact absurd rfl hu | decide

theorem Strategy.prefers (h : Strategy mode) (hu : mode &&& firstFitU ≠ 0) (r r' : ℕ × ℕ) :
    Prefers (mode &&& ~~~firstFitU) r r' ↔ Prefers mode r r' := by
  obtain ⟨-, hb, hf, -⟩ := h.clear hu
  rw [Prefers, Prefers]
  simp only [hb, hf]

theorem searchFrom_strategy (hl : mode ≠ largest) :
    searchFrom s size mode = if Upper s mode then s.uppermemRoot else s.firstMcb := by
  rw [searchFrom, if_neg hl]
  refine if_congr ?_ rfl rfl
  simp [Upper, hl]

/-- The search of the whole chain would join the block at `uppermem_root` to the one before. -/
def Crossing (s : State) (bs : List Mcb) (mode : UInt16) : Prop :=
  Upper s mode ∧ mode &&& firstFitU ≠ 0 ∧ Follows s.uppermemRoot s.firstMcb bs

/-- A request is granted: in the first region that has a run which is large enough, from the run
that the strategy chooses. -/
def Granted (s : State) (bs : List Mcb) (e size : ℕ) (mode : UInt16) (answer : Answer)
    (s' : State) : Prop :=
  ∃ p before region after r, answer.para = some p ∧
    regions s bs mode = before ++ region :: after ∧ (∀ rg ∈ before, ¬ HasRun size rg) ∧
    ChosenRun mode size region r ∧ Given s bs e size r p s'

/-- A request is refused: it has only joined blocks. -/
def Refused (s : State) (bs : List Mcb) (e size : ℕ) (mode : UInt16) (s' : State) : Prop :=
  (∀ rg ∈ regions s bs mode, ¬ HasRun size rg) ∧
    ∃ mem bs', s' = { s with mem := mem } ∧ Coalesced s.mem s.firstMcb e bs mem bs' ∧
      (Crossing s bs mode → ∀ k, ¬ At s.firstMcb bs' s.uppermemRoot k) ∧
      (Upper s mode → ¬ Crossing s bs mode → RootKept s.uppermemRoot s.firstMcb bs bs')

/-- The end of `DosMemAlloc` when a pass has found a block. -/
theorem finish_given {m : Mem} {asize : Option ℕ} {k : Mcb} (he : e ≤ 2 ^ 16)
    (hco : Coalesced s.mem s.firstMcb e bs mem bs') (hat : At s.firstMcb bs' r.1 k) (hfree : Free k)
    (hk : k.mSize = r.2) (hfits : size ≤ r.2) (hl : mode ≠ largest) :
    ∃ answer s', finish { s with mem := m } size mode (.found r.1 asize mem) = some (answer, s') ∧
      answer.rc = success ∧ ∃ p, answer.para = some p ∧ Given s bs e size r p s' := by
  obtain ⟨pre, suf, rfl, hpos⟩ := hat
  rw [finish, hpos]
  have hcarve := carve_given s.cuPsp hco.tiled he hfree (hk ▸ hfits) hl rfl
  obtain ⟨hin, bs'', k', htiled, hat', hsize, hpsp, hothers⟩ := hcarve
  refine ⟨_, _, rfl, rfl, _, rfl, ⟨by rw [hpos, ← hk]; exact hin, bs'', k', ⟨htiled, he⟩, rfl, hat',
    hsize, hpsp, fun x h hh hx => (hothers x h hh hx).trans (hco.alloc x h hh)⟩⟩

theorem regions_upper (hu : Upper s mode) (hroot : s.uppermemRoot = s.firstMcb + total pre) :
    regions s (pre ++ c :: suf) mode = (s.uppermemRoot, c :: suf) ::
      if mode &&& firstFitU ≠ 0 then [(s.firstMcb, pre ++ c :: suf)] else [] := by
  rw [regions, if_pos hu, hroot, upperPart_append]

/-- The last pass, when it searches the whole chain. -/
theorem pass_whole (h : Arena s bs e) (ha : 0 < s.firstMcb)
    (hfrom : searchFrom s size mode = s.firstMcb) (hl : mode ≠ largest) (hsize : 1 ≤ size)
    (hnot : ¬ (mode &&& firstFitU ≠ 0 ∧ s.upperLinked)) :
    ∃ p answer s', pass s size mode = some p ∧ (∀ mem, p ≠ .again mem) ∧
      finish s size mode p = some (answer, s') ∧
      (answer.rc = success ∧ (∃ q r, answer.para = some q ∧ ChosenRun mode size (s.firstMcb, bs) r ∧
          Given s bs e size r q s') ∨
        answer.rc = deNomem ∧ ¬ HasRun size (s.firstMcb, bs) ∧ ∃ mem, s' = { s with mem := mem } ∧
          Coalesced s.mem s.firstMcb e bs mem (joined Free mergeMcb bs)) := by
  obtain ⟨b, suf, rfl⟩ := List.exists_cons_of_ne_nil h.tiled.ended.ne_nil
  have h' : Arena s ([] ++ b :: suf) e := h
  obtain ⟨p, hp, hends⟩ := pass_exact h' ha hfrom hl hsize
  cases p with
  | found f asize mem =>
    obtain ⟨r, bs', k, hchosen, rfl, hco, hat, hfree, hk⟩ := hends
    obtain ⟨answer, s', heq, hrc, q, hq, hgiven⟩ :=
      finish_given (m := s.mem) h.fits hco hat hfree hk hchosen.fits hl
    exact ⟨_, answer, s', hp, fun _ => nofun, heq, Or.inl ⟨hrc, q, r, hq, hchosen.run, hgiven⟩⟩
  | again mem => exact absurd hends.1 hnot
  | fail rc asize mem =>
    obtain ⟨rfl, -, hsmall, hco⟩ := hends
    exact ⟨_, _, _, hp, fun _ => nofun, rfl, Or.inr ⟨rfl, not_hasRun hsmall, mem, rfl, hco⟩⟩

/-- What a search leaves of the block at `uppermem_root` when it goes over the whole chain. -/
theorem refused_whole (hroot : Upper s mode → ∃ k, At s.firstMcb bs s.uppermemRoot k)
    (hbit : Upper s mode → mode &&& firstFitU ≠ 0) (hsmall : ∀ rg ∈ regions s bs mode, ¬ HasRun size rg)
    (hco : Coalesced s.mem s.firstMcb e bs mem (joined Free mergeMcb bs)) :
    Refused s bs e size mode { s with mem := mem } :=
  ⟨hsmall, mem, _, rfl, hco, fun hc => hc.2.2.lost, fun hu hc =>
    rootKept_whole (hroot hu) fun hf => hc ⟨hu, hbit hu, hf⟩⟩

/-- **What `DosMemAlloc` does** for a strategy. -/
theorem dosMemAlloc_exact (h : Arena s bs e) (ha : 0 < s.firstMcb)
    (hroot : Upper s mode → ∃ k, At s.firstMcb bs s.uppermemRoot k) (hm : Strategy mode)
    (hsize : 1 ≤ size) :
    ∃ answer s', dosMemAlloc s size mode = some (answer, s') ∧
      (answer.rc = success ∧ Granted s bs e size mode answer s' ∨
        answer.rc = deNomem ∧ Refused s bs e size mode s') := by
  have hl := hm.ne_largest
  by_cases hu : Upper s mode
  · obtain ⟨c, pre, suf, rfl, hpos⟩ := hroot hu
    have hregions : regions s (pre ++ c :: suf) mode = _ := regions_upper hu hpos
    have hfrom : searchFrom s size mode = s.firstMcb + total pre := by
      rw [searchFrom_strategy hl, if_pos hu, hpos]
    obtain ⟨p, hp, hends⟩ := pass_exact h ha hfrom hl hsize
    rw [dosMemAlloc, hp]
    cases p with
    | found f asize mem =>
      obtain ⟨r, bs', k, hchosen, rfl, hco, hat, hfree, hk⟩ := hends
      obtain ⟨answer, s', heq, hrc, q, hq, hgiven⟩ :=
        finish_given (m := s.mem) h.fits hco hat hfree hk hchosen.fits hl
      rw [← hpos] at hchosen
      exact ⟨answer, s', heq, Or.inl ⟨hrc, q, [], _, _, r, hq, hregions, by simp, hchosen.run,
        hgiven⟩⟩
    | fail rc asize mem =>
      obtain ⟨rfl, hnot, hsmall, hco⟩ := hends
      have hbit : ¬ mode &&& firstFitU ≠ 0 := fun hb => hnot ⟨hb, hu.1⟩
      rw [← hpos] at hsmall
      refine ⟨_, _, rfl, Or.inr ⟨rfl, ?_, mem, _, rfl, hco, fun hc => absurd hc.2.1 hbit,
        fun _ _ => ?_⟩⟩
      · rw [hregions, if_neg hbit]
        simpa using not_hasRun hsmall
      · rw [hpos]
        exact rootKept_upper s.firstMcb pre suf c
    | again mem =>
      obtain ⟨⟨hbit, -⟩, hsmall, hco⟩ := hends
      obtain ⟨hm', -, -, hlow, -⟩ := hm.clear hbit
      have hupper : ¬ HasRun size (s.uppermemRoot, c :: suf) := not_hasRun (by rwa [hpos])
      -- the second search: over the whole chain, with what the first one made of it
      obtain ⟨p, answer, s', hp', hagain, hfinish, hor⟩ :=
        pass_whole (s := { s with mem := mem }) ⟨hco.tiled, h.fits⟩ ha
          (by rw [searchFrom_strategy hm'.ne_largest, if_neg fun hu => hu.2 hlow])
          hm'.ne_largest hsize (fun hn => hn.1 (clear_firstFitU mode))
      refine ⟨answer, s', ?_, ?_⟩
      · simp only [hp', hfinish]
      · rcases hor with ⟨hrc, q, r, hq, hchosen, hgiven⟩ | ⟨hrc, hno, mem', rfl, hco'⟩
        · refine Or.inl ⟨hrc, q, [_], _, [], r, hq, by rw [hregions, if_pos hbit]; rfl, ?_, ?_, ?_⟩
          · simpa using hupper
          · exact hchosen.congr hco.joined (hm.prefers hbit)
          · obtain ⟨bs', k, harena, hfirst, hat, hk, hpsp, hothers⟩ := hgiven.block
            exact ⟨hgiven.inside, bs', k, harena, hfirst, hat, hk, hpsp, fun x h hh hx =>
              (hothers x h hh hx).trans (hco.alloc x h hh)⟩
        · rw [hco.joined] at hco'
          refine Or.inr ⟨hrc, refused_whole hroot (fun _ => hbit) ?_ (hco.trans hco')⟩
          rw [hregions, if_pos hbit]
          simpa [hupper] using fun hr => hno ((hasRun_congr hco.joined).mpr hr)
  · have hfrom : searchFrom s size mode = s.firstMcb := by
      rw [searchFrom_strategy hl, if_neg hu]
    have hregions : regions s bs mode = [(s.firstMcb, bs)] := by rw [regions, if_neg hu]
    have hnot : ¬ (mode &&& firstFitU ≠ 0 ∧ s.upperLinked) := fun hn =>
      hu ⟨hn.2, (hm.clear hn.1).2.2.2.2⟩
    obtain ⟨p, answer, s', hp, hagain, hfinish, hor⟩ := pass_whole h ha hfrom hl hsize hnot
    refine ⟨answer, s', ?_, ?_⟩
    · rw [dosMemAlloc, hp]
      cases p with
      | again mem => exact absurd rfl (hagain mem)
      | _ => exact hfinish
    · rcases hor with ⟨hrc, q, r, hq, hchosen, hgiven⟩ | ⟨hrc, hno, mem, rfl, hco⟩
      · exact Or.inl ⟨hrc, q, [], _, [], r, hq, hregions, by simp, hchosen, hgiven⟩
      · refine Or.inr ⟨hrc, refused_whole hroot (fun h => absurd h hu) ?_ hco⟩
        rw [hregions]
        simpa using hno

/-! ## The largest block -/

/-- The size of the largest run of the region, or 0. -/
def IsLargest (region : ℕ × List Mcb) (l : ℕ) : Prop :=
  (∀ r : ℕ × ℕ, MaxRun Free region.1 region.2 r.1 r.2 → r.2 ≤ l) ∧ (l ≠ 0 → HasRun l region)

theorem IsLargest.congr {l : ℕ} (h : IsLargest (a, bs') l)
    (hj : joined Free mergeMcb bs' = joined Free mergeMcb bs) : IsLargest (a, bs) l :=
  ⟨fun r hr => h.1 r ((maxRun_congr hj _ _).mpr hr), fun hl => (hasRun_congr hj).mp (h.2 hl)⟩

theorem searchFrom_largest :
    searchFrom s 0xffff largest =
      if Upper s s.memAccessMode then s.uppermemRoot else s.firstMcb := by
  rw [searchFrom, if_pos rfl]
  refine if_congr ?_ rfl rfl
  simp [Upper]

/-- A search for the largest block. -/
theorem largest_exact (h : Arena s (pre ++ b :: suf) e) (ha : 0 < s.firstMcb)
    (hfrom : searchFrom s 0xffff largest = s.firstMcb + total pre) :
    ∃ l mem, dosMemAlloc s 0xffff largest =
        some (⟨deNomem, none, some l⟩, { s with mem := mem }) ∧
      Coalesced s.mem s.firstMcb e (pre ++ b :: suf) mem (pre ++ joined Free mergeMcb (b :: suf)) ∧
      IsLargest (s.firstMcb + total pre, b :: suf) l := by
  obtain ⟨p, hp, hends⟩ := search_from h.tiled ha h.fits 0xffff largest
  have hfits := h.fits
  cases p with
  | destroyed mem => exact absurd hends id
  | stopIt t => exact absurd hends.1 (by decide)
  | next t =>
    obtain ⟨hco, hvars⟩ := hends
    have hfound : t.foundSeg = none := by
      rcases hvars.found with ⟨hnone, -⟩ | ⟨hl, -⟩
      · exact hnone
      · exact absurd rfl hl
    have hpass : pass s 0xffff largest = some (.fail deNomem
        (some (t.biggestSeg.elim 0 fun b => (t.mem b).mSize)) t.mem) := by
      rw [pass, hfrom, hp]
      simp only [afterSearch, if_pos, hfound, Option.or_none]
      -- no block is as large as that
      have hbig : (t.biggestSeg.filter fun b => 0xffff ≤ (t.mem b).mSize) = none := by
        rcases hvars.biggest with ⟨hnone, -⟩ | ⟨r, hr, hsome, -⟩
        · rw [hnone, Option.filter_none]
        · obtain ⟨k, hat, -, -⟩ := mem_frees.mp hr
          have hat' : At s.firstMcb (pre ++ joined Free mergeMcb (b :: suf)) r.1 k :=
            at_append.mpr (Or.inr hat)
          have hbounds := hat'.bounds
          have hend := hco.tiled.fills
          rw [size_mcb] at hbounds
          rw [hsome, Option.filter_some_neg]
          rw [hco.tiled.linked.mem_eq hat']
          refine decide_eq_false ?_
          omega
      rw [hbig]
      rfl
    refine ⟨_, t.mem, by rw [dosMemAlloc, hpass]; rfl, hco, ?_⟩
    rcases hvars.biggest with ⟨hnone, hnil⟩ | ⟨r, hr, hsome, hmax⟩
    · rw [hnone]
      refine ⟨fun r hr => ?_, fun hl => absurd rfl hl⟩
      rw [← mem_runs, hnil] at hr
      simp at hr
    · obtain ⟨k, hat, -, hk⟩ := mem_frees.mp hr
      have hat' : At s.firstMcb (pre ++ joined Free mergeMcb (b :: suf)) r.1 k :=
        at_append.mpr (Or.inr hat)
      rw [hsome, Option.elim_some, hco.tiled.linked.mem_eq hat', ← size_mcb, hk]
      exact ⟨fun r' hr' => hmax r' (mem_runs.mpr hr'), fun _ => ⟨r, mem_runs.mp hr, Nat.le_refl _⟩⟩

/-- A search that begins at a fake header. -/
theorem dosMemAlloc_lost (h : (s.mem (searchFrom s size mode)).mSize = 0xffff) :
    dosMemAlloc s size mode = some (⟨deMcbdestry, none, none⟩, s) := by
  have hinvalid : mcbValid (s.mem (searchFrom s size mode)) = false := by simp [mcbValid, h]
  obtain ⟨n, hn⟩ : ∃ n, chainFuel = n + 1 := ⟨2 ^ 16 - 1, rfl⟩
  have hpass : pass s size mode = some (.fail deMcbdestry none s.mem) := by
    rw [pass, hn, search, visit, hinvalid]
    rfl
  rw [dosMemAlloc, hpass]
  rfl

/-- `DosMemLargest` without the bit for a second search. -/
theorem dosMemLargest_once {answer : Answer} (h : dosMemAlloc s 0xffff largest = some (answer, s'))
    (hbit : ¬ s'.memAccessMode &&& firstFitU ≠ 0) :
    ∃ rc, dosMemLargest s = some (rc, answer.asize.getD 0, s') := by
  have hbit' : ¬ s'.memAccessMode &&& 0x80 ≠ 0 := hbit
  rw [dosMemLargest, h]
  exact ⟨_, if_neg hbit'⟩

/-- `DosMemLargest` with it: the second search goes over the whole chain. -/
theorem dosMemLargest_twice {answer : Answer} (h : dosMemAlloc s 0xffff largest = some (answer, s'))
    (harena : Arena s' bs e) (ha : 0 < s'.firstMcb) (hm : Strategy s'.memAccessMode)
    (hbit : s'.memAccessMode &&& firstFitU ≠ 0) :
    ∃ rc l mem, dosMemLargest s = some (rc, max (answer.asize.getD 0) l, { s' with mem := mem }) ∧
      Coalesced s'.mem s'.firstMcb e bs mem (joined Free mergeMcb bs) ∧
      IsLargest (s'.firstMcb, bs) l := by
  have hbit' : s'.memAccessMode &&& 0x80 ≠ 0 := hbit
  obtain ⟨b, suf, rfl⟩ := List.exists_cons_of_ne_nil harena.tiled.ended.ne_nil
  have harena' : Arena { s' with memAccessMode := s'.memAccessMode &&& ~~~0x80 } ([] ++ b :: suf) e :=
    ⟨harena.tiled, harena.fits⟩
  have hfrom : searchFrom { s' with memAccessMode := s'.memAccessMode &&& ~~~0x80 } 0xffff largest =
      s'.firstMcb + total ([] : List Mcb) := by
    rw [searchFrom_largest]
    exact if_neg fun hu => hu.2 (hm.clear hbit).2.2.2.1
  obtain ⟨l, mem, heq, hco, hl⟩ := largest_exact harena' ha hfrom
  have hmode : (s'.memAccessMode &&& ~~~0x80) ||| 0x80 = s'.memAccessMode := by
    clear hfrom harena' heq hco h
    generalize s'.memAccessMode = mode at hm hbit'
    rcases hm with (rfl | rfl | rfl) | (rfl | rfl | rfl) | (rfl | rfl | rfl) <;>
      first | exact absurd rfl hbit' | decide
  have hmax : (if l > answer.asize.getD 0 then l else answer.asize.getD 0) =
      max (answer.asize.getD 0) l := by
    split <;> omega
  rw [dosMemLargest, h]
  simp only [if_pos hbit', heq, hmode, Option.getD_some, hmax]
  exact ⟨_, l, mem, rfl, hco, hl⟩

/-! ## A region after a request that was refused -/

/-- Blocks that are not joined at `root` now are not later. -/
theorem not_follows_congr (hroot : ∃ k, At a bs root k) (hf : ¬ Follows root a bs)
    (hj : joined Free mergeMcb bs' = joined Free mergeMcb bs) : ¬ Follows root a bs' := by
  intro h
  obtain ⟨k, hk⟩ := (rootKept_whole hroot hf).block
  rw [← hj] at hk
  exact h.lost k hk

/-- The regions still have the same runs. -/
theorem regions_congr {n : ℕ} (hj : joined Free mergeMcb bs' = joined Free mergeMcb bs)
    (hkept : Upper s mode → RootKept s.uppermemRoot s.firstMcb bs bs') :
    (∃ rg ∈ regions { s with mem := mem } bs' mode, HasRun n rg) ↔
      ∃ rg ∈ regions s bs mode, HasRun n rg := by
  have hwhole : HasRun n (s.firstMcb, bs') ↔ HasRun n (s.firstMcb, bs) := hasRun_congr hj
  by_cases hu : Upper s mode
  · have hu' : Upper { s with mem := mem } mode := hu
    have hupper : HasRun n (s.uppermemRoot, upperPart s.uppermemRoot s.firstMcb bs') ↔
        HasRun n (s.uppermemRoot, upperPart s.uppermemRoot s.firstMcb bs) :=
      hasRun_congr (hkept hu).runs
    rw [regions, regions, if_pos hu, if_pos hu']
    by_cases hbit : mode &&& firstFitU ≠ 0
    · simp [hbit, hupper, hwhole]
    · simp [hbit, hupper]
  · have hu' : ¬ Upper { s with mem := mem } mode := hu
    rw [regions, regions, if_neg hu, if_neg hu']
    simp [hwhole]

/-- **What `DosMemLargest` reports**: the size of the largest run of all regions. -/
theorem dosMemLargest_exact (h : Arena s bs e) (ha : 0 < s.firstMcb)
    (hmode : s.memAccessMode = mode) (hm : Strategy mode)
    (hroot : Upper s mode → ∃ k, At s.firstMcb bs s.uppermemRoot k)
    (hcross : ¬ Crossing s bs mode) :
    ∃ rc l mem bs', dosMemLargest s = some (rc, l, { s with mem := mem }) ∧
      Coalesced s.mem s.firstMcb e bs mem bs' ∧
      (Upper s mode → RootKept s.uppermemRoot s.firstMcb bs bs') ∧
      (∀ rg ∈ regions s bs mode, ∀ r : ℕ × ℕ, MaxRun Free rg.1 rg.2 r.1 r.2 → r.2 ≤ l) ∧
      (l ≠ 0 → ∃ rg ∈ regions s bs mode, HasRun l rg) := by
  have hm' : Strategy s.memAccessMode := hmode ▸ hm
  by_cases hu : Upper s mode
  · obtain ⟨c, pre, suf, rfl, hpos⟩ := hroot hu
    have hregions : regions s (pre ++ c :: suf) mode = _ := regions_upper hu hpos
    have hfrom : searchFrom s 0xffff largest = s.firstMcb + total pre := by
      rw [searchFrom_largest, hmode, if_pos hu, hpos]
    obtain ⟨l, mem, heq, hco, hl⟩ := largest_exact h ha hfrom
    rw [← hpos] at hl
    by_cases hbit : mode &&& firstFitU ≠ 0
    · obtain ⟨rc, l', mem', heq', hco', hl'⟩ := dosMemLargest_twice heq ⟨hco.tiled, h.fits⟩ ha hm'
        (by rwa [hmode])
      have hl' := hl'.congr hco.joined
      rw [hco.joined] at hco'
      refine ⟨rc, max l l', mem', _, heq', hco.trans hco', fun _ => rootKept_whole (hroot hu)
        fun hf => hcross ⟨hu, hbit, hf⟩, ?_, ?_⟩
      · rw [hregions, if_pos hbit]
        simp only [List.mem_cons, List.not_mem_nil, or_false]
        rintro rg (rfl | rfl) r hr
        · exact (hl.1 r hr).trans (le_max_left _ _)
        · exact (hl'.1 r hr).trans (le_max_right _ _)
      · intro hne
        rw [hregions, if_pos hbit]
        rcases max_choice l l' with hmax | hmax <;> rw [hmax] at hne ⊢
        · exact ⟨_, List.mem_cons_self, hl.2 hne⟩
        · exact ⟨_, List.mem_cons_of_mem _ (List.mem_singleton_self _), hl'.2 hne⟩
    · obtain ⟨rc, heq'⟩ := dosMemLargest_once heq (by rwa [hmode])
      refine ⟨rc, l, mem, _, heq', hco, fun _ => ?_, ?_, ?_⟩
      · rw [hpos]
        exact rootKept_upper s.firstMcb pre suf c
      · rw [hregions, if_neg hbit]
        simpa using hl.1
      · rw [hregions, if_neg hbit]
        simpa using hl.2
  · obtain ⟨b, suf, rfl⟩ := List.exists_cons_of_ne_nil h.tiled.ended.ne_nil
    have h' : Arena s ([] ++ b :: suf) e := h
    have hregions : regions s (b :: suf) mode = [(s.firstMcb, b :: suf)] := by
      rw [regions, if_neg hu]
    have hfrom : searchFrom s 0xffff largest = s.firstMcb + total ([] : List Mcb) := by
      rw [searchFrom_largest, hmode, if_neg hu]
      rfl
    obtain ⟨l, mem, heq, hco, hl⟩ := largest_exact h' ha hfrom
    have hl : IsLargest (s.firstMcb, b :: suf) l := hl
    by_cases hbit : mode &&& firstFitU ≠ 0
    · obtain ⟨rc, l', mem', heq', hco', hl'⟩ := dosMemLargest_twice heq ⟨hco.tiled, h.fits⟩ ha hm'
        (by rwa [hmode])
      have hl' := hl'.congr hco.joined
      refine ⟨rc, max l l', mem', _, heq', hco.trans hco', fun h => absurd h hu, ?_, ?_⟩
      · rw [hregions]
        simp only [List.mem_singleton]
        rintro rg rfl r hr
        exact (hl.1 r hr).trans (le_max_left _ _)
      · intro hne
        rw [hregions]
        refine ⟨_, List.mem_singleton_self _, ?_⟩
        rcases max_choice l l' with hmax | hmax <;> rw [hmax] at hne ⊢
        · exact hl.2 hne
        · exact hl'.2 hne
    · obtain ⟨rc, heq'⟩ := dosMemLargest_once heq (by rwa [hmode])
      refine ⟨rc, l, mem, _, heq', hco, fun h => absurd h hu, ?_, ?_⟩
      · rw [hregions]
        simpa using hl.1
      · rw [hregions]
        simpa using hl.2

/-! ## Fitting -/

/-- The allocated blocks are the same. -/
def SameAllocated (s : State) (bs : List Mcb) (e : ℕ) (s' : State) : Prop :=
  ∃ bs', Arena s' bs' e ∧ s'.firstMcb = s.firstMcb ∧
    ∀ x h, ¬ Free h → (At s.firstMcb bs' x h ↔ At s.firstMcb bs x h)

/-- A well-formed arena: upper memory begins with a block of the chain once it is linked in. -/
structure WellFormed (s : State) (bs : List Mcb) (e : ℕ) : Prop where
  arena : Arena s bs e
  first : 0 < s.firstMcb
  root : s.upperLinked = true → ∃ k, At s.firstMcb bs s.uppermemRoot k

/-- A request is granted if and only if some run is large enough; if not, nothing allocated changes,
and what `DosMemLargest` reports is less than was asked for, and can be had. -/
def Fits (s : State) (bs : List Mcb) (e size : ℕ) (mode : UInt16) : Prop :=
  ∃ answer s', dosMemAlloc s size mode = some (answer, s') ∧
    (answer.rc = success ↔ ∃ rg ∈ regions s bs mode, HasRun size rg) ∧
    (answer.rc = success → Granted s bs e size mode answer s') ∧
    (answer.rc ≠ success → SameAllocated s bs e s' ∧
      ∃ rc l s'', dosMemLargest s' = some (rc, l, s'') ∧ l < size ∧
        (l ≠ 0 → ∃ answer' s₃, dosMemAlloc s'' l mode = some (answer', s₃) ∧ answer'.rc = success))

/-- The request must fail, and the search of the whole chain joins the block at `uppermem_root` to
the one before. -/
def Crossed (s : State) (bs : List Mcb) (size : ℕ) (mode : UInt16) : Prop :=
  Crossing s bs mode ∧ ∀ rg ∈ regions s bs mode, ¬ HasRun size rg

theorem Granted.hasRun {answer : Answer} (h : Granted s bs e size mode answer s') :
    ∃ rg ∈ regions s bs mode, HasRun size rg := by
  obtain ⟨-, before, region, after, r, -, hregions, -, hchosen, -⟩ := h
  exact ⟨region, by simp [hregions], r, hchosen.run, hchosen.fits⟩

/-- Where the block at `uppermem_root` is none any more, there is a fake header. -/
theorem lost_of_joined (hat : ∃ k, At s.firstMcb bs s.uppermemRoot k)
    (hco : Coalesced s.mem s.firstMcb e bs mem bs')
    (hlost : ∀ k, ¬ At s.firstMcb bs' s.uppermemRoot k) : (mem s.uppermemRoot).mSize = 0xffff :=
  (hco.fake _ (Or.inl hat)).resolve_left fun ⟨k, hk⟩ => hlost k hk

/-- **Requests and runs.**  For every strategy a request is granted if and only if a run is large
enough, and what is reported otherwise can be had, except where the search of the whole chain has
joined the first block of upper memory to the one before. -/
theorem dosMemAlloc_fits (hwell : WellFormed s bs e) (hmode : s.memAccessMode = mode)
    (hm : Strategy mode) (hsize : 1 ≤ size) :
    Fits s bs e size mode ↔ ¬ Crossed s bs size mode := by
  obtain ⟨h, ha, hroot⟩ := hwell
  have hroot' : Upper s mode → ∃ k, At s.firstMcb bs s.uppermemRoot k := fun hu => hroot hu.1
  obtain ⟨answer, s', heq, hor⟩ := dosMemAlloc_exact h ha hroot' hm hsize
  constructor
  · rintro ⟨answer', t', heq', -, -, hfail⟩ ⟨hcross, hno⟩
    obtain ⟨rfl, rfl⟩ : answer = answer' ∧ s' = t' := by simpa [heq] using heq'
    rcases hor with ⟨-, hgranted⟩ | ⟨hrc, -, mem, bs', rfl, hco, hlost, -⟩
    · obtain ⟨rg, hrg, hrun⟩ := hgranted.hasRun
      exact hno rg hrg hrun
    · obtain ⟨-, rc, l, s'', hlargest, -, hagain⟩ := hfail (by rw [hrc]; decide)
      have hu := hcross.1
      -- the first search for the largest block finds nothing, the second one the run joined before
      have hfake := lost_of_joined (hroot' hu) hco (hlost hcross)
      have hfirst : dosMemAlloc { s with mem := mem } 0xffff largest =
          some (⟨deMcbdestry, none, none⟩, { s with mem := mem }) := by
        refine dosMemAlloc_lost ?_
        have hu' : Upper { s with mem := mem } s.memAccessMode := by rwa [hmode]
        rw [searchFrom_largest, if_pos hu']
        exact hfake
      obtain ⟨rc', l', mem', hlargest', hco', hl'⟩ := dosMemLargest_twice hfirst
        ⟨hco.tiled, h.fits⟩ ha (hmode ▸ hm) (by rw [hmode]; exact hcross.2.1)
      obtain ⟨-, rfl, rfl⟩ : rc' = rc ∧ max 0 l' = l ∧ { s with mem := mem' } = s'' := by
        simpa [hlargest'] using hlargest
      have hne : max 0 l' ≠ 0 := by
        obtain ⟨r, hr, hpos⟩ := hcross.2.2.run
        have := hl'.1 r ((maxRun_congr hco.joined _ _).mpr hr)
        omega
      obtain ⟨answer', s₃, hmore, hsuccess⟩ := hagain hne
      have hfake' : (mem' s.uppermemRoot).mSize = 0xffff :=
        (hco'.fake _ (Or.inr hfake)).resolve_left fun hat => by
          obtain ⟨k, hk⟩ := hco'.starts _ hat
          exact hlost hcross k hk
      have hrefused : dosMemAlloc { s with mem := mem' } (max 0 l') mode =
          some (⟨deMcbdestry, none, none⟩, { s with mem := mem' }) := by
        refine dosMemAlloc_lost ?_
        have hu' : Upper { s with mem := mem' } mode := hu
        rw [searchFrom_strategy hm.ne_largest, if_pos hu']
        exact hfake'
      rw [hrefused] at hmore
      obtain ⟨rfl, -⟩ := Prod.mk.inj (Option.some.inj hmore)
      exact absurd hsuccess (by decide)
  · intro hnot
    rcases hor with ⟨hrc, hgranted⟩ | ⟨hrc, hno, mem, bs', rfl, hco, -, hkept⟩
    · exact ⟨answer, s', heq, ⟨fun _ => hgranted.hasRun, fun _ => hrc⟩, fun _ => hgranted,
        fun h => absurd hrc h⟩
    · have hcross : ¬ Crossing s bs mode := fun hc => hnot ⟨hc, hno⟩
      have hfailed : answer.rc ≠ success := by rw [hrc]; decide
      refine ⟨answer, _, heq, ⟨fun h => absurd h hfailed, fun ⟨rg, hrg, hrun⟩ => absurd hrun
        (hno rg hrg)⟩, fun h => absurd h hfailed, fun _ => ⟨⟨bs', ⟨hco.tiled, h.fits⟩, rfl, hco.alloc⟩,
        ?_⟩⟩
      have hkept : Upper s mode → RootKept s.uppermemRoot s.firstMcb bs bs' := fun hu => hkept hu hcross
      have hcross' : ¬ Crossing { s with mem := mem } bs' mode := fun ⟨hu, hbit, hf⟩ =>
        not_follows_congr (hroot' hu) (fun hf => hcross ⟨hu, hbit, hf⟩) hco.joined hf
      obtain ⟨rc, l, mem', bs'', hlargest, hco', hkept', hmax, hrun⟩ :=
        dosMemLargest_exact (s := { s with mem := mem }) ⟨hco.tiled, h.fits⟩ ha hmode hm
          (fun hu => (hkept hu).block) hcross'
      refine ⟨rc, l, _, hlargest, ?_, fun hne => ?_⟩
      · by_contra hle
        obtain ⟨rg, hrg, r, hr, hlr⟩ := hrun (by omega)
        obtain ⟨rg', hrg', hrun'⟩ := (regions_congr hco.joined hkept).mp
          ⟨rg, hrg, r, hr, (Nat.not_lt.mp hle).trans hlr⟩
        exact hno rg' hrg' hrun'
      · obtain ⟨answer', s₃, hmore, hor⟩ :=
          dosMemAlloc_exact (s := { s with mem := mem' }) ⟨hco'.tiled, h.fits⟩ ha
            (fun hu => (hkept' hu).block) hm (Nat.one_le_iff_ne_zero.mpr hne)
        refine ⟨answer', s₃, hmore, ?_⟩
        rcases hor with ⟨hsuccess, -⟩ | ⟨-, hno', -⟩
        · exact hsuccess
        · obtain ⟨rg, hrg, hrun⟩ := (regions_congr hco'.joined hkept').mpr (hrun hne)
          exact absurd hrun (hno' rg hrg)

end

theorem dosMemAlloc_fits_lowOnly :
    Fits lowOnly [lowOnly.mem 0x100, lowOnly.mem 0x10b] 0x111 3 firstFit :=
  (dosMemAlloc_fits ⟨lowOnly_arena, by decide, fun h => absurd h (by decide)⟩ rfl (by decide)
    (by decide)).mpr fun h => absurd h.1.1.1 (by decide)

/-- A program links upper memory, frees the block at its root, and has upper memory searched
first. -/
def freedRoot : State :=
  serve ((dosUmbLink { booted with memAccessMode := firstFitU } 1).getD booted) (.dosMemFree 0x9fff)

theorem freedRoot_reachable : Reachable freedRoot := by
  have hboot : Booted { booted with memAccessMode := firstFitU } := booted_booted
  have hlinked := Reachable.dosUmbLink 1 (.boot hboot) (eq_some_getD booted (by decide +kernel))
  exact hlinked.serve (.dosMemFree 0x9fff) trivial

/-- Its blocks. -/
def freedRootBlocks : List Mcb :=
  [freedRoot.mem 0x100, freedRoot.mem 0x110, freedRoot.mem 0x9fff, freedRoot.mem 0xc800]

theorem freedRoot_wellFormed : WellFormed freedRoot freedRootBlocks 0xcfff where
  arena :=
    { tiled :=
        { linked := ⟨by decide +kernel, by decide +kernel, by decide +kernel, by decide +kernel,
            trivial⟩
          ended := ⟨(by decide +kernel : (freedRoot.mem 0x100).mType = mcbNormal),
            (by decide +kernel : (freedRoot.mem 0x110).mType = mcbNormal),
            (by decide +kernel : (freedRoot.mem 0x9fff).mType = mcbNormal),
            (by decide +kernel : (freedRoot.mem 0xc800).mType = mcbLast)⟩
          fills := by decide +kernel }
      fits := by decide }
  first := by decide +kernel
  root _ := ⟨freedRoot.mem 0x9fff, [freedRoot.mem 0x100, freedRoot.mem 0x110],
    [freedRoot.mem 0xc800], rfl, by decide +kernel⟩

/-- A request, and one for what is reported if it fails: what they return, and the size reported. -/
def askTwice (s : State) (size : ℕ) (mode : UInt16) : Option (Int × ℕ × Int) :=
  match dosMemAlloc s size mode with
  | none => none
  | some (answer, s) =>
    match dosMemLargest s with
    | none => none
    | some (_, l, s) => (dosMemAlloc s l mode).map fun r => (answer.rc, l, r.1.rc)

/-- The first request joins the block at the root; no request finds it after that. -/
theorem fits_fails : ¬ ∀ s, Reachable s → ∀ bs e size mode, WellFormed s bs e →
    s.memAccessMode = mode → Strategy mode → 1 ≤ size → Fits s bs e size mode := by
  intro h
  obtain ⟨answer, s', heq, -, -, hfail⟩ := h freedRoot freedRoot_reachable _ _ 0xd000 firstFitU
    freedRoot_wellFormed (by decide +kernel) (by decide) (by decide)
  have htwice : askTwice freedRoot 0xd000 firstFitU = some (deNomem, 0xceee, deMcbdestry) := by
    decide +kernel
  rw [askTwice, heq] at htwice
  simp only at htwice
  obtain ⟨o, ho⟩ : ∃ o, dosMemLargest s' = o := ⟨_, rfl⟩
  rw [ho] at htwice
  cases o with
  | none => exact nomatch htwice
  | some r =>
    obtain ⟨rc, l, s''⟩ := r
    obtain ⟨⟨answer', s₃⟩, hmore, hrest⟩ := Option.map_eq_some_iff.mp htwice
    obtain ⟨hrc, hl, hrc'⟩ : answer.rc = deNomem ∧ l = 0xceee ∧ answer'.rc = deMcbdestry := by
      simpa using hrest
    obtain ⟨-, rc', l', t, hlargest, -, hagain⟩ := hfail (by rw [hrc]; decide)
    rw [ho] at hlargest
    obtain ⟨-, rfl, rfl⟩ : rc = rc' ∧ l = l' ∧ s'' = t := by simpa using hlargest
    obtain ⟨answer'', s₄, hmore', hsuccess⟩ := hagain (by rw [hl]; decide)
    rw [hmore] at hmore'
    obtain ⟨rfl, -⟩ := Prod.mk.inj (Option.some.inj hmore')
    rw [hrc'] at hsuccess
    exact absurd hsuccess (by decide)

end Memory
end BurdahDos
