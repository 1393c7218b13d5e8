import BurdahDos.Memory.Chain
import Mathlib

/-!
# Upper memory

`umb_init` in `kernel/config.c` asks the XMS driver for all its upper memory blocks, the largest
first, and builds a chain of MCBs from them.  Between two UMBs, and between conventional memory and
the first UMB, there is a link block that belongs to the system (`SC`).  The header of a link block
is the last paragraph of the UMB below it; only the highest UMB gets that paragraph, at the end.

A UMB that begins where another one ends is to be merged with it.  This works only for some orders:
`umbInit_chain` says that the chain is well formed if the driver keeps to these, and
`adjacent_fails` that it need not be otherwise.
-/

set_option autoImplicit false

namespace BurdahDos
namespace Memory

open Tiling

/-! ## Building the chain -/

/-- An upper memory block, as the driver hands it out: its segment, and its size in paragraphs. -/
structure Umb where
  seg : ℕ
  size : ℕ
  deriving DecidableEq

/-- The paragraph belongs to the UMB. -/
def Umb.Has (u : Umb) (x : ℕ) : Prop := u.seg ≤ x ∧ x < u.seg + u.size

/-- `mcb_init` -/
def mcbInit (mem : Mem) (seg size : ℕ) (type : UInt8) : Mem :=
  Function.update mem seg ⟨type, freePsp, size, List.replicate 8 0⟩

/-- The owner `8`, which is the system. -/
def systemPsp : UInt16 := 8

/-- The name `SC`. -/
def nameSC : List UInt8 := [0x53, 0x43, 0, 0, 0, 0, 0, 0]

/-- `mumcb_init` -/
def mumcbInit (mem : Mem) (seg size : ℕ) : Mem :=
  Function.update mem seg ⟨mcbNormal, systemPsp, size, nameSC⟩

/-- The loop of `prev_mcb`. -/
def prevLoop (mem : Mem) (curMcb : ℕ) : ℕ → ℕ → ℕ → Option ℕ
  | 0, _, _ => none
  | fuel + 1, mcbPrev, mcbNext =>
    if mcbNext < curMcb ∧ (mem mcbNext).mType = mcbNormal then
      prevLoop mem curMcb fuel mcbNext (nxtMCB mem mcbNext)
    else some mcbPrev

/-- `prev_mcb` -/
def prevMcb (mem : Mem) (curMcb start : ℕ) : Option ℕ := prevLoop mem curMcb chainFuel start start

/-- The part of the loop of `umb_init` that looks above the new block, if it is not the highest one:
what has become of memory, `umb_size` and `umb_prev`. -/
def linkAbove (mem : Mem) (u : Umb) (umbPrev umbMax : ℕ) : Mem × ℕ × ℕ :=
  let umbNext := nxtMCB mem umbPrev
  if u.seg < umbMax then
    let gap := sub16 (sub16 umbNext u.seg) u.size
    if gap = 0 then
      let umbSize := (u.size + (mem umbNext).mSize + 1) % 2 ^ 16
      (mem.modify u.seg fun m => { m with mSize := umbSize }, umbSize, umbPrev)
    else (mumcbInit mem (sub16 (u.seg + u.size) 1) gap, u.size, umbPrev)
  else (mem, u.size, umbNext)

/-- The part that looks below it. -/
def linkBelow (root : ℕ) (mem : Mem) (u : Umb) (umbSize umbPrev : ℕ) : Option Mem :=
  let gap := sub16 (sub16 u.seg umbPrev) 1
  if gap = 0 then
    (prevMcb mem umbPrev root).map fun p =>
      mem.modify p fun m => { m with mSize := (m.mSize + umbSize) % 2 ^ 16 }
  else some (mumcbInit mem umbPrev gap)

/-- One round of the loop of `umb_init`: memory and `umb_max`. -/
def umbRound (root : ℕ) (u : Umb) (mem : Mem) (umbMax : ℕ) : Option (Mem × ℕ) :=
  let mem := mcbInit mem u.seg (sub16 u.size 2) mcbNormal
  match prevMcb mem u.seg root with
  | none => none
  | some umbPrev =>
    let (mem, umbSize, umbPrev) := linkAbove mem u umbPrev umbMax
    (linkBelow root mem u umbSize umbPrev).map fun mem =>
      (mem, if u.seg > umbMax then u.seg else umbMax)

/-- The loop of `umb_init`, with the UMBs that are still to come. -/
def umbLoop (root : ℕ) : List Umb → Mem → ℕ → Option (Mem × ℕ)
  | [], mem, umbMax => some (mem, umbMax)
  | u :: us, mem, umbMax =>
    match umbRound root u mem umbMax with
    | none => none
    | some (mem, umbMax) => umbLoop root us mem umbMax

/-- `umb_init`, if the driver hands out these UMBs; `base_seg` is the last block of conventional
memory, which has `ram_top` kilobytes. -/
def umbInit (s : State) (baseSeg ramTop : ℕ) : List Umb → Option State
  | [] => some s
  | u :: us =>
    let root := sub16 (ramTop * 64) 1
    -- create link mcb (below)
    let mem := s.mem.modify baseSeg fun m => { m with mType := mcbNormal }
    let mem := mem.modify baseSeg fun m => { m with mSize := sub16 m.mSize 1 }
    let mem := mumcbInit mem root (sub16 (sub16 u.seg root) 1)
    -- setup the real mcb for the devicehigh block
    let mem := mcbInit mem u.seg (sub16 u.size 2) mcbNormal
    match umbLoop root us mem u.seg with
    | none => none
    | some (mem, umbMax) =>
      let mem := mem.modify umbMax fun m => { m with mSize := (m.mSize + 1) % 2 ^ 16 }
      let mem := mem.modify umbMax fun m => { m with mType := mcbLast }
      some { s with mem := mem, uppermemRoot := root }

/-! ## The blocks that are built -/

/-- A free block, as `mcb_init` makes it. -/
def umbBlock (size : ℕ) : Mcb := ⟨mcbNormal, freePsp, size, List.replicate 8 0⟩

/-- A link block. -/
def linkBlock (size : ℕ) : Mcb := ⟨mcbNormal, systemPsp, size, nameSC⟩

/-- Link blocks and free blocks in turn; of each pair the sizes are given. -/
def chainOf : List (ℕ × ℕ) → List Mcb
  | [] => []
  | (g, n) :: ps => linkBlock g :: umbBlock n :: chainOf ps

/-- Where the chain goes on: the last paragraph of the free memory before. -/
def nextLink (a : ℕ) (ps : List (ℕ × ℕ)) : ℕ := a + total (chainOf ps)

/-- The paragraph belongs to the free memory, including the one which is left for a link block. -/
def Cells : ℕ → List (ℕ × ℕ) → ℕ → Prop
  | _, [], _ => False
  | a, (g, n) :: ps, x => a + g + 1 ≤ x ∧ x ≤ a + g + n + 2 ∨ Cells (a + g + n + 2) ps x

section
variable {mem mem' mem₀ : Mem} {a g n x root umbMax : ℕ} {ps l r : List (ℕ × ℕ)} {bs : List Mcb}
  {b : Mcb} {u v : Umb} {us : List Umb}

theorem mcbInit_apply (mem : Mem) (seg size x : ℕ) :
    mcbInit mem seg size mcbNormal x = if x = seg then umbBlock size else mem x := by
  rw [mcbInit, Function.update_apply]
  rfl

theorem mumcbInit_apply (mem : Mem) (seg size x : ℕ) :
    mumcbInit mem seg size x = if x = seg then linkBlock size else mem x := by
  rw [mumcbInit, Function.update_apply]
  rfl

theorem chainOf_append (l r : List (ℕ × ℕ)) : chainOf (l ++ r) = chainOf l ++ chainOf r := by
  induction l with
  | nil => rfl
  | cons p l ih => rw [List.cons_append, chainOf, chainOf, ih]; rfl

theorem mType_chainOf (hb : b ∈ chainOf ps) : b.mType = mcbNormal := by
  induction ps with
  | nil => simp [chainOf] at hb
  | cons p ps ih =>
    rw [chainOf, List.mem_cons, List.mem_cons] at hb
    rcases hb with rfl | rfl | hb
    · rfl
    · rfl
    · exact ih hb

@[simp] theorem nextLink_nil (a : ℕ) : nextLink a [] = a := rfl

@[simp] theorem nextLink_cons (a g n : ℕ) (ps : List (ℕ × ℕ)) :
    nextLink a ((g, n) :: ps) = nextLink (a + g + n + 2) ps := by
  simp only [nextLink, chainOf, total, size_mcb, linkBlock, umbBlock]
  omega

@[simp] theorem nextLink_append (a : ℕ) (l r : List (ℕ × ℕ)) :
    nextLink a (l ++ r) = nextLink (nextLink a l) r := by
  simp only [nextLink, chainOf_append, total_append, Nat.add_assoc]

theorem le_nextLink (a : ℕ) (ps : List (ℕ × ℕ)) : a ≤ nextLink a ps := Nat.le_add_right _ _

theorem cells_append (a : ℕ) (l r : List (ℕ × ℕ)) (x : ℕ) :
    Cells a (l ++ r) x ↔ Cells a l x ∨ Cells (nextLink a l) r x := by
  induction l generalizing a with
  | nil => simp [Cells]
  | cons p l ih => rw [List.cons_append, Cells, Cells, ih, nextLink_cons, or_assoc]

theorem Cells.bounds (h : Cells a ps x) : a + 1 ≤ x ∧ x ≤ nextLink a ps := by
  induction ps generalizing a with
  | nil => exact absurd h id
  | cons p ps ih =>
    have := le_nextLink (a + p.1 + p.2 + 2) ps
    rw [nextLink_cons]
    rcases h with ⟨h1, h2⟩ | h
    · omega
    · have := ih h
      omega

/-! ## Finding the place for a UMB -/

/-- Where a UMB lies that has no paragraph in common with the others: above them, or in a gap. -/
theorem place (hu : 2 ≤ u.size) (ha : a < u.seg) (h : ∀ x, u.Has x → ¬ Cells a ps x) :
    nextLink a ps < u.seg ∨ ∃ l g n r, ps = l ++ (g, n) :: r ∧ nextLink a l < u.seg ∧
      u.seg + u.size ≤ nextLink a l + g + 1 := by
  induction ps generalizing a with
  | nil => exact Or.inl ha
  | cons p ps ih =>
    obtain ⟨g, n⟩ := p
    have hcell : ∀ x, u.Has x → ¬ (a + g + 1 ≤ x ∧ x ≤ a + g + n + 2) :=
      fun x hx hc => h x hx (Or.inl hc)
    rcases Nat.lt_or_ge u.seg (a + g + 1) with hlt | hge
    · refine Or.inr ⟨[], g, n, ps, rfl, ha, ?_⟩
      by_contra hle
      exact hcell (a + g + 1) ⟨hlt.le, by simp only [nextLink_nil] at hle; omega⟩ (by omega)
    · have hafter : a + g + n + 2 < u.seg := by
        by_contra hle
        exact hcell u.seg ⟨Nat.le_refl _, by omega⟩ (by omega)
      rcases ih hafter fun x hx hc => h x hx (Or.inr hc) with hi | ⟨l, g', n', r, rfl, hl, hr⟩
      · exact Or.inl (by rwa [nextLink_cons])
      · exact Or.inr ⟨(g, n) :: l, g', n', r, rfl, by rwa [nextLink_cons], by rwa [nextLink_cons]⟩

theorem nxtMCB_of {p : ℕ} (hb : mem p = b) (hfits : p + (b.mSize + 1) < 2 ^ 16) :
    nxtMCB mem p = p + (b.mSize + 1) := by
  rw [nxtMCB, hb, nxtMCBsize, Nat.mod_eq_of_lt (by omega), Nat.add_assoc]

/-- The walk of `prev_mcb` along a chain, up to the last block that begins below `cur`. -/
theorem prevLoop_eq {cur prev fuel : ℕ} (h : Linked mem a (bs ++ [b]))
    (htype : ∀ c ∈ bs ++ [b], c.mType = mcbNormal) (hcur : a + total bs < cur)
    (hfits : a + total (bs ++ [b]) < 2 ^ 16)
    (hend : cur ≤ a + total (bs ++ [b]) ∨ (mem (a + total (bs ++ [b]))).mType ≠ mcbNormal)
    (hf : bs.length + 1 < fuel) : prevLoop mem cur fuel prev a = some (a + total bs) := by
  induction bs generalizing a prev fuel with
  | nil =>
    obtain ⟨fuel, rfl⟩ : ∃ k, fuel = k + 2 := ⟨fuel - 2, by simp at hf; omega⟩
    have hb : mem a = b := h.1
    simp only [List.nil_append, total, size_mcb, Nat.add_zero] at hfits hend hcur
    have hnext : nxtMCB mem a = a + (b.mSize + 1) := nxtMCB_of hb (by omega)
    rw [prevLoop, if_pos ⟨hcur, by rw [hb]; exact htype b (by simp)⟩, hnext, prevLoop, if_neg]
    · rfl
    · rintro ⟨hlt, hn⟩
      exact hend.elim (fun hle => absurd hlt (Nat.not_lt.mpr hle)) fun hne => hne hn
  | cons c bs ih =>
    obtain ⟨fuel, rfl⟩ : ∃ k, fuel = k + 1 := ⟨fuel - 1, by simp at hf; omega⟩
    obtain ⟨hc, hrest⟩ := h
    have htotal : ∀ cs : List Mcb, a + total (c :: cs) = a + (c.mSize + 1) + total cs := by
      intro cs
      simp only [total, size_mcb]
      omega
    simp only [List.cons_append, htotal] at hfits hend hcur ⊢
    have hnext : nxtMCB mem a = a + (c.mSize + 1) := nxtMCB_of hc (by omega)
    rw [prevLoop, if_pos ⟨by omega, by rw [hc]; exact htype c (by simp)⟩, hnext]
    exact ih hrest (fun d hd => htype d (List.mem_cons_of_mem _ hd)) hcur hfits hend
      (by simpa using hf)

/-- `prev_mcb` for a place behind the link block after `l`, or at the end of a chain that does not
seem to go on. -/
theorem prevMcb_eq {cur : ℕ} (h : Linked mem a (bs ++ [b]))
    (htype : ∀ c ∈ bs ++ [b], c.mType = mcbNormal) (hcur : a + total bs < cur)
    (hfits : a + total (bs ++ [b]) < 2 ^ 16)
    (hend : cur ≤ a + total (bs ++ [b]) ∨ (mem (a + total (bs ++ [b]))).mType ≠ mcbNormal) :
    prevMcb mem cur a = some (a + total bs) := by
  refine prevLoop_eq h htype hcur hfits hend ?_
  have := length_le_total (bs ++ [b])
  rw [chainFuel]
  simp only [List.length_append, List.length_singleton] at this
  omega

/-! ## Linking a UMB -/

theorem chainOf_snoc (l : List (ℕ × ℕ)) (g n : ℕ) :
    chainOf (l ++ [(g, n)]) = (chainOf l ++ [linkBlock g]) ++ [umbBlock n] := by
  rw [chainOf_append]
  simp [chainOf]

/-- Headers that are all below `x` are not affected by what happens from there on. -/
theorem Linked.congr_below {bound : ℕ} (h : Linked mem a (chainOf l)) (hle : nextLink a l ≤ bound)
    (hm : ∀ y, a ≤ y → y < bound → mem' y = mem y) : Linked mem' a (chainOf l) :=
  Tiling.Linked.congr h fun y hy hlt => hm y hy (by simp only [nextLink] at hle; omega)

/-- A chain that has one more pair of blocks. -/
theorem linked_snoc : Linked mem a (chainOf (l ++ [(g, n)])) ↔ Linked mem a (chainOf l) ∧
    mem (nextLink a l) = linkBlock g ∧ mem (nextLink a l + g + 1) = umbBlock n := by
  rw [chainOf_append, linked_append]
  simp only [chainOf, Linked, size_mcb, linkBlock, nextLink, and_true, Nat.add_assoc]

/-- What linking a UMB behind `l` makes of it. -/
structure Put (root : ℕ) (mem : Mem) (u : Umb) (l : List (ℕ × ℕ)) (mem' : Mem)
    (l' : List (ℕ × ℕ)) : Prop where
  linked : Linked mem' root (chainOf l')
  next : nextLink root l' + 1 = u.seg + u.size
  cells : ∀ x, Cells root l' x ↔ Cells root l x ∨ u.Has x
  gaps : (∀ p ∈ l.tail, 1 ≤ p.1) → ∀ p ∈ l'.tail, 1 ≤ p.1
  nonempty : l' ≠ []
  same : ∀ x, x < root ∨ u.seg + u.size ≤ x + 1 → mem' x = mem x

/-- The UMB does not begin where another one ends: there is a link block below it. -/
theorem linkBelow_apart (h : Linked mem root (chainOf l)) (hlt : nextLink root l + 1 < u.seg)
    (hfits : u.seg + u.size ≤ 2 ^ 16) (hu : 2 ≤ u.size) (hblock : mem u.seg = umbBlock (u.size - 2)) :
    ∃ mem' l', linkBelow root mem u u.size (nextLink root l) = some mem' ∧
      Put root mem u l mem' l' := by
  have hroot := le_nextLink root l
  have hgap : sub16 (sub16 u.seg (nextLink root l)) 1 = u.seg - nextLink root l - 1 := by
    rw [sub16_eq (m := u.seg) (by omega) (by omega), sub16_eq (by omega) (by omega)]
  refine ⟨_, l ++ [(u.seg - nextLink root l - 1, u.size - 2)],
    by rw [linkBelow, hgap, if_neg (by omega)], ?_, ?_, ?_, ?_, by simp, ?_⟩
  · refine linked_snoc.mpr ⟨Linked.congr_below h (Nat.le_refl _) fun y _ hy => ?_, ?_, ?_⟩
    · rw [mumcbInit_apply, if_neg hy.ne]
    · rw [mumcbInit_apply, if_pos rfl]
    · have hseg : nextLink root l + (u.seg - nextLink root l - 1) + 1 = u.seg := by omega
      rw [hseg, mumcbInit_apply, if_neg (by omega), hblock]
  · simp only [nextLink_append, nextLink_cons, nextLink_nil]
    omega
  · intro x
    rw [cells_append]
    refine or_congr_right ?_
    simp only [Cells, Umb.Has, or_false]
    omega
  · intro hgaps p hp
    cases l with
    | nil => simp at hp
    | cons q l =>
      rcases List.mem_append.mp hp with hp | hp
      · exact hgaps p hp
      · rw [List.mem_singleton.mp hp]
        omega
  · intro x hx
    rw [mumcbInit_apply, if_neg (by omega)]

/-- The UMB begins where another one ends, which grows. -/
theorem linkBelow_adjacent (h : Linked mem root (chainOf (l ++ [(g, n)])))
    (heq : nextLink root (l ++ [(g, n)]) + 1 = u.seg) (hfits : u.seg + u.size ≤ 2 ^ 16)
    (hu : 2 ≤ u.size) :
    ∃ mem' l', linkBelow root mem u u.size (nextLink root (l ++ [(g, n)])) = some mem' ∧
      Put root mem u (l ++ [(g, n)]) mem' l' := by
  have hroot := le_nextLink root l
  obtain ⟨hl, hlink, hblock⟩ := linked_snoc.mp h
  simp only [nextLink_append, nextLink_cons, nextLink_nil] at heq ⊢
  have hgap : sub16 (sub16 u.seg (nextLink root l + g + n + 2)) 1 = 0 := by
    rw [sub16_eq (m := u.seg) (by omega) (by omega), sub16_eq (by omega) (by omega)]
    omega
  have htotal : ∀ k, root + total (chainOf l ++ [linkBlock g]) + k = nextLink root l + g + 1 + k := by
    intro k
    simp only [nextLink, total_append, total, size_mcb, linkBlock]
    omega
  have hprev : prevMcb mem (nextLink root l + g + n + 2) root = some (nextLink root l + g + 1) := by
    have hstop : root + total ((chainOf l ++ [linkBlock g]) ++ [umbBlock n]) =
        nextLink root l + g + n + 2 := by
      simp only [nextLink, total_append, total, size_mcb, linkBlock, umbBlock]
      omega
    rw [chainOf_snoc] at h
    refine (prevMcb_eq h (fun c hc => mType_chainOf (by rwa [chainOf_snoc])) ?_ ?_ ?_).trans ?_
    · have := htotal 0
      omega
    · omega
    · exact Or.inl (by omega)
    · have := htotal 0
      rw [show root + total (chainOf l ++ [linkBlock g]) = nextLink root l + g + 1 by omega]
  refine ⟨_, l ++ [(g, n + u.size)], by rw [linkBelow, hgap, if_pos rfl, hprev, Option.map_some],
    ?_, ?_, ?_, ?_, by simp, ?_⟩
  · refine linked_snoc.mpr ⟨Linked.congr_below hl (Nat.le_refl _) fun y _ hy => ?_, ?_, ?_⟩
    · rw [modify_apply, if_neg (by omega)]
    · rw [modify_apply, if_neg (by omega), hlink]
    · have hmod : (n + u.size) % 2 ^ 16 = n + u.size := Nat.mod_eq_of_lt (by omega)
      rw [modify_apply, if_pos rfl, hblock]
      simp only [umbBlock, hmod]
  · simp only [nextLink_append, nextLink_cons, nextLink_nil]
    omega
  · intro x
    simp only [cells_append, Cells, Umb.Has, or_false, or_assoc]
    refine or_congr_right ?_
    omega
  · intro hgaps p hp
    cases l with
    | nil => simp at hp
    | cons q l =>
      rcases List.mem_append.mp hp with hp | hp
      · exact hgaps p (List.mem_append_left _ hp)
      · rw [List.mem_singleton.mp hp]
        exact hgaps (g, n) (by simp)
  · intro x hx
    rw [modify_apply, if_neg (by omega)]

/-- **Linking a UMB to what is below it.** -/
theorem linkBelow_put (h : Linked mem root (chainOf l)) (hlt : nextLink root l < u.seg)
    (hfirst : l = [] → u.seg ≠ root + 1) (hfits : u.seg + u.size ≤ 2 ^ 16) (hu : 2 ≤ u.size)
    (hblock : mem u.seg = umbBlock (u.size - 2)) :
    ∃ mem' l', linkBelow root mem u u.size (nextLink root l) = some mem' ∧
      Put root mem u l mem' l' := by
  by_cases heq : nextLink root l + 1 = u.seg
  · rcases List.eq_nil_or_concat l with rfl | ⟨l, ⟨g, n⟩, rfl⟩
    · exact absurd heq.symm (hfirst rfl)
    · rw [List.concat_eq_append] at *
      exact linkBelow_adjacent h heq hfits hu
  · exact linkBelow_apart h (by omega) hfits hu hblock

/-! ## One UMB after another -/

/-- The UMBs have no paragraph in common. -/
def Umb.Apart (u v : Umb) : Prop := u.seg + u.size ≤ v.seg ∨ v.seg + v.size ≤ u.seg

instance : Std.Symm Umb.Apart := ⟨fun _ _ => Or.symm⟩

/-- What the chain is after some UMBs; `mem₀` is memory before. -/
structure Built (root : ℕ) (mem₀ : Mem) (us : List Umb) (mem : Mem) (umbMax : ℕ)
    (ps : List (ℕ × ℕ)) : Prop where
  linked : Linked mem root (chainOf ps)
  cells : ∀ x, Cells root ps x ↔ ∃ u ∈ us, u.Has x
  gaps : ∀ p ∈ ps.tail, 1 ≤ p.1
  nonempty : ps ≠ []
  highest : ∃ w ∈ us, w.seg = umbMax ∧ nextLink root ps + 1 = w.seg + w.size ∧
    ∀ v ∈ us, v.seg ≤ w.seg
  same : ∀ x, x < root ∨ nextLink root ps ≤ x → mem x = mem₀ x

/-- What the next UMB must be like, after others: it does not end where one of them begins, nor
begin right after conventional memory; and if it is above them, the last paragraph below does not
look like a header. -/
structure Next (root : ℕ) (mem₀ : Mem) (us : List Umb) (u : Umb) : Prop where
  below : ∀ v ∈ us, u.seg + u.size ≠ v.seg
  first : u.seg ≠ root + 1
  top : (∀ v ∈ us, v.seg < u.seg) → ∀ w ∈ us, (∀ v ∈ us, v.seg ≤ w.seg) →
    (mem₀ (w.seg + w.size - 1)).mType ≠ mcbNormal

/-- The UMB is in upper memory, and has room for a header and the one of a link block. -/
structure Umb.Fits (root : ℕ) (u : Umb) : Prop where
  above : root < u.seg
  two : 2 ≤ u.size
  fits : u.seg + u.size ≤ 2 ^ 16

theorem Built.next_lt (h : Built root mem₀ us mem umbMax ps) (hv : ∀ v ∈ us, v.Fits root) :
    nextLink root ps < 2 ^ 16 := by
  obtain ⟨w, hw, -, htop, -⟩ := h.highest
  have := (hv w hw).fits
  omega

/-- What one round leaves. -/
def Rounds (root : ℕ) (mem₀ : Mem) (us : List Umb) (u : Umb) (mem : Mem) (umbMax : ℕ) : Prop :=
  ∃ mem' umbMax' ps', umbRound root u mem umbMax = some (mem', umbMax') ∧
    Built root mem₀ (us ++ [u]) mem' umbMax' ps'

/-- The parts of a round. -/
theorem umbRound_eq {umbPrev umbSize umbPrev₁ : ℕ} {mem₁ mem₂ : Mem} (hu : u.Fits root)
    (hprev : prevMcb (mcbInit mem u.seg (u.size - 2) mcbNormal) u.seg root = some umbPrev)
    (habove : linkAbove (mcbInit mem u.seg (u.size - 2) mcbNormal) u umbPrev umbMax =
      (mem₁, umbSize, umbPrev₁))
    (hbelow : linkBelow root mem₁ u umbSize umbPrev₁ = some mem₂) :
    umbRound root u mem umbMax = some (mem₂, if u.seg > umbMax then u.seg else umbMax) := by
  obtain ⟨hroot, htwo, hfits⟩ := hu
  have hsub : sub16 u.size 2 = u.size - 2 := sub16_eq (by omega) htwo
  rw [umbRound, hsub]
  simp only [hprev, habove, hbelow, Option.map_some]

/-- A round with a UMB above all others. -/
theorem Built.above (h : Built root mem₀ us mem umbMax ps) (hu : u.Fits root)
    (hv : ∀ v ∈ us, v.Fits root) (hnext : Next root mem₀ us u) (hend : nextLink root ps < u.seg) :
    Rounds root mem₀ us u mem umbMax := by
  obtain ⟨habove, htwo, hfits⟩ := id hu
  obtain ⟨w, hw, rfl, htop, hhighest⟩ := h.highest
  have hlt := h.next_lt hv
  have hbelow : ∀ v ∈ us, v.seg < u.seg := by
    intro v hvm
    have hsize := (hv v hvm).two
    have hcell : Cells root ps v.seg := (h.cells _).mpr ⟨v, hvm, Nat.le_refl _, by omega⟩
    exact hcell.bounds.2.trans_lt hend
  have hinit : ∀ x, x ≠ u.seg → mcbInit mem u.seg (u.size - 2) mcbNormal x = mem x :=
    fun x hx => by rw [mcbInit_apply, if_neg hx]
  have hlinked : Linked (mcbInit mem u.seg (u.size - 2) mcbNormal) root (chainOf ps) :=
    Linked.congr_below h.linked (Nat.le_refl _) fun y _ hy => hinit y (by omega)
  -- the last paragraph is still what it was
  have hstop : (mcbInit mem u.seg (u.size - 2) mcbNormal (nextLink root ps)).mType ≠ mcbNormal := by
    rw [hinit _ hend.ne, h.same _ (Or.inr (Nat.le_refl _)),
      show nextLink root ps = w.seg + w.size - 1 by omega]
    exact hnext.top hbelow w hw hhighest
  obtain ⟨l, ⟨g, n⟩, rfl⟩ : ∃ l p, ps = l ++ [p] := by
    rcases List.eq_nil_or_concat ps with hnil | ⟨l, p, hp⟩
    · exact absurd hnil h.nonempty
    · exact ⟨l, p, by rw [hp, List.concat_eq_append]⟩
  have hchain : root + total (chainOf l ++ [linkBlock g]) = nextLink root l + g + 1 := by
    simp only [nextLink, total_append, total, size_mcb, linkBlock]
    omega
  have hnextLink : nextLink root (l ++ [(g, n)]) = nextLink root l + g + n + 2 := by simp
  have hwhole : root + total ((chainOf l ++ [linkBlock g]) ++ [umbBlock n]) =
      nextLink root (l ++ [(g, n)]) := by rw [← chainOf_snoc]; rfl
  have hprev : prevMcb (mcbInit mem u.seg (u.size - 2) mcbNormal) u.seg root =
      some (nextLink root l + g + 1) := by
    have hlinked' := hlinked
    rw [chainOf_snoc] at hlinked'
    rw [← hchain]
    refine prevMcb_eq hlinked' (fun c hc => mType_chainOf (by rwa [chainOf_snoc])) (by omega)
      (by omega) (Or.inr ?_)
    rw [hwhole]
    exact hstop
  have hfar : nxtMCB (mcbInit mem u.seg (u.size - 2) mcbNormal) (nextLink root l + g + 1) =
      nextLink root (l ++ [(g, n)]) := by
    rw [nxtMCB_of (linked_snoc.mp hlinked).2.2 (by simp only [umbBlock]; omega)]
    simp only [umbBlock]
    omega
  obtain ⟨mem₂, l', heq, hput⟩ := linkBelow_put hlinked hend (by simp) hfits htwo
    (by rw [mcbInit_apply, if_pos rfl])
  refine ⟨mem₂, _, l', umbRound_eq hu hprev ?_ heq, hput.linked, fun x => ?_, hput.gaps h.gaps,
    hput.nonempty, ⟨u, by simp, ?_, hput.next, ?_⟩, fun x hx => ?_⟩
  · rw [linkAbove, if_neg (Nat.not_lt.mpr (hbelow w hw).le), hfar]
  · rw [hput.cells, h.cells]
    simp [or_and_right, exists_or]
  · rw [if_pos (hbelow w hw)]
  · intro v hvm
    rcases List.mem_append.mp hvm with hvm | hvm
    · exact (hbelow v hvm).le
    · rw [List.mem_singleton.mp hvm]
  · have hn := hput.next
    rw [hput.same x (by omega), hinit x (by omega), h.same x (by omega)]

/-- A gap between blocks that becomes smaller from below. -/
theorem cells_congr {a' g' : ℕ} (h : a + g = a' + g') :
    Cells a ((g, n) :: r) x ↔ Cells a' ((g', n) :: r) x := by
  rw [Cells, Cells, h]

/-- A round with a UMB in a gap. -/
theorem Built.between (h : Built root mem₀ us mem umbMax (l ++ (g, n) :: r)) (hu : u.Fits root)
    (hapart : ∀ v ∈ us, v.Apart u) (hv : ∀ v ∈ us, v.Fits root) (hnext : Next root mem₀ us u)
    (hl : nextLink root l < u.seg) (hr : u.seg + u.size ≤ nextLink root l + g + 1) :
    Rounds root mem₀ us u mem umbMax := by
  obtain ⟨habove, htwo, hfits⟩ := id hu
  obtain ⟨w, hw, rfl, htop, hhighest⟩ := h.highest
  have hlt := h.next_lt hv
  have hnextLink : nextLink root (l ++ (g, n) :: r) = nextLink (nextLink root l + g + n + 2) r := by
    simp
  have hfar := le_nextLink (nextLink root l + g + n + 2) r
  -- the gap ends with another UMB, which does not begin at once
  have hgap : u.seg + u.size ≠ nextLink root l + g + 1 := by
    intro heq
    have hcell : Cells root (l ++ (g, n) :: r) (nextLink root l + g + 1) :=
      (cells_append _ _ _ _).mpr (Or.inr (Or.inl ⟨by omega, by omega⟩))
    obtain ⟨v, hvm, hvx⟩ := (h.cells _).mp hcell
    have hne := hnext.below v hvm
    have := hapart v hvm
    simp only [Umb.Apart, Umb.Has] at this hvx
    omega
  have hmax : u.seg < w.seg := by
    have := hapart w hw
    simp only [Umb.Apart] at this
    omega
  have hinit : ∀ x, x ≠ u.seg → mcbInit mem u.seg (u.size - 2) mcbNormal x = mem x :=
    fun x hx => by rw [mcbInit_apply, if_neg hx]
  have hlinked := h.linked
  rw [chainOf_append, linked_append] at hlinked
  obtain ⟨hlow, hlink, hblock, hrest⟩ := hlinked
  have hlow' : Linked (mcbInit mem u.seg (u.size - 2) mcbNormal) root (chainOf l) :=
    Linked.congr_below hlow (Nat.le_refl _) fun y _ hy => hinit y (by omega)
  have hlink' : mcbInit mem u.seg (u.size - 2) mcbNormal (nextLink root l) = linkBlock g := by
    rw [hinit _ hl.ne]
    exact hlink
  have hprev : prevMcb (mcbInit mem u.seg (u.size - 2) mcbNormal) u.seg root =
      some (nextLink root l) := by
    have hstop : root + total (chainOf l ++ [linkBlock g]) = nextLink root l + g + 1 := by
      simp only [nextLink, total_append, total, size_mcb, linkBlock]
      omega
    refine prevMcb_eq (linked_append.mpr ⟨hlow', hlink', trivial⟩) (fun c hc => ?_) hl (by omega)
      (Or.inl (by omega))
    rcases List.mem_append.mp hc with hc | hc
    · exact mType_chainOf hc
    · rw [List.mem_singleton.mp hc]
      rfl
  have hnext' : nxtMCB (mcbInit mem u.seg (u.size - 2) mcbNormal) (nextLink root l) =
      nextLink root l + g + 1 := by
    rw [nxtMCB_of hlink' (by simp only [linkBlock]; omega)]
    simp only [linkBlock]
    omega
  -- the link block above it
  generalize hd : nextLink root l + g + 1 - u.seg - u.size = d at *
  have hsub : sub16 (sub16 (nextLink root l + g + 1) u.seg) u.size = d := by
    rw [sub16_eq (n := u.seg) (by omega) (by omega), sub16_eq (by omega) (by omega), hd]
  have hlast : sub16 (u.seg + u.size) 1 = u.seg + u.size - 1 := sub16_eq (by omega) (by omega)
  have happ := mumcbInit_apply (mcbInit mem u.seg (u.size - 2) mcbNormal) (u.seg + u.size - 1) d
  have hlow₁ : Linked (mumcbInit (mcbInit mem u.seg (u.size - 2) mcbNormal) (u.seg + u.size - 1) d)
      root (chainOf l) :=
    Linked.congr_below hlow' (Nat.le_refl _) fun y _ hy => by rw [happ, if_neg (by omega)]
  obtain ⟨mem₂, l', heq, hput⟩ := linkBelow_put hlow₁ hl (fun _ => hnext.first) hfits htwo
    (by rw [happ, if_neg (by omega), mcbInit_apply, if_pos rfl])
  have hn := hput.next
  have hsame : ∀ x, u.seg + u.size ≤ x → mem₂ x = mem x := fun x hx => by
    rw [hput.same x (by omega), happ, if_neg (by omega), hinit x (by omega)]
  have hnew : nextLink root (l' ++ (d, n) :: r) = nextLink root (l ++ (g, n) :: r) := by
    rw [hnextLink, nextLink_append, nextLink_cons,
      show nextLink root l' + d + n + 2 = nextLink root l + g + n + 2 by omega]
  refine ⟨mem₂, _, l' ++ (d, n) :: r, umbRound_eq hu hprev ?_ heq, ?_, fun x => ?_, ?_, by simp,
    ⟨w, by simp [hw], ?_, hnew ▸ htop, ?_⟩, fun x hx => ?_⟩
  · rw [linkAbove, if_pos hmax, hnext', hsub, if_neg (by omega), hlast]
  · rw [chainOf_append, linked_append]
    refine ⟨hput.linked, ?_, ?_⟩
    · have hat : mem₂ (nextLink root l') = linkBlock d := by
        rw [hput.same _ (by omega), happ, if_pos (by omega)]
      exact hat
    · have hpos : root + total (chainOf l') + (Header.size (linkBlock d) + 1) =
          root + total (chainOf l) + (Header.size (linkBlock g) + 1) := by
        simp only [nextLink] at hn hd hr
        simp only [size_mcb, linkBlock]
        omega
      rw [hpos]
      refine Tiling.Linked.congr ⟨hblock, hrest⟩ fun y hy _ => hsame y ?_
      simp only [nextLink] at hr
      simp only [size_mcb, linkBlock] at hy
      omega
  · have hcells : Cells (nextLink root l') ((d, n) :: r) x ↔ Cells (nextLink root l) ((g, n) :: r) x :=
      cells_congr (by omega)
    rw [cells_append, hput.cells, hcells, or_right_comm, ← cells_append, h.cells]
    simp [or_and_right, exists_or]
  · intro p hp
    obtain ⟨q, l', rfl⟩ := List.exists_cons_of_ne_nil hput.nonempty
    have hgaps : ∀ p ∈ l.tail, 1 ≤ p.1 := fun p hp => h.gaps p (by
      cases l with
      | nil => simp at hp
      | cons q l => exact List.mem_append_left _ hp)
    rcases List.mem_append.mp hp with hp | hp
    · exact hput.gaps hgaps p hp
    · rcases List.mem_cons.mp hp with rfl | hp
      · simp only
        omega
      · refine h.gaps p ?_
        cases l with
        | nil => exact hp
        | cons q l => exact List.mem_append_right _ (List.mem_cons_of_mem _ hp)
  · rw [if_neg (Nat.not_lt.mpr hmax.le)]
  · intro v hvm
    rcases List.mem_append.mp hvm with hvm | hvm
    · exact hhighest v hvm
    · rw [List.mem_singleton.mp hvm]
      exact hmax.le
  · rw [hnew] at hx
    rcases hx with hx | hx
    · rw [hput.same x (Or.inl hx), happ, if_neg (by omega), hinit x (by omega), h.same x (Or.inl hx)]
    · rw [hsame x (by omega), h.same x (Or.inr hx)]

/-- **One round of the loop of `umb_init`.** -/
theorem Built.step (h : Built root mem₀ us mem umbMax ps) (hu : u.Fits root)
    (hapart : ∀ v ∈ us, v.Apart u) (hv : ∀ v ∈ us, v.Fits root) (hnext : Next root mem₀ us u) :
    Rounds root mem₀ us u mem umbMax := by
  have hfree : ∀ x, u.Has x → ¬ Cells root ps x := by
    intro x hx hc
    obtain ⟨v, hvm, hvx⟩ := (h.cells x).mp hc
    have := hapart v hvm
    simp only [Umb.Apart, Umb.Has] at this hx hvx
    omega
  rcases place hu.two hu.above hfree with hend | ⟨l, g, n, r, rfl, hl, hr⟩
  · exact h.above hu hv hnext hend
  · exact h.between hu hapart hv hnext hl hr

/-! ## All UMBs -/

/-- The driver hands out what can be put together: each UMB after the first one goes well with those
before it, and the highest one does not begin where another one ends. -/
structure InOrder (root : ℕ) (mem : Mem) (us : List Umb) : Prop where
  next : ∀ before u after, us = before ++ u :: after → before ≠ [] → Next root mem before u
  top : ∀ w ∈ us, (∀ v ∈ us, v.seg ≤ w.seg) → ∀ v ∈ us, v.seg + v.size ≠ w.seg

/-- **The loop of `umb_init`**, from the UMBs `us` on. -/
theorem umbLoop_built (rest : List Umb) (h : Built root mem₀ us mem umbMax ps)
    (hfits : ∀ v ∈ us ++ rest, v.Fits root) (hapart : (us ++ rest).Pairwise Umb.Apart)
    (hnext : ∀ before u after, us ++ rest = before ++ u :: after → before ≠ [] →
      Next root mem₀ before u) :
    ∃ mem' umbMax' ps', umbLoop root rest mem umbMax = some (mem', umbMax') ∧
      Built root mem₀ (us ++ rest) mem' umbMax' ps' := by
  induction rest generalizing us mem umbMax ps with
  | nil => exact ⟨mem, umbMax, ps, rfl, by simpa using h⟩
  | cons u rest ih =>
    have hne : us ≠ [] := by
      obtain ⟨w, hw, -⟩ := h.highest
      exact List.ne_nil_of_mem hw
    have hu := hfits u (by simp)
    have hus : ∀ v ∈ us, v.Fits root := fun v hv => hfits v (List.mem_append_left _ hv)
    have hufree : ∀ v ∈ us, v.Apart u := fun v hv =>
      (List.pairwise_append.mp hapart).2.2 v hv u List.mem_cons_self
    obtain ⟨mem₁, umbMax₁, ps', hround, hbuilt⟩ :=
      h.step hu hufree hus (hnext us u rest rfl hne)
    have happend : us ++ u :: rest = (us ++ [u]) ++ rest := by simp
    rw [happend] at hfits hapart hnext ⊢
    obtain ⟨mem', umbMax', ps'', heq, hbuilt'⟩ := ih hbuilt hfits hapart hnext
    exact ⟨mem', umbMax', ps'', by rw [umbLoop, hround]; exact heq, hbuilt'⟩

/-- The pair of blocks in which a paragraph lies. -/
theorem exists_pair (ha : a ≤ x) (hx : x < nextLink a ps) :
    ∃ l g n r, ps = l ++ (g, n) :: r ∧ nextLink a l ≤ x ∧ x < nextLink a l + g + n + 2 := by
  induction ps generalizing a with
  | nil => exact absurd hx (Nat.not_lt.mpr ha)
  | cons p ps ih =>
    obtain ⟨g, n⟩ := p
    by_cases hlt : x < a + g + n + 2
    · exact ⟨[], g, n, ps, rfl, ha, hlt⟩
    · rw [nextLink_cons] at hx
      obtain ⟨l, g', n', r, rfl, h1, h2⟩ := ih (Nat.not_lt.mp hlt) hx
      exact ⟨(g, n) :: l, g', n', r, rfl, by rwa [nextLink_cons], by rwa [nextLink_cons]⟩

/-- What lies in a link block, after its header, belongs to no UMB. -/
theorem not_cells_link (h1 : nextLink a l < x) (h2 : x ≤ nextLink a l + g) :
    ¬ Cells a (l ++ (g, n) :: r) x := by
  intro hc
  rcases (cells_append _ _ _ _).mp hc with hc | hc | hc
  · exact absurd hc.bounds.2 (Nat.not_le.mpr h1)
  · omega
  · have := hc.bounds.1
    omega

theorem Built.gap_pos (h : Built root mem₀ us mem umbMax (l ++ (g, n) :: r)) (hl : l ≠ []) :
    1 ≤ g := by
  obtain ⟨q, l, rfl⟩ := List.exists_cons_of_ne_nil hl
  exact h.gaps (g, n) (by simp)

/-- The paragraph before free memory belongs to no UMB. -/
theorem Built.before_free (h : Built root mem₀ us mem umbMax (l ++ (g, n) :: r)) :
    ¬ Cells root (l ++ (g, n) :: r) (nextLink root l + g) := by
  by_cases hg : g = 0
  · obtain rfl : l = [] := by
      by_contra hl
      have := h.gap_pos hl
      omega
    intro hc
    have := hc.bounds.1
    simp only [nextLink_nil] at this
    omega
  · exact not_cells_link (by omega) (Nat.le_refl _)

/-- Each paragraph of a UMB is in a free block, or the header of a link block. -/
def Umb.Covered (u : Umb) (a : ℕ) (bs : List Mcb) (x : ℕ) : Prop :=
  (∃ y b, At a bs y b ∧ b.mPsp = freePsp ∧ y ≤ x ∧ x ≤ y + b.mSize ∧ (x = y → x = u.seg)) ∨
    ∃ b, At a bs x b ∧ b.mPsp = systemPsp ∧ b.mName = nameSC ∧ x + 1 = u.seg + u.size

/-- The paragraph is in a link block. -/
def Linking (a : ℕ) (bs : List Mcb) (x : ℕ) : Prop :=
  ∃ y b, At a bs y b ∧ b.mPsp = systemPsp ∧ b.mName = nameSC ∧ y ≤ x ∧ x ≤ y + b.mSize

theorem at_link (a g n : ℕ) (l r : List (ℕ × ℕ)) :
    At a (chainOf (l ++ (g, n) :: r)) (nextLink a l) (linkBlock g) :=
  ⟨chainOf l, umbBlock n :: chainOf r, by rw [chainOf_append, chainOf], rfl⟩

theorem at_free (a g n : ℕ) (l r : List (ℕ × ℕ)) :
    At a (chainOf (l ++ (g, n) :: r)) (nextLink a l + g + 1) (umbBlock n) := by
  refine ⟨chainOf l ++ [linkBlock g], chainOf r, by rw [chainOf_append, chainOf]; simp, ?_⟩
  simp only [nextLink, total_append, total, size_mcb, linkBlock]
  omega

/-- The paragraphs of UMBs before the end of the chain. -/
theorem Built.covered (h : Built root mem₀ us mem umbMax ps) (hu : u ∈ us) (hx : u.Has x)
    (hlt : x < nextLink root ps) : u.Covered root (chainOf ps) x := by
  have hcell : Cells root ps x := (h.cells x).mpr ⟨u, hu, hx⟩
  obtain ⟨l, g, n, r, rfl, h1, h2⟩ := exists_pair (by have := hcell.bounds.1; omega) hlt
  rcases Nat.lt_or_ge (nextLink root l + g) x with hfree | hlink
  · refine Or.inl ⟨_, _, at_free root g n l r, rfl, by omega, by simp only [umbBlock]; omega,
      fun heq => ?_⟩
    by_contra hne
    refine h.before_free ((h.cells _).mpr ⟨u, hu, ?_⟩)
    simp only [Umb.Has] at hx ⊢
    omega
  · -- of a link block only the header
    obtain rfl : x = nextLink root l := by
      by_contra hne
      exact not_cells_link (by omega) hlink hcell
    refine Or.inr ⟨_, at_link root g n l r, rfl, rfl, ?_⟩
    by_contra hne
    have hl : l ≠ [] := by
      rintro rfl
      have := hcell.bounds.1
      simp only [nextLink_nil] at this
      omega
    refine not_cells_link (x := nextLink root l + 1) (by omega) (by have := h.gap_pos hl; omega)
      ((h.cells _).mpr ⟨u, hu, ?_⟩)
    simp only [Umb.Has] at hx ⊢
    omega

/-- The paragraphs that belong to no UMB. -/
theorem Built.linking (h : Built root mem₀ us mem umbMax ps) (hx : ∀ u ∈ us, ¬ u.Has x)
    (ha : root ≤ x) (hlt : x < nextLink root ps) : Linking root (chainOf ps) x := by
  have hcell : ¬ Cells root ps x := fun hc => by
    obtain ⟨u, hu, hux⟩ := (h.cells x).mp hc
    exact hx u hu hux
  obtain ⟨l, g, n, r, rfl, h1, h2⟩ := exists_pair ha hlt
  refine ⟨_, _, at_link root g n l r, rfl, rfl, h1, ?_⟩
  simp only [linkBlock]
  by_contra hle
  exact hcell ((cells_append _ _ _ _).mpr (Or.inr (Or.inl (by omega))))

/-! ## The end of the chain -/

/-- The last block gets the paragraph that no link block needs. -/
def lastBlock (n : ℕ) : Mcb := { umbBlock (n + 1) with mType := mcbLast }

/-- The chain from the root on, when it is finished. -/
def finished (l : List (ℕ × ℕ)) (g n : ℕ) : List Mcb := chainOf l ++ [linkBlock g, lastBlock n]

/-- A block of the chain has kept its place, but the last one has changed. -/
theorem at_finished {y : ℕ} (hat : At a (chainOf (l ++ [(g, n)])) y b) :
    At a (finished l g n) y b ∨ b = umbBlock n ∧ At a (finished l g n) y (lastBlock n) := by
  rw [chainOf_append, at_append] at hat
  rcases hat with hat | hat
  · exact Or.inl (at_append.mpr (Or.inl hat))
  · rcases at_cons.mp hat with ⟨rfl, rfl⟩ | hat
    · exact Or.inl (at_append.mpr (Or.inr (at_cons.mpr (Or.inl ⟨rfl, rfl⟩))))
    · rcases at_cons.mp hat with ⟨rfl, rfl⟩ | ⟨pre, suf, hnil, -⟩
      · exact Or.inr ⟨rfl, at_append.mpr (Or.inr (at_cons.mpr (Or.inr
          (at_cons.mpr (Or.inl ⟨rfl, rfl⟩)))))⟩
      · simp [chainOf] at hnil

/-- The highest UMB begins with the last free block. -/
theorem Built.last_eq (h : Built root mem₀ us mem umbMax (l ++ [(g, n)]))
    (hfits : ∀ v ∈ us, v.Fits root) (hapart : us.Pairwise Umb.Apart)
    (htop : ∀ w ∈ us, (∀ v ∈ us, v.seg ≤ w.seg) → ∀ v ∈ us, v.seg + v.size ≠ w.seg) :
    umbMax = nextLink root l + g + 1 := by
  obtain ⟨w, hw, rfl, hend, hhighest⟩ := h.highest
  have hw2 := (hfits w hw).two
  simp only [nextLink_append, nextLink_cons, nextLink_nil] at hend
  rcases Nat.lt_trichotomy w.seg (nextLink root l + g + 1) with hlt | heq | hgt
  · refine absurd ((h.cells _).mpr ⟨w, hw, ?_⟩) h.before_free
    simp only [Umb.Has]
    omega
  · exact heq
  · -- then the paragraph before it belongs to another UMB, which ends there
    have hcell : Cells root (l ++ [(g, n)]) (w.seg - 1) :=
      (cells_append _ _ _ _).mpr (Or.inr (Or.inl (by omega)))
    obtain ⟨v, hv, hvx⟩ := (h.cells _).mp hcell
    have hne : v ≠ w := by
      rintro rfl
      simp only [Umb.Has] at hvx
      omega
    have := hapart.forall hv hw hne
    have := htop w hw hhighest v hv
    simp only [Umb.Apart, Umb.Has] at *
    omega

/-- **The end of the highest UMB.**  The last block becomes the last one of the chain, and takes in
the paragraph that was left for a link block. -/
theorem Built.finish (h : Built root mem₀ us mem umbMax (l ++ [(g, n)]))
    (hlast : umbMax = nextLink root l + g + 1) (hfits : ∀ v ∈ us, v.Fits root)
    (happ : ∀ x, mem' x = if x = umbMax then lastBlock n else mem x) :
    Tiled mem' root (finished l g n) (nextLink root l + g + n + 3) ∧
      (∃ u ∈ us, u.seg + u.size = nextLink root l + g + n + 3) ∧
      (∀ u ∈ us, u.seg + u.size ≤ nextLink root l + g + n + 3) ∧
      (∀ x, root ≤ x → x < nextLink root l + g + n + 3 → (∀ u ∈ us, ¬ u.Has x) →
        Linking root (finished l g n) x) ∧
      ∀ u ∈ us, ∀ x, u.Has x → u.Covered root (finished l g n) x := by
  obtain ⟨w, hw, hwmax, hend, hhighest⟩ := h.highest
  have hroot := le_nextLink root l
  have hnext : nextLink root (l ++ [(g, n)]) = nextLink root l + g + n + 2 := by simp
  obtain ⟨hl, hlink, -⟩ := linked_snoc.mp h.linked
  have hbelow : ∀ u ∈ us, u.seg + u.size ≤ nextLink root l + g + n + 3 := by
    intro u hu
    have := (hfits u hu).two
    have hcell : Cells root (l ++ [(g, n)]) (u.seg + u.size - 1) :=
      (h.cells _).mpr ⟨u, hu, by omega, by omega⟩
    have := hcell.bounds.2
    omega
  -- the block that has become larger
  have hlastAt : At root (finished l g n) umbMax (lastBlock n) := by
    refine ⟨chainOf l ++ [linkBlock g], [], by simp [finished], ?_⟩
    simp only [hlast, nextLink, total_append, total, size_mcb, linkBlock]
    omega
  refine ⟨⟨?_, ?_, ?_⟩, ⟨w, hw, by omega⟩, hbelow, fun x hx hlt hno => ?_, fun u hu x hx => ?_⟩
  · rw [finished, linked_append]
    refine ⟨Linked.congr_below hl (Nat.le_refl _) fun y _ hy => ?_, ?_, ?_, trivial⟩
    · rw [happ, if_neg (by omega)]
    · have hat : mem' (nextLink root l) = linkBlock g := by rw [happ, if_neg (by omega), hlink]
      exact hat
    · have hat : mem' (nextLink root l + g + 1) = lastBlock n := by
        rw [happ, if_pos (by omega)]
      have hpos : root + total (chainOf l) + (Header.size (linkBlock g) + 1) =
          nextLink root l + g + 1 := by
        simp only [nextLink, size_mcb, linkBlock]
        omega
      rw [hpos]
      exact hat
  · rw [finished, ended_append (by simp)]
    exact ⟨fun b hb => mType_chainOf hb, rfl, rfl⟩
  · simp only [finished, nextLink, total_append, total, size_mcb, linkBlock, lastBlock, umbBlock]
    omega
  · have hne : x ≠ nextLink root (l ++ [(g, n)]) := by
      rintro rfl
      have := (hfits w hw).two
      exact hno w hw ⟨by omega, by omega⟩
    obtain ⟨y, b, hat, hpsp, hname, hy⟩ := h.linking hno hx (by omega)
    rcases at_finished hat with hat | ⟨rfl, -⟩
    · exact ⟨y, b, hat, hpsp, hname, hy⟩
    · exact absurd hpsp (show ¬ freePsp = systemPsp by decide)
  · have hle := hbelow u hu
    by_cases hlt : x < nextLink root (l ++ [(g, n)])
    · rcases h.covered hu hx hlt with ⟨y, b, hat, hpsp, hy, hyx, hxu⟩ | ⟨b, hat, hpsp, hname, hxu⟩
      · rcases at_finished hat with hat | ⟨rfl, hat'⟩
        · exact Or.inl ⟨y, b, hat, hpsp, hy, hyx, hxu⟩
        · refine Or.inl ⟨y, _, hat', rfl, hy, ?_, hxu⟩
          simp only [umbBlock, lastBlock] at hyx ⊢
          omega
      · rcases at_finished hat with hat | ⟨rfl, -⟩
        · exact Or.inr ⟨b, hat, hpsp, hname, hxu⟩
        · exact absurd hpsp (show ¬ freePsp = systemPsp by decide)
    · refine Or.inl ⟨umbMax, _, hlastAt, rfl, by simp only [Umb.Has] at hx; omega, ?_, fun heq => ?_⟩
      · simp only [Umb.Has, lastBlock, umbBlock] at hx ⊢
        omega
      · omega

/-! ## Upper memory behind conventional memory -/

/-- Conventional memory before `umb_init`: `base_seg` is its last block, and has a paragraph to
spare. -/
structure LowReady (s : State) (baseSeg ramTop : ℕ) (pre : List Mcb) (b : Mcb) : Prop where
  tiled : Tiled s.mem s.firstMcb (pre ++ [b]) (ramTop * 64)
  base : baseSeg = s.firstMcb + total pre
  room : 1 ≤ b.mSize
  fits : ramTop * 64 < 2 ^ 16

/-- What the driver can hand out: the largest UMB first, and all above conventional memory. -/
structure HandedOut (root : ℕ) (us : List Umb) : Prop where
  fits : ∀ u ∈ us, u.Fits root
  apart : us.Pairwise Umb.Apart
  largest : us.Pairwise fun u v => v.size ≤ u.size

/-- The chain of MCBs is well formed from conventional memory to the end of the highest UMB. -/
def WellBuilt (s : State) (root : ℕ) (us : List Umb) (s' : State) : Prop :=
  s'.firstMcb = s.firstMcb ∧ s'.uppermemRoot = root ∧ ∃ low up top,
    Tiled s'.mem s.firstMcb (low ++ up) top ∧ s.firstMcb + total low = root ∧
    (∃ u ∈ us, u.seg + u.size = top) ∧ (∀ u ∈ us, u.seg + u.size ≤ top) ∧
    (∀ x, root ≤ x → x < top → (∀ u ∈ us, ¬ u.Has x) → Linking root up x) ∧
    ∀ u ∈ us, ∀ x, u.Has x → u.Covered root up x

theorem Next.congr (h : Next root mem us u) (hv : ∀ v ∈ us, v.Fits root)
    (hmem : ∀ x, root < x → mem' x = mem x) : Next root mem' us u := by
  refine ⟨h.below, h.first, fun hlt w hw hmax => ?_⟩
  obtain ⟨habove, htwo, -⟩ := hv w hw
  rw [hmem _ (by omega)]
  exact h.top hlt w hw hmax

/-- The first UMB. -/
theorem built_first (hu : u.Fits root) :
    Built root mem₀ [u] (mcbInit (mumcbInit mem₀ root (u.seg - root - 1)) u.seg (u.size - 2) mcbNormal)
      u.seg [(u.seg - root - 1, u.size - 2)] := by
  obtain ⟨habove, htwo, hfits⟩ := hu
  have happ := fun x => mcbInit_apply (mumcbInit mem₀ root (u.seg - root - 1)) u.seg (u.size - 2) x
  refine ⟨(linked_snoc (l := [])).mpr ⟨trivial, ?_, ?_⟩, fun x => ?_, by simp, by simp,
    ⟨u, by simp, rfl, ?_, by simp⟩, fun x hx => ?_⟩
  · rw [nextLink_nil, happ, if_neg (by omega), mumcbInit_apply, if_pos rfl]
  · rw [nextLink_nil, happ, if_pos (by omega)]
  · simp only [Cells, Umb.Has, List.mem_singleton, exists_eq_left, or_false]
    omega
  · simp only [nextLink_cons, nextLink_nil]
    omega
  · simp only [nextLink_cons, nextLink_nil] at hx
    rw [happ, if_neg (by omega), mumcbInit_apply, if_neg (by omega)]

/-- **The chain that `umb_init` builds** is well formed for UMBs in such an order. -/
theorem umbInit_chain {s : State} {baseSeg ramTop : ℕ} {pre : List Mcb}
    (hlow : LowReady s baseSeg ramTop pre b) (hout : HandedOut (ramTop * 64 - 1) (u :: us))
    (hord : InOrder (ramTop * 64 - 1) s.mem (u :: us)) :
    ∃ s', umbInit s baseSeg ramTop (u :: us) = some s' ∧
      WellBuilt s (ramTop * 64 - 1) (u :: us) s' := by
  obtain ⟨htiled, hbase, hroom, hfits⟩ := hlow
  have hb := mem_block htiled
  have hfills := htiled.fills
  simp only [total_append, total, size_mcb] at hfills
  have hu := hout.fits u List.mem_cons_self
  have hroot : sub16 (ramTop * 64) 1 = ramTop * 64 - 1 := sub16_eq hfits (by omega)
  generalize hr : ramTop * 64 - 1 = root at *
  have hseg : u.seg < 2 ^ 16 := by have := hu.fits; have := hu.two; omega
  have hgap : sub16 (sub16 u.seg root) 1 = u.seg - root - 1 := by
    have := hu.above
    rw [sub16_eq hseg (by omega), sub16_eq (by omega) (by omega)]
  have hsize : sub16 u.size 2 = u.size - 2 :=
    sub16_eq (by have := hu.fits; have := hu.above; omega) hu.two
  have hbsub : sub16 b.mSize 1 = b.mSize - 1 := sub16_eq (by omega) hroom
  -- conventional memory ends one paragraph earlier
  have happ : ∀ x, ((s.mem.modify baseSeg fun m => { m with mType := mcbNormal }).modify baseSeg
      fun m => { m with mSize := sub16 m.mSize 1 }) x =
      if x = baseSeg then { b with mType := mcbNormal, mSize := b.mSize - 1 } else s.mem x := by
    intro x
    rw [hbase]
    simp only [modify_apply, if_true, hb, hbsub]
    split <;> rfl
  generalize hmem₀ : (s.mem.modify baseSeg fun m => { m with mType := mcbNormal }).modify baseSeg
      (fun m => { m with mSize := sub16 m.mSize 1 }) = mem₀ at happ
  have hnext : ∀ before v after, u :: us = before ++ v :: after → before ≠ [] →
      Next root mem₀ before v := fun before v after heq hne =>
    (hord.next before v after heq hne).congr
      (fun w hw => hout.fits w (by rw [heq]; exact List.mem_append_left _ hw))
      fun x hx => by rw [happ, if_neg (by omega)]
  obtain ⟨mem₁, umbMax, ps, hloop, hbuilt⟩ := umbLoop_built us (built_first hu) hout.fits hout.apart hnext
  obtain ⟨l, ⟨g, n⟩, rfl⟩ : ∃ l p, ps = l ++ [p] := by
    rcases List.eq_nil_or_concat ps with hnil | ⟨l, p, hp⟩
    · exact absurd hnil hbuilt.nonempty
    · exact ⟨l, p, by rw [hp, List.concat_eq_append]⟩
  have hlast := hbuilt.last_eq hout.fits hout.apart hord.top
  have hlt := hbuilt.next_lt hout.fits
  simp only [nextLink_append, nextLink_cons, nextLink_nil] at hlt
  have hmod : (n + 1) % 2 ^ 16 = n + 1 := Nat.mod_eq_of_lt (by omega)
  have hblock : mem₁ umbMax = umbBlock n := hlast ▸ (linked_snoc.mp hbuilt.linked).2.2
  have happ' : ∀ x, ((mem₁.modify umbMax fun m => { m with mSize := (m.mSize + 1) % 2 ^ 16 }).modify
      umbMax fun m => { m with mType := mcbLast }) x = if x = umbMax then lastBlock n else mem₁ x := by
    intro x
    simp only [modify_apply, if_true, hblock]
    split
    · simp only [lastBlock, umbBlock, hmod]
    · rfl
  obtain ⟨hup, hreach, hbelow, hlinking, hcovered⟩ := hbuilt.finish hlast hout.fits happ'
  generalize hmem' : (mem₁.modify umbMax fun m => { m with mSize := (m.mSize + 1) % 2 ^ 16 }).modify
      umbMax (fun m => { m with mType := mcbLast }) = mem' at happ' hup
  have htotal : s.firstMcb + total (pre ++ [{ b with mType := mcbNormal, mSize := b.mSize - 1 }]) =
      root := by
    simp only [total_append, total, size_mcb]
    omega
  refine ⟨{ s with mem := mem', uppermemRoot := root }, ?_, rfl, rfl,
    pre ++ [{ b with mType := mcbNormal, mSize := b.mSize - 1 }], finished l g n, _, ⟨?_, ?_, ?_⟩,
    htotal, hreach, hbelow, hlinking, hcovered⟩
  · rw [umbInit]
    simp only [hroot, hgap, hsize, hmem₀, hloop, hmem']
  · rw [linked_append, htotal]
    refine ⟨?_, hup.linked⟩
    have hsame : ∀ x, x < root → mem' x = mem₀ x := fun x hx => by
      have := le_nextLink root l
      rw [happ', if_neg (by omega), hbuilt.same x (Or.inl hx)]
    obtain ⟨hpre, -⟩ := linked_append.mp htiled.linked
    refine linked_append.mpr ⟨hpre.congr fun x _ hx => ?_, ?_, trivial⟩
    · exact (hsame x (by omega)).trans ((happ x).trans (if_neg (by omega)))
    · exact (hsame _ (by omega)).trans ((happ _).trans (if_pos hbase.symm))
  · refine (ended_append hup.ended.ne_nil).mpr ⟨fun c hc => ?_, hup.ended⟩
    rcases List.mem_append.mp hc with hc | hc
    · exact ((ended_append (by simp)).mp htiled.ended).1 c hc
    · rw [List.mem_singleton.mp hc]
      rfl
  · rw [total_append, ← Nat.add_assoc, htotal]
    exact hup.fills

end

/-- Free conventional memory up to `A000h`, and nothing else. -/
def lowFree : State where
  mem := fun x => if x = 0x100 then ⟨mcbLast, 0, 0x9eff, []⟩ else ⟨0, 0, 0, []⟩
  firstMcb := 0x100
  uppermemRoot := 0xffff
  uppermemLink := 0
  memAccessMode := 0
  cuPsp := 0

theorem lowFree_ready : LowReady lowFree 0x100 640 [] (lowFree.mem 0x100) :=
  ⟨⟨⟨rfl, trivial⟩, rfl, rfl⟩, rfl, by decide, by decide⟩

/-- One UMB, and a smaller one below it. -/
theorem umbInit_chain_lowFree :
    ∃ s', umbInit lowFree 0x100 640 [⟨0xd000, 0x800⟩, ⟨0xc800, 0x100⟩] = some s' ∧
      WellBuilt lowFree 0x9fff [⟨0xd000, 0x800⟩, ⟨0xc800, 0x100⟩] s' := by
  refine umbInit_chain lowFree_ready ⟨?_, by simp [Umb.Apart], by simp⟩ ⟨?_, ?_⟩
  · simp only [List.mem_cons, List.not_mem_nil, or_false, forall_eq_or_imp, forall_eq]
    exact ⟨⟨by decide, by decide, by decide⟩, ⟨by decide, by decide, by decide⟩⟩
  · intro before u after heq hne
    obtain ⟨rfl, rfl, rfl⟩ : before = [⟨0xd000, 0x800⟩] ∧ u = ⟨0xc800, 0x100⟩ ∧ after = [] := by
      rcases before with _ | ⟨v, _ | ⟨v', before⟩⟩
      · exact absurd rfl hne
      · simpa [eq_comm] using heq
      · simp at heq
    exact ⟨by simp, by simp, fun h => by simp at h⟩
  · simp

/-- Two UMBs, one of which begins where the other one ends. -/
def adjacent : List Umb := [⟨0xc800, 0x100⟩, ⟨0xc900, 0x100⟩]

/-- The second one is merged with the first, but it is inside the merged block that the end of the
chain is marked. -/
theorem adjacent_fails : ¬ ∀ s baseSeg ramTop pre b u us, LowReady s baseSeg ramTop pre b →
    HandedOut (ramTop * 64 - 1) (u :: us) →
    ∃ s', umbInit s baseSeg ramTop (u :: us) = some s' ∧
      WellBuilt s (ramTop * 64 - 1) (u :: us) s' := by
  intro h
  have hout : HandedOut (640 * 64 - 1) adjacent := by
    refine ⟨?_, by simp [adjacent, Umb.Apart], by simp [adjacent]⟩
    simp only [adjacent, List.mem_cons, List.not_mem_nil, or_false, forall_eq_or_imp, forall_eq]
    exact ⟨⟨by decide, by decide, by decide⟩, ⟨by decide, by decide, by decide⟩⟩
  obtain ⟨s', hs', -, -, low, up, top, htiled, -⟩ := h lowFree 0x100 640 [] _ _ _ lowFree_ready hout
  have hmem : (umbInit lowFree 0x100 640 adjacent).map (fun s =>
      [s.mem 0x100, s.mem 0x9fff, s.mem 0xc800, s.mem 0xc9ff].map fun m => (m.mType, m.mSize)) =
      some [(mcbNormal, 0x9efe), (mcbNormal, 0x2800), (mcbNormal, 0x1fe), (0, 0)] := by
    decide +kernel
  rw [adjacent, hs', Option.map_some] at hmem
  simp only [List.map_cons, List.map_nil, Option.some.injEq, List.cons.injEq, Prod.mk.injEq,
    and_true] at hmem
  obtain ⟨⟨ht1, hs1⟩, ⟨ht2, hs2⟩, ⟨ht3, hs3⟩, ht4, -⟩ := hmem
  -- from block to block, past the place where the chain should end
  have hat1 : ∃ b, At lowFree.firstMcb (low ++ up) 0x100 b := by
    obtain ⟨b, cs, hcs⟩ := List.exists_cons_of_ne_nil htiled.ended.ne_nil
    exact ⟨b, [], cs, hcs, rfl⟩
  have hat2 := htiled.next not_last_of_more hat1 ht1
  rw [size_mcb, hs1] at hat2
  have hat3 := htiled.next not_last_of_more hat2 ht2
  rw [size_mcb, hs2] at hat3
  have hat4 := htiled.next not_last_of_more hat3 ht3
  rw [size_mcb, hs3] at hat4
  obtain ⟨b, hb⟩ := hat4
  have hmem := htiled.linked.mem_eq hb
  obtain ⟨pre, suf, heq, -⟩ := hb
  rw [heq] at htiled
  rw [hmem] at ht4
  rcases block_type htiled with ⟨-, hlast⟩ | ⟨-, hmore⟩
  · rw [ht4] at hlast
    exact absurd hlast (by decide)
  · rw [ht4] at hmore
    exact absurd hmore (by decide)

end Memory
end BurdahDos
