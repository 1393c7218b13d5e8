import BurdahDos.Memory.Kernel
import Mathlib

/-!
# What the kernel's memory looks like

`Layout` is what holds at any time of the memory that `KernelAllocPara` works in: the chain of MCBs,
the low and the upper region in it, and what has been handed out.  `run_layout` says that it holds
after any calls that fit, whatever is written in between into what was handed out.
-/

set_option autoImplicit false

namespace BurdahDos
namespace Memory

open Tiling

/-! ## What is handed out -/

/-- What was asked for, the segment that was returned, and the region that it is in. -/
structure Part where
  request : KernelRequest
  seg : ℕ
  high : Bool

/-- The paragraph belongs to the part. -/
def Part.Has (p : Part) (x : ℕ) : Prop := p.seg ≤ x ∧ x < p.seg + p.request.nPara.toNat

/-- The parts have no paragraph in common. -/
def Part.Apart (p q : Part) : Prop :=
  p.seg + p.request.nPara.toNat ≤ q.seg ∨ q.seg + q.request.nPara.toNat ≤ p.seg

/-- The header of the sub-block says what was asked for, and where it is. -/
structure Part.Describes (p : Part) (b : Mcb) : Prop where
  type : b.mType = p.request.type
  start : b.mPsp.toNat = p.seg
  size : b.mSize = p.request.nPara.toNat
  name : ∀ n, p.request.name = some n → b.mName = n

/-- **A region**: the sub-blocks fill what is behind the header at `start`, in the order of the
parts, and each one says where it is. -/
structure Region (mem : Mem) (start base : ℕ) (ps : List Part) (subs : List Mcb) : Prop where
  base_eq : base = baseOf start subs
  linked : Linked mem (start + 1) subs
  parts : List.Forall₂ Part.Describes ps subs
  starts : ∀ x b, At (start + 1) subs x b → b.mPsp.toNat = x + 1

/-- **The memory of the kernel**: a chain of MCBs up to `e`, which begins with the low region and in
which the upper region is somewhere behind it. -/
structure Layout (s : KernelState) (e : ℕ) (ps : List Part) (bs low high : List Mcb) : Prop where
  e_le : e ≤ 2 ^ 16
  tiled : Tiled s.mem s.firstMcb bs e
  lowRegion : Region s.mem s.firstMcb s.baseSeg (ps.filter fun p => !p.high) low
  highRegion : s.umbState = 1 → Region s.mem s.umbStart s.umbBaseSeg (ps.filter Part.high) high
  blocks : ∃ free rest, free.mPsp = freePsp ∧ bs = regionBlocks low free ++ rest ∧
    (s.umbState = 1 → ∃ mid free' suf, free'.mPsp = freePsp ∧
      rest = mid ++ (regionBlocks high free' ++ suf) ∧
      s.umbStart = s.firstMcb + total (regionBlocks low free) + total mid)
  noHigh : s.umbState ≠ 1 → ∀ p ∈ ps, p.high = false
  apart : ps.Pairwise Part.Apart

/-- There is a header at `x`, of a block of the chain or of a sub-block. -/
def HeaderAt (s : KernelState) (bs low high : List Mcb) (x : ℕ) : Prop :=
  (∃ b, At s.firstMcb bs x b) ∨ (∃ b, At (s.firstMcb + 1) low x b) ∨
    (s.umbState = 1 ∧ ∃ b, At (s.umbStart + 1) high x b)

/-- The request fits the free block at the base of its region, with the headers that it takes. -/
def FitsFree (s : KernelState) (r : KernelRequest) : Prop :=
  let base := if s.isHigh r then s.umbBaseSeg else s.baseSeg
  let start := if s.isHigh r then s.umbStart else s.firstMcb
  r.nPara.toNat + (if base = start then 2 else 1) ≤ (s.mem base).mSize

instance (s : KernelState) (r : KernelRequest) : Decidable (FitsFree s r) :=
  inferInstanceAs (Decidable (_ ≤ _))

/-- A run: calls of `KernelAllocPara` that fit, with the parts that were handed out; what is in these
may be written at any time. -/
inductive Run (s : KernelState) (ps : List Part) : KernelState → List Part → Prop
  | start : Run s ps s ps
  | call {s' : KernelState} {ps' : List Part} (r : KernelRequest) :
    Run s ps s' ps' → FitsFree s' r →
      Run s ps (kernelAllocPara s' r).1 (ps' ++ [⟨r, (kernelAllocPara s' r).2, s'.isHigh r⟩])
  | write {s' : KernelState} {ps' : List Part} (mem : Mem) :
    Run s ps s' ps' → (∀ x, (∀ p ∈ ps', ¬ p.Has x) → mem x = s'.mem x) →
      Run s ps { s' with mem := mem } ps'

/-! ## One region -/

section Region

variable {mem : Mem} {a e start base : ℕ} {pre suf subs : List Mcb} {free : Mcb} {ps : List Part}

theorem lt_total_regionBlocks (subs : List Mcb) (free : Mcb) :
    total subs < total (regionBlocks subs free) := by
  rw [regionBlocks]
  split
  · rename_i h
    rw [h]
    simp [total]
  · simp [total, dataBlock]
    omega

theorem baseOf_eq_start : baseOf start subs = start ↔ subs = [] := by
  rw [baseOf]
  split
  · simp [*]
  · simp only [*, iff_false]
    omega

/-- The free block is at the base. -/
theorem mem_baseOf (h : Tiled mem a (pre ++ (regionBlocks subs free ++ suf)) e)
    (hstart : start = a + total pre) : mem (baseOf start subs) = free := by
  rw [regionBlocks] at h
  rw [baseOf]
  by_cases hs : subs = []
  · rw [if_pos hs] at h ⊢
    rw [hstart]
    exact mem_block h
  · rw [if_neg hs] at h ⊢
    have hsplit : pre ++ ([dataBlock (total subs), free] ++ suf) =
        (pre ++ [dataBlock (total subs)]) ++ free :: suf := by simp
    have := mem_block (hsplit ▸ h)
    rwa [show a + total (pre ++ [dataBlock (total subs)]) = start + 1 + total subs by
      simp [total, dataBlock]; omega] at this

/-- **A request in a region**: the next sub-block is at its end, the free block behind it, and nothing
changes outside the region. -/
theorem allocIn_region {r : KernelRequest}
    (h : Tiled mem a (pre ++ (regionBlocks subs free ++ suf)) e) (he : e ≤ 2 ^ 16)
    (hstart : start = a + total pre) (hr : Region mem start base ps subs)
    (hfit : r.nPara.toNat + headers subs ≤ free.mSize) (high : Bool) :
    ∃ mem' sub free', allocIn mem start base r =
        (mem', baseOf start (subs ++ [sub]), start + 1 + total subs + 1) ∧
      free'.mPsp = freePsp ∧
      Tiled mem' a (pre ++ (regionBlocks (subs ++ [sub]) free' ++ suf)) e ∧
      Region mem' start (baseOf start (subs ++ [sub]))
        (ps ++ [⟨r, start + 1 + total subs + 1, high⟩]) (subs ++ [sub]) ∧
      (∀ x, x < start ∨ start + total (regionBlocks subs free) ≤ x → mem' x = mem x) ∧
      start + 1 + total subs + 1 + r.nPara.toNat < start + total (regionBlocks subs free) := by
  have hroom : start + total (regionBlocks subs free) ≤ e := by
    have hfills := h.fills
    simp only [total_append] at hfills
    omega
  have htotal := total_regionBlocks subs free
  have hheaders : 1 ≤ headers subs ∧ headers subs ≤ 2 := by
    rw [headers]
    split <;> omega
  -- what memory is once there is a block of system data
  obtain ⟨mem₁, free₁, hpair, htiled₁, hlinked₁, hfit₁, hother₁⟩ : ∃ mem₁ free₁,
      (if base = start then (createData mem start, (base + 1) % 2 ^ 16) else (mem, base)) =
        (mem₁, start + 1 + total subs) ∧
      Tiled mem₁ a (pre ++ ([dataBlock (total subs), free₁] ++ suf)) e ∧
      Linked mem₁ (start + 1) subs ∧ r.nPara.toNat + 1 ≤ free₁.mSize ∧
      ∀ x, x < start ∨ start + total (regionBlocks subs free) ≤ x → mem₁ x = mem x := by
    by_cases hs : subs = []
    · have hbase : base = start := by rw [hr.base_eq, baseOf, if_pos hs]
      rw [hs, headers, if_pos rfl] at hfit
      rw [hs, regionBlocks, if_pos rfl] at h
      obtain ⟨ht, hm⟩ := createData_tiled h he hstart (by omega)
      have hmod : (start + 1) % 2 ^ 16 = start + 1 := Nat.mod_eq_of_lt (by omega)
      refine ⟨createData mem start, restBlock free 1, ?_, ?_, ?_, ?_, ?_⟩
      · rw [if_pos hbase, hbase, hmod, hs]
        rfl
      · rw [hs]
        exact ht
      · rw [hs]
        trivial
      · change r.nPara.toNat + 1 ≤ free.mSize - 1
        omega
      · intro x hx
        exact hm x (by omega) (by omega)
    · have hbase : base = start + 1 + total subs := by rw [hr.base_eq, baseOf, if_neg hs]
      rw [headers, if_neg hs] at hfit
      rw [regionBlocks, if_neg hs] at h
      exact ⟨mem, free, by rw [if_neg (by omega), hbase], h, hr.linked, hfit, fun _ _ => rfl⟩
  obtain ⟨name, hname, htiled, hlinked, hother⟩ :=
    addSub_tiled htiled₁ he hstart rfl hlinked₁ hfit₁
  have hdata : subs ++ [subBlock r (start + 1 + total subs) name] ≠ [] := by simp
  have hn : (r.nPara.toNat + 1) % 2 ^ 16 = r.nPara.toNat + 1 := Nat.mod_eq_of_lt (by omega)
  have hnext : (start + 1 + total subs + (r.nPara.toNat + 1)) % 2 ^ 16 =
      start + 1 + total subs + (r.nPara.toNat + 1) := Nat.mod_eq_of_lt (by omega)
  have hseg : (start + 1 + total subs + 1) % 2 ^ 16 = start + 1 + total subs + 1 :=
    Nat.mod_eq_of_lt (by omega)
  refine ⟨addSub mem₁ start (start + 1 + total subs) r,
    subBlock r (start + 1 + total subs) name, restBlock free₁ (r.nPara.toNat + 1), ?_, rfl, ?_, ?_,
    ?_, by omega⟩
  · rw [allocIn, hpair, baseOf, if_neg hdata]
    simp only [hn, hnext, hseg]
    simp [total, subBlock, Nat.add_assoc]
  · rw [regionBlocks, if_neg hdata]
    exact htiled
  · refine ⟨rfl, hlinked, ?_, ?_⟩
    · refine List.rel_append hr.parts (List.Forall₂.cons ⟨rfl, ?_, rfl, hname⟩ List.Forall₂.nil)
      change (UInt16.ofNat (start + 1 + total subs + 1)).toNat = start + 1 + total subs + 1
      rw [UInt16.toNat_ofNat', hseg]
    · intro x b hx
      rcases at_append.1 hx with hx | hx
      · exact hr.starts x b hx
      · rcases at_cons.1 hx with ⟨rfl, rfl⟩ | ⟨pre', suf', hnil, -⟩
        · change (UInt16.ofNat (start + 1 + total subs + 1)).toNat = start + 1 + total subs + 1
          rw [UInt16.toNat_ofNat', hseg]
        · simp at hnil
  · intro x hx
    rw [hother x (by omega) (by omega) (by omega), hother₁ x hx]

/-- Where a part of a region is. -/
theorem Region.at_part (hr : Region mem start base ps subs) {p : Part} (hp : p ∈ ps) :
    ∃ x b, At (start + 1) subs x b ∧ p.seg = x + 1 ∧ b.mSize = p.request.nPara.toNat := by
  obtain ⟨i, hi, rfl⟩ := List.mem_iff_getElem.1 hp
  have hlen := hr.parts.length_eq
  have hdesc := hr.parts.get hi (hlen ▸ hi)
  have hat : At (start + 1) subs (start + 1 + total (subs.take i)) (subs.get ⟨i, hlen ▸ hi⟩) := by
    refine ⟨subs.take i, subs.drop (i + 1), ?_, rfl⟩
    rw [List.get_eq_getElem, ← List.drop_eq_getElem_cons, List.take_append_drop]
  exact ⟨_, _, hat, hdesc.start.symm.trans (hr.starts _ _ hat), hdesc.size⟩

theorem Region.bounds (hr : Region mem start base ps subs) {p : Part} (hp : p ∈ ps) :
    start + 1 < p.seg ∧ p.seg + p.request.nPara.toNat ≤ start + 1 + total subs := by
  obtain ⟨x, b, hat, hseg, hsize⟩ := hr.at_part hp
  have := hat.bounds
  rw [size_mcb] at this
  omega

/-- There is no header of a sub-block in a part. -/
theorem Region.not_header (hr : Region mem start base ps subs) {p : Part} (hp : p ∈ ps) {x : ℕ}
    (hx : p.Has x) : ¬ ∃ b, At (start + 1) subs x b := by
  rintro ⟨b, hb⟩
  obtain ⟨y, c, hat, hseg, hsize⟩ := hr.at_part hp
  obtain ⟨h1, h2⟩ := hx
  have hdisj := hat.disjoint hb (by omega)
  rw [Set.Ico_disjoint_Ico, size_mcb, size_mcb] at hdisj
  omega

end Region

/-! ## The whole of memory -/

section Layout

variable {s : KernelState} {e : ℕ} {ps : List Part} {bs low high : List Mcb}

/-- What fits, in terms of the region. -/
theorem fits_region {mem : Mem} {a start base n : ℕ} {pre suf subs : List Mcb} {free : Mcb}
    (h : Tiled mem a (pre ++ (regionBlocks subs free ++ suf)) e) (hstart : start = a + total pre)
    (hbase : base = baseOf start subs)
    (hfit : n + (if base = start then 2 else 1) ≤ (mem base).mSize) :
    n + headers subs ≤ free.mSize := by
  rw [hbase, mem_baseOf h hstart] at hfit
  rw [headers]
  simp only [baseOf_eq_start] at hfit
  exact hfit

theorem Part.high_of_mem (h : s.umbState ≠ 1 → ∀ p ∈ ps, p.high = false) {p : Part} (hp : p ∈ ps)
    (hhigh : p.high = true) : s.umbState = 1 := by
  by_contra hne
  exact absurd ((h hne p hp).symm.trans hhigh) (by simp)

/-- A request in the low region. -/
theorem Layout.low_call (h : Layout s e ps bs low high) {r : KernelRequest}
    (hlow : s.isHigh r = false) (hfit : FitsFree s r) :
    ∃ bs' low', Layout (kernelAllocPara s r).1 e
      (ps ++ [⟨r, (kernelAllocPara s r).2, s.isHigh r⟩]) bs' low' high := by
  obtain ⟨free, rest, hfree, hbs, hup⟩ := h.blocks
  have htiled : Tiled s.mem s.firstMcb ([] ++ (regionBlocks low free ++ rest)) e := hbs ▸ h.tiled
  have hzero : s.firstMcb = s.firstMcb + total ([] : List Mcb) := rfl
  have hfit' : r.nPara.toNat + headers low ≤ free.mSize := by
    simp only [FitsFree, hlow, Bool.false_eq_true, if_false] at hfit
    exact fits_region htiled hzero h.lowRegion.base_eq hfit
  obtain ⟨mem', sub, free', halloc, hfree', htiled', hregion, hother, hroom⟩ :=
    allocIn_region htiled h.e_le hzero h.lowRegion hfit' false
  have hcall : kernelAllocPara s r =
      ({ s with mem := mem', baseSeg := baseOf s.firstMcb (low ++ [sub]) },
        s.firstMcb + 1 + total low + 1) := by
    simp only [kernelAllocPara, hlow, Bool.false_eq_true, if_false, halloc]
  have htotal : total (regionBlocks (low ++ [sub]) free') = total (regionBlocks low free) := by
    have h1 := htiled.fills
    have h2 := htiled'.fills
    simp only [total_append, total] at h1 h2 ⊢
    omega
  rw [hcall, hlow]
  refine ⟨regionBlocks (low ++ [sub]) free' ++ rest, low ++ [sub], h.e_le, htiled', ?_, ?_, ?_, ?_,
    ?_⟩
  · rw [List.filter_append]
    exact hregion
  · intro humb
    obtain ⟨mid, free₂, suf, -, -, hstart⟩ := hup humb
    have hr := h.highRegion humb
    rw [List.filter_append]
    refine ⟨hr.base_eq, hr.linked.congr fun x hx _ => hother x (.inr ?_), ?_, hr.starts⟩
    · rw [hstart] at hx
      omega
    · simpa using hr.parts
  · refine ⟨free', rest, hfree', rfl, fun humb => ?_⟩
    obtain ⟨mid, free₂, suf, hfree₂, hrest, hstart⟩ := hup humb
    exact ⟨mid, free₂, suf, hfree₂, hrest, by rw [htotal]; exact hstart⟩
  · intro humb p hp
    rcases List.mem_append.1 hp with hp | hp
    · exact h.noHigh humb p hp
    · rw [List.mem_singleton.1 hp]
  · refine List.pairwise_append.2 ⟨h.apart, List.pairwise_singleton _ _, ?_⟩
    intro q hq p hp
    rw [List.mem_singleton.1 hp, Part.Apart]
    change q.seg + q.request.nPara.toNat ≤ s.firstMcb + 1 + total low + 1 ∨
      s.firstMcb + 1 + total low + 1 + r.nPara.toNat ≤ q.seg
    cases hqh : q.high with
    | false =>
      have := h.lowRegion.bounds (List.mem_filter.2 ⟨hq, by simp [hqh]⟩)
      omega
    | true =>
      have humb := Part.high_of_mem h.noHigh hq hqh
      have := (h.highRegion humb).bounds (List.mem_filter.2 ⟨hq, hqh⟩)
      obtain ⟨mid, free₂, suf, -, -, hstart⟩ := hup humb
      omega

/-- A request in the upper region. -/
theorem Layout.high_call (h : Layout s e ps bs low high) {r : KernelRequest}
    (hhigh : s.isHigh r = true) (hfit : FitsFree s r) :
    ∃ bs' high', Layout (kernelAllocPara s r).1 e
      (ps ++ [⟨r, (kernelAllocPara s r).2, s.isHigh r⟩]) bs' low high' := by
  have humb : s.umbState = 1 := by
    rw [KernelState.isHigh, Bool.and_eq_true, beq_iff_eq] at hhigh
    exact hhigh.1
  obtain ⟨free, rest, hfree, hbs, hup⟩ := h.blocks
  obtain ⟨mid, free₂, suf, hfree₂, hrest, hstart⟩ := hup humb
  have htiled : Tiled s.mem s.firstMcb
      ((regionBlocks low free ++ mid) ++ (regionBlocks high free₂ ++ suf)) e := by
    rw [List.append_assoc, ← hrest, ← hbs]
    exact h.tiled
  have hstart' : s.umbStart = s.firstMcb + total (regionBlocks low free ++ mid) := by
    rw [total_append, ← Nat.add_assoc]
    exact hstart
  have hfit' : r.nPara.toNat + headers high ≤ free₂.mSize := by
    simp only [FitsFree, hhigh, if_true] at hfit
    exact fits_region htiled hstart' (h.highRegion humb).base_eq hfit
  obtain ⟨mem', sub, free', halloc, hfree', htiled', hregion, hother, hroom⟩ :=
    allocIn_region htiled h.e_le hstart' (h.highRegion humb) hfit' true
  have hcall : kernelAllocPara s r =
      ({ s with mem := mem', umbBaseSeg := baseOf s.umbStart (high ++ [sub]) },
        s.umbStart + 1 + total high + 1) := by
    simp only [kernelAllocPara, hhigh, if_true, halloc]
  have hlowlt := lt_total_regionBlocks low free
  rw [hcall, hhigh]
  refine ⟨regionBlocks low free ++ (mid ++ (regionBlocks (high ++ [sub]) free' ++ suf)),
    high ++ [sub], h.e_le, ?_, ?_, ?_, ?_, fun hne => absurd humb hne, ?_⟩
  · rw [← List.append_assoc]
    exact htiled'
  · have hr := h.lowRegion
    rw [List.filter_append]
    refine ⟨hr.base_eq, hr.linked.congr fun x _ hx => hother x (.inl ?_), ?_, hr.starts⟩
    · change x < s.firstMcb + 1 + total low at hx
      omega
    · simpa using hr.parts
  · intro _
    rw [List.filter_append]
    exact hregion
  · exact ⟨free, _, hfree, rfl, fun _ => ⟨mid, free', suf, hfree', rfl, hstart⟩⟩
  · refine List.pairwise_append.2 ⟨h.apart, List.pairwise_singleton _ _, ?_⟩
    intro q hq p hp
    rw [List.mem_singleton.1 hp, Part.Apart]
    change q.seg + q.request.nPara.toNat ≤ s.umbStart + 1 + total high + 1 ∨
      s.umbStart + 1 + total high + 1 + r.nPara.toNat ≤ q.seg
    cases hqh : q.high with
    | false =>
      have := h.lowRegion.bounds (List.mem_filter.2 ⟨hq, by simp [hqh]⟩)
      omega
    | true =>
      have := (h.highRegion humb).bounds (List.mem_filter.2 ⟨hq, hqh⟩)
      omega

/-- The block with the sub-blocks is in the chain if there are any. -/
theorem at_dataBlock {a start : ℕ} {pre suf subs : List Mcb} {free : Mcb} (hsubs : subs ≠ [])
    (hstart : start = a + total pre) :
    At a (pre ++ (regionBlocks subs free ++ suf)) start (dataBlock (total subs)) := by
  refine ⟨pre, free :: suf, ?_, hstart⟩
  rw [regionBlocks, if_neg hsubs]
  rfl

theorem Region.ne_nil {mem : Mem} {start base : ℕ} {subs : List Mcb}
    (hr : Region mem start base ps subs) {p : Part} (hp : p ∈ ps) : subs ≠ [] := by
  rintro rfl
  have hlen := hr.parts.length_eq
  rw [List.length_nil, List.length_eq_zero_iff] at hlen
  rw [hlen] at hp
  exact List.not_mem_nil hp

/-- A header of the chain is not inside of another block. -/
theorem not_at_inside {a start x size : ℕ} (hdata : At a bs start (dataBlock size))
    (hx : start < x) (hx' : x < start + 1 + size) : ¬ ∃ b, At a bs x b := by
  rintro ⟨b, hb⟩
  have hdisj := hdata.disjoint hb (by omega)
  rw [Set.Ico_disjoint_Ico, size_mcb, size_mcb] at hdisj
  have hsize : (dataBlock size).mSize = size := rfl
  omega

/-- **What is handed out holds no header.** -/
theorem Layout.not_header (h : Layout s e ps bs low high) {p : Part} (hp : p ∈ ps) {x : ℕ}
    (hx : p.Has x) : ¬ HeaderAt s bs low high x := by
  obtain ⟨free, rest, -, hbs, hup⟩ := h.blocks
  have hlowlt := lt_total_regionBlocks low free
  obtain ⟨hx1, hx2⟩ := hx
  cases hph : p.high with
  | false =>
    have hmem : p ∈ ps.filter fun p => !p.high := List.mem_filter.2 ⟨hp, by simp [hph]⟩
    have hbounds := h.lowRegion.bounds hmem
    have hdata : At s.firstMcb bs s.firstMcb (dataBlock (total low)) := by
      rw [hbs]
      have hzero : s.firstMcb = s.firstMcb + total ([] : List Mcb) := rfl
      exact at_dataBlock (h.lowRegion.ne_nil hmem) hzero
    rintro (hchain | hsub | ⟨humb, b, hb⟩)
    · exact not_at_inside hdata (by omega) (by omega) hchain
    · exact h.lowRegion.not_header hmem ⟨hx1, hx2⟩ hsub
    · obtain ⟨mid, free₂, suf, -, -, hstart⟩ := hup humb
      have := hb.bounds
      omega
  | true =>
    have humb := Part.high_of_mem h.noHigh hp hph
    obtain ⟨mid, free₂, suf, -, hrest, hstart⟩ := hup humb
    have hmem : p ∈ ps.filter Part.high := List.mem_filter.2 ⟨hp, hph⟩
    have hbounds := (h.highRegion humb).bounds hmem
    have hdata : At s.firstMcb bs s.umbStart (dataBlock (total high)) := by
      rw [hbs, hrest, ← List.append_assoc]
      refine at_dataBlock ((h.highRegion humb).ne_nil hmem) ?_
      rw [total_append, ← Nat.add_assoc]
      exact hstart
    rintro (hchain | ⟨b, hb⟩ | ⟨-, hsub⟩)
    · exact not_at_inside hdata (by omega) (by omega) hchain
    · have := hb.bounds
      omega
    · exact (h.highRegion humb).not_header hmem ⟨hx1, hx2⟩ hsub

/-- What is written into the parts does not matter. -/
theorem Layout.write (h : Layout s e ps bs low high) {mem : Mem}
    (hmem : ∀ x, (∀ p ∈ ps, ¬ p.Has x) → mem x = s.mem x) :
    Layout { s with mem := mem } e ps bs low high := by
  have hheader : ∀ x, HeaderAt s bs low high x → mem x = s.mem x := fun x hx =>
    hmem x fun p hp hhas => h.not_header hp hhas hx
  refine { h with tiled := ?_, lowRegion := ?_, highRegion := fun humb => ?_ }
  · exact ⟨h.tiled.linked.congr_at fun x b hx => hheader x (.inl ⟨b, hx⟩), h.tiled.ended,
      h.tiled.fills⟩
  · exact { h.lowRegion with
      linked := h.lowRegion.linked.congr_at fun x b hx => hheader x (.inr (.inl ⟨b, hx⟩)) }
  · exact { h.highRegion humb with
      linked := (h.highRegion humb).linked.congr_at fun x b hx =>
        hheader x (.inr (.inr ⟨humb, b, hx⟩)) }

/-- **The memory of the kernel after any calls that fit**: the chain is as long as it was, in both
regions the sub-blocks are those that were asked for, and what was handed out is apart and holds no
header. -/
theorem run_layout {s' : KernelState} {ps' : List Part} (h : Layout s e ps bs low high)
    (hrun : Run s ps s' ps') :
    ∃ bs' low' high', Layout s' e ps' bs' low' high' ∧
      ∀ p ∈ ps', ∀ x, p.Has x → ¬ HeaderAt s' bs' low' high' x := by
  have hlayout : ∃ bs' low' high', Layout s' e ps' bs' low' high' := by
    induction hrun with
    | start => exact ⟨bs, low, high, h⟩
    | call r _ hfit ih =>
      obtain ⟨bs', low', high', hl⟩ := ih
      cases hh : KernelState.isHigh _ r with
      | false =>
        obtain ⟨bs₂, low₂, hl₂⟩ := hl.low_call hh hfit
        exact ⟨bs₂, low₂, high', hh ▸ hl₂⟩
      | true =>
        obtain ⟨bs₂, high₂, hl₂⟩ := hl.high_call hh hfit
        exact ⟨bs₂, low', high₂, hh ▸ hl₂⟩
    | write mem _ hmem ih =>
      obtain ⟨bs', low', high', hl⟩ := ih
      exact ⟨bs', low', high', hl.write hmem⟩
  obtain ⟨bs', low', high', hl⟩ := hlayout
  exact ⟨bs', low', high', hl, fun p hp x hx => hl.not_header hp hx⟩

/-- Nothing is handed out yet, and both regions are one free block. -/
theorem layout_fresh {free : Mcb} {rest : List Mcb} (h : Tiled s.mem s.firstMcb (free :: rest) e)
    (he : e ≤ 2 ^ 16) (hfree : free.mPsp = freePsp) (hbase : s.baseSeg = s.firstMcb)
    (hup : s.umbState = 1 → s.umbBaseSeg = s.umbStart ∧ ∃ mid free' suf, free'.mPsp = freePsp ∧
      rest = mid ++ free' :: suf ∧
      s.umbStart = s.firstMcb + (free.mSize + 1) + total mid) :
    Layout s e [] (free :: rest) [] [] where
  e_le := he
  tiled := h
  lowRegion := ⟨hbase, trivial, List.Forall₂.nil, fun x b ⟨pre, suf, hnil, _⟩ => by simp at hnil⟩
  highRegion humb :=
    ⟨(hup humb).1, trivial, List.Forall₂.nil, fun x b ⟨pre, suf, hnil, _⟩ => by simp at hnil⟩
  blocks := ⟨free, rest, hfree, rfl, fun humb => (hup humb).2⟩
  noHigh _ p hp := absurd hp List.not_mem_nil
  apart := List.Pairwise.nil

end Layout

/-- Ten paragraphs of conventional memory, and an upper block of twenty right behind them. -/
def smallMemory : KernelState where
  mem := mcbInit (mcbInit (fun _ => ⟨0, 0, 0, []⟩) 0x100 9 mcbNormal) 0x10a 20 mcbLast
  firstMcb := 0x100
  baseSeg := 0x100
  umbState := 1
  umbStart := 0x10a
  umbBaseSeg := 0x10a

theorem smallMemory_layout : Layout smallMemory 0x11f []
    [⟨mcbNormal, freePsp, 9, List.replicate 8 0⟩, ⟨mcbLast, freePsp, 20, List.replicate 8 0⟩]
    [] [] := by
  refine layout_fresh ⟨⟨rfl, rfl, trivial⟩, ⟨rfl, rfl⟩, rfl⟩ (by decide) rfl rfl ?_
  exact fun _ => ⟨rfl, [], _, [], rfl, rfl, rfl⟩

/-- Four paragraphs in conventional memory, and five in upper memory. -/
theorem smallMemory_run : ∃ s ps bs low high, Layout s 0x11f ps bs low high ∧ ps.length = 2 ∧
    ∀ p ∈ ps, ∀ x, p.Has x → ¬ HeaderAt s bs low high x := by
  have hstart : Run smallMemory [] smallMemory [] := Run.start
  have hrun := Run.call ⟨5, 0x44, none, 1⟩
    (Run.call ⟨4, 0x46, none, 0⟩ hstart (by decide +kernel)) (by decide +kernel)
  obtain ⟨bs, low, high, hl, hheader⟩ := run_layout smallMemory_layout hrun
  exact ⟨_, _, bs, low, high, hl, rfl, hheader⟩

end Memory
end BurdahDos
