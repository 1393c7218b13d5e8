import BurdahDos.Memory.Upper
import Mathlib

/-!
# Memory for the kernel

`KernelAllocPara` of `kernel/config.c`, with which the kernel and the device drivers get memory
while CONFIG.SYS is read.  All that is allocated in one region, low or upper, is inside of one block
of the MCB chain that belongs to the system, as a sub-block with a header of its own; `base_seg` or
`umb_base_seg` is where the next one comes, and the free block begins there.

The header of a sub-block has its type, its start and its size where an MCB has its type, its owner
and its size.
-/

set_option autoImplicit false

namespace BurdahDos
namespace Memory

open Tiling

/-! ## `KernelAllocPara` -/

/-- Memory, and the variables that `KernelAllocPara` works with. -/
structure KernelState where
  mem : Mem
  firstMcb : ℕ
  baseSeg : ℕ
  umbState : ℤ
  umbStart : ℕ
  umbBaseSeg : ℕ

/-- The arguments of `KernelAllocPara`.  The name has 8 bytes, if there is one. -/
structure KernelRequest where
  nPara : UInt16
  type : UInt8
  name : Option (List UInt8)
  mode : ℤ

/-- The name of the first block of a region, `SD`. -/
def nameSD : List UInt8 := nameSC.set 1 0x44

/-- The block of system data is created in the place of the free block. -/
def createData (mem : Mem) (start : ℕ) : Mem :=
  let p := mem start
  let mem := mcbInit mem ((start + 1) % 2 ^ 16) (sub16 p.mSize 1) p.mType
  let mem := mumcbInit mem start 0
  mem.modify start fun p => { p with mName := p.mName.set 1 0x44 }

/-- A sub-block is put at `base`, and the free block behind it. -/
def addSub (mem : Mem) (start base : ℕ) (r : KernelRequest) : Mem :=
  let nPara := (r.nPara.toNat + 1) % 2 ^ 16
  let mem := mcbInit mem ((base + nPara) % 2 ^ 16) (sub16 (mem base).mSize nPara) (mem base).mType
  let mem := mem.modify start fun p => { p with mSize := (p.mSize + nPara) % 2 ^ 16 }
  mem.modify base fun p =>
    { mType := r.type
      mPsp := UInt16.ofNat (base + 1)
      mSize := sub16 nPara 1
      mName := r.name.getD p.mName }

/-- What `KernelAllocPara` does in a region: memory, the new base, and the segment it returns. -/
def allocIn (mem : Mem) (start base : ℕ) (r : KernelRequest) : Mem × ℕ × ℕ :=
  let (mem, base) :=
    if base = start then (createData mem start, (base + 1) % 2 ^ 16) else (mem, base)
  (addSub mem start base r, (base + (r.nPara.toNat + 1) % 2 ^ 16) % 2 ^ 16, (base + 1) % 2 ^ 16)

/-- The request is for upper memory, and there is some. -/
def KernelState.isHigh (s : KernelState) (r : KernelRequest) : Bool := s.umbState == 1 && r.mode != 0

/-- `KernelAllocPara`: the state and the segment it returns. -/
def kernelAllocPara (s : KernelState) (r : KernelRequest) : KernelState × ℕ :=
  if s.isHigh r then
    let (mem, base, seg) := allocIn s.mem s.umbStart s.umbBaseSeg r
    ({ s with mem := mem, umbBaseSeg := base }, seg)
  else
    let (mem, base, seg) := allocIn s.mem s.firstMcb s.baseSeg r
    ({ s with mem := mem, baseSeg := base }, seg)

/-! ## A region -/

/-- The first block of a region. -/
def dataBlock (size : ℕ) : Mcb := ⟨mcbNormal, systemPsp, size, nameSD⟩

/-- The blocks that a region consists of: the block with the sub-blocks, if there are any, and the
free block. -/
def regionBlocks (subs : List Mcb) (free : Mcb) : List Mcb :=
  if subs = [] then [free] else [dataBlock (total subs), free]

/-- Where the free block of a region is. -/
def baseOf (start : ℕ) (subs : List Mcb) : ℕ :=
  if subs = [] then start else start + 1 + total subs

/-- How many headers a request adds to a region. -/
def headers (subs : List Mcb) : ℕ := if subs = [] then 2 else 1

/-- The free block that is left. -/
def restBlock (free : Mcb) (used : ℕ) : Mcb :=
  ⟨free.mType, freePsp, free.mSize - used, List.replicate 8 0⟩

/-- The header of the sub-block of a request. -/
def subBlock (r : KernelRequest) (base : ℕ) (name : List UInt8) : Mcb :=
  ⟨r.type, UInt16.ofNat (base + 1), r.nPara.toNat, name⟩

theorem total_regionBlocks (subs : List Mcb) (free : Mcb) :
    total (regionBlocks subs free) + headers subs = total subs + free.mSize + 3 := by
  rw [regionBlocks, headers]
  split
  · rename_i h
    rw [h]
    simp [total]
  · simp [total, dataBlock]
    omega

section Region

variable {mem : Mem} {a e start : ℕ} {pre suf subs : List Mcb} {free : Mcb}

/-- Creating the block of system data splits the free block. -/
theorem createData_tiled (h : Tiled mem a (pre ++ ([free] ++ suf)) e) (he : e ≤ 2 ^ 16)
    (hstart : start = a + total pre) (hfit : 1 ≤ free.mSize) :
    Tiled (createData mem start) a (pre ++ ([dataBlock 0, restBlock free 1] ++ suf)) e ∧
      ∀ x, x ≠ start → x ≠ start + 1 → createData mem start x = mem x := by
  have hfree : mem start = free := hstart ▸ mem_block h
  have hend := block_end h
  have hmod : (start + 1) % 2 ^ 16 = start + 1 := Nat.mod_eq_of_lt (by omega)
  have hsub : sub16 free.mSize 1 = free.mSize - 1 := by
    rw [sub16]
    omega
  have hcreate : createData mem start =
      (mumcbInit (mcbInit mem (start + 1) (free.mSize - 1) free.mType) start 0).modify start
        fun p => { p with mName := p.mName.set 1 0x44 } := by
    rw [createData, hfree, hmod, hsub]
  have hstartMem : createData mem start start = dataBlock 0 := by
    simp [hcreate, Mem.modify, mumcbInit, dataBlock, nameSD]
  have hnextMem : createData mem start (start + 1) = restBlock free 1 := by
    simp [hcreate, Mem.modify, mumcbInit, mcbInit, restBlock]
  have hother : ∀ x, x ≠ start → x ≠ start + 1 → createData mem start x = mem x := by
    intro x hx hx'
    simp [hcreate, Mem.modify, mumcbInit, mcbInit, hx, hx']
  refine ⟨?_, hother⟩
  refine Tiled.replace [free] [dataBlock 0, restBlock free 1] h ?_ ?_ ?_ ?_ (by simp)
  · simp [total, dataBlock, restBlock]
    omega
  · intro hended
    refine ⟨rfl, ?_⟩
    cases suf with
    | nil => exact hended
    | cons c suf => exact ⟨hended.1, hended.2⟩
  · rw [← hstart]
    exact ⟨hstartMem, hnextMem, trivial⟩
  · intro x hx
    rw [← hstart] at hx
    simp only [total, size_mcb] at hx
    exact hother x (by omega) (by omega)

/-- Adding a sub-block takes its room from the free block. -/
theorem addSub_tiled {base : ℕ} {r : KernelRequest}
    (h : Tiled mem a (pre ++ ([dataBlock (total subs), free] ++ suf)) e) (he : e ≤ 2 ^ 16)
    (hstart : start = a + total pre) (hbase : base = start + 1 + total subs)
    (hsubs : Linked mem (start + 1) subs) (hfit : r.nPara.toNat + 1 ≤ free.mSize) :
    ∃ name, (∀ n, r.name = some n → name = n) ∧
      Tiled (addSub mem start base r) a
        (pre ++ ([dataBlock (total (subs ++ [subBlock r base name])),
          restBlock free (r.nPara.toNat + 1)] ++ suf)) e ∧
      Linked (addSub mem start base r) (start + 1) (subs ++ [subBlock r base name]) ∧
      ∀ x, x ≠ start → x ≠ base → x ≠ base + (r.nPara.toNat + 1) →
        addSub mem start base r x = mem x := by
  have hdata : mem start = dataBlock (total subs) := hstart ▸ mem_block h
  have hsplit : pre ++ ([dataBlock (total subs), free] ++ suf) =
      (pre ++ [dataBlock (total subs)]) ++ free :: suf := by simp
  have hpre : a + total (pre ++ [dataBlock (total subs)]) = base := by
    simp [total, dataBlock]
    omega
  have hfree : mem base = free := by
    have := mem_block (hsplit ▸ h)
    rwa [hpre] at this
  have hend : base + (free.mSize + 1) + total suf = e := by
    have := block_end (hsplit ▸ h)
    rwa [hpre] at this
  have hn : (r.nPara.toNat + 1) % 2 ^ 16 = r.nPara.toNat + 1 := Nat.mod_eq_of_lt (by omega)
  have hnext : (base + (r.nPara.toNat + 1)) % 2 ^ 16 = base + (r.nPara.toNat + 1) :=
    Nat.mod_eq_of_lt (by omega)
  have hrest : sub16 free.mSize (r.nPara.toNat + 1) = free.mSize - (r.nPara.toNat + 1) := by
    rw [sub16]
    omega
  have hsize : sub16 (r.nPara.toNat + 1) 1 = r.nPara.toNat := by
    rw [sub16]
    omega
  have hsum : (total subs + (r.nPara.toNat + 1)) % 2 ^ 16 = total subs + (r.nPara.toNat + 1) :=
    Nat.mod_eq_of_lt (by omega)
  have hne : base ≠ start := by omega
  -- the three headers that are written, and the rest
  have hadd : addSub mem start base r =
      (Mem.modify (mcbInit mem (base + (r.nPara.toNat + 1)) (free.mSize - (r.nPara.toNat + 1))
        free.mType) start fun p =>
          { p with mSize := (p.mSize + (r.nPara.toNat + 1)) % 2 ^ 16 }).modify base fun p =>
        { mType := r.type, mPsp := UInt16.ofNat (base + 1), mSize := r.nPara.toNat
          mName := r.name.getD p.mName } := by
    rw [addSub, hn, hnext, hfree, hrest, hsize]
  have hstartMem : addSub mem start base r start = dataBlock (total subs + (r.nPara.toNat + 1)) := by
    rw [← hsum]
    simp [hadd, Mem.modify, mcbInit, hdata, hne.symm, dataBlock,
      show start ≠ base + (r.nPara.toNat + 1) by omega]
  have hbaseMem : addSub mem start base r base = subBlock r base (r.name.getD free.mName) := by
    simp [hadd, Mem.modify, mcbInit, hfree, hne, subBlock]
  have hnextMem : addSub mem start base r (base + (r.nPara.toNat + 1)) =
      restBlock free (r.nPara.toNat + 1) := by
    simp [hadd, Mem.modify, mcbInit, restBlock,
      show base + (r.nPara.toNat + 1) ≠ start by omega]
  have hother : ∀ x, x ≠ start → x ≠ base → x ≠ base + (r.nPara.toNat + 1) →
      addSub mem start base r x = mem x := by
    intro x h1 h2 h3
    simp [hadd, Mem.modify, mcbInit, h1, h2, h3]
  have htotal : total (subs ++ [subBlock r base (r.name.getD free.mName)]) =
      total subs + (r.nPara.toNat + 1) := by
    simp [total, subBlock]
  refine ⟨r.name.getD free.mName, fun n hname => by rw [hname]; rfl, ?_, ?_, hother⟩
  · rw [htotal]
    refine Tiled.replace [dataBlock (total subs), free] _ h ?_ ?_ ?_ ?_ (by simp)
    · simp [total, dataBlock, restBlock]
      omega
    · intro hended
      refine ⟨rfl, ?_⟩
      have hended' := hended.2
      cases suf with
      | nil => exact hended'
      | cons c suf => exact ⟨hended'.1, hended'.2⟩
    · rw [← hstart]
      refine ⟨hstartMem, ?_, trivial⟩
      have hpos : start + (Header.size (dataBlock (total subs + (r.nPara.toNat + 1))) + 1) =
          base + (r.nPara.toNat + 1) := by
        simp [dataBlock]
        omega
      rw [hpos]
      exact hnextMem
    · intro x hx
      rw [← hstart] at hx
      simp only [total, size_mcb, dataBlock] at hx
      exact hother x (by omega) (by omega) (by omega)
  · refine linked_append.2 ⟨hsubs.congr fun x hx hx' => ?_, ?_, trivial⟩
    · exact hother x (by omega) (by omega) (by omega)
    · rw [← hbase]
      exact hbaseMem

end Region

end Memory
end BurdahDos
