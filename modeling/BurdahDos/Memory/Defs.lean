import BurdahDos.Lib.Run
import Mathlib

/-!
# Memory control blocks

`kernel/memmgr.c` keeps conventional memory, and upper memory once it is linked in, as a chain of
blocks.  A block is a header of one paragraph, the MCB, and `m_size` paragraphs after it; the next
header follows at once.  Adjacent free blocks are not merged when they are freed but by
`joinMCBs`, when a search or a resize comes past them.

A header fills its paragraph, so memory is a function from segments to headers; what it says at a
segment inside a block is whatever the bytes there would mean.  `UWORD` arithmetic is taken modulo
`2 ^ 16`.  The loops of the source follow a chain that need not end; they are given
`chainFuel` steps, and `none` says that these were not enough.
-/

set_option autoImplicit false

namespace BurdahDos
namespace Memory

/-! ## Headers -/

/-- `MCB_NORMAL`: another block follows. -/
def mcbNormal : UInt8 := 0x4d
/-- `MCB_LAST`: the last block of the chain. -/
def mcbLast : UInt8 := 0x5a
/-- `FREE_PSP`: the owner of a free block. -/
def freePsp : UInt16 := 0

/-- `SUCCESS` -/
def success : Int := 0
/-- `DE_MCBDESTRY` -/
def deMcbdestry : Int := -7
/-- `DE_NOMEM` -/
def deNomem : Int := -8
/-- `DE_INVLDMCB` -/
def deInvldmcb : Int := -9

/-- `mcb` -/
structure Mcb where
  mType : UInt8
  /-- Owner id via PSP segment. -/
  mPsp : UInt16
  /-- Size in paragraphs, a `UWORD`. -/
  mSize : Nat
  /-- Owner name, 8 bytes. -/
  mName : List UInt8
  deriving DecidableEq, Inhabited

/-- The header that the paragraph at a segment would be. -/
abbrev Mem := Nat → Mcb

/-- Rewrite the header at segment `p`. -/
def Mem.modify (mem : Mem) (p : Nat) (f : Mcb → Mcb) : Mem := Function.update mem p (f (mem p))

/-- Subtraction of `UWORD`s. -/
def sub16 (m n : Nat) : Nat := (m + 2 ^ 16 - n % 2 ^ 16) % 2 ^ 16

/-- `nxtMCBsize` -/
def nxtMCBsize (mcb size : Nat) : Nat := (mcb + size + 1) % 2 ^ 16

/-- `nxtMCB` -/
def nxtMCB (mem : Mem) (mcb : Nat) : Nat := nxtMCBsize mcb (mem mcb).mSize

/-- `mcbFree` -/
def mcbFree (m : Mcb) : Bool := m.mPsp == freePsp

/-- `mcbFreeable` -/
def mcbFreeable (m : Mcb) : Bool := m.mType == mcbNormal || m.mType == mcbLast

/-- `mcbValid` -/
def mcbValid (m : Mcb) : Bool := m.mSize != 0xffff && (m.mType == mcbNormal || m.mType == mcbLast)

/-- There are `2 ^ 16` segments, and so no more blocks. -/
def chainFuel : Nat := 2 ^ 16

/-! ## Joining -/

/-- One round of the loop of `joinMCBs`: `p` takes in the block at `q`, whose header is marked as
"fake". -/
def joinNext (mem : Mem) (p q : Nat) : Mem :=
  let mem := mem.modify p fun m =>
    { m with mType := (mem q).mType, mSize := (m.mSize + (mem q).mSize + 1) % 2 ^ 16 }
  mem.modify q fun m => { m with mSize := 0xffff }

/-- The loop of `joinMCBs`. -/
def joinLoop : Nat → Mem → Nat → Option (Int × Mem)
  | 0, _, _ => none
  | fuel + 1, mem, p =>
    if (mem p).mType ≠ mcbNormal then some (success, mem)
    else
      let q := nxtMCB mem p
      if !mcbFree (mem q) then some (success, mem)
      else if !mcbValid (mem q) then some (deMcbdestry, mem)
      else joinLoop fuel (joinNext mem p q) p

/-- `joinMCBs`: join any following unused MCBs to the MCB at `para`. -/
def joinMCBs (mem : Mem) (para : Nat) : Option (Int × Mem) := joinLoop chainFuel mem para

/-! ## Allocating -/

/-- `LARGEST`, which is `-1` -/
def largest : UInt16 := 0xffff
/-- `FIRST_FIT` -/
def firstFit : UInt16 := 0
/-- `BEST_FIT` -/
def bestFit : UInt16 := 1
/-- `LAST_FIT` -/
def lastFit : UInt16 := 2
/-- `FIRST_FIT_UO` -/
def firstFitUo : UInt16 := 0x40
/-- `BEST_FIT_UO` -/
def bestFitUo : UInt16 := 0x41
/-- `LAST_FIT_UO` -/
def lastFitUo : UInt16 := 0x42
/-- `FIRST_FIT_U` -/
def firstFitU : UInt16 := 0x80
/-- `BEST_FIT_U` -/
def bestFitU : UInt16 := 0x81
/-- `LAST_FIT_U` -/
def lastFitU : UInt16 := 0x82

/-- The variables of `DosMemAlloc` during its search; a null pointer is `none`. -/
structure Search where
  mem : Mem
  foundSeg : Option Nat
  biggestSeg : Option Nat

/-- How the search goes on after a block. -/
inductive Progress where
  /-- `return DE_MCBDESTRY` -/
  | destroyed (mem : Mem)
  /-- `goto stopIt` -/
  | stopIt (s : Search)
  /-- To the next block, or out of the loop after the last one. -/
  | next (s : Search)

/-- The rule set, applied to the unused block at `p` after it has been joined. -/
def tryBlock (size : Nat) (mode : UInt16) (p : Nat) (s : Search) : Progress :=
  let n := (s.mem p).mSize
  let s := { s with
    biggestSeg := match s.biggestSeg with
      | none => some p
      | some b => if (s.mem b).mSize < n then some p else some b }
  if n < size then .next s
  else if mode = largest then .next s
  else if mode = bestFit ∨ mode = bestFitU ∨ mode = bestFitUo then
    .next { s with
      foundSeg := match s.foundSeg with
        | none => some p
        | some f => if (s.mem f).mSize > n then some p else some f }
  else if mode = firstFit ∨ mode = firstFitU ∨ mode = firstFitUo then
    .stopIt { s with foundSeg := some p }
  else .next { s with foundSeg := some p }

/-- One round of the search, at the block at `p`. -/
def visit (size : Nat) (mode : UInt16) (p : Nat) (s : Search) : Option Progress :=
  if !mcbValid (s.mem p) then some (.destroyed s.mem)
  else if !mcbFree (s.mem p) then some (.next s)
  else
    match joinMCBs s.mem p with
    | none => none
    | some (rc, mem) =>
      if rc ≠ success then some (.destroyed mem) else some (tryBlock size mode p { s with mem := mem })

/-- The search of `DosMemAlloc` from the block at `p` on. -/
def search (size : Nat) (mode : UInt16) : Nat → Nat → Search → Option Progress
  | 0, _, _ => none
  | fuel + 1, p, s =>
    match visit size mode p s with
    | none => none
    | some (.destroyed mem) => some (.destroyed mem)
    | some (.stopIt s) => some (.stopIt s)
    | some (.next s) =>
      if (s.mem p).mType = mcbLast then some (.next s)
      else search size mode fuel (nxtMCB s.mem p) s

/-- What follows the label `stopIt`: split the found block if it is larger than requested, and give
it to the process.  The segment returned is that of the allocated block. -/
def carve (mem : Mem) (size : Nat) (mode : UInt16) (cuPsp : UInt16) (foundSeg : Nat) : Nat × Mem :=
  let (foundSeg, mem) :=
    if mode ≠ largest ∧ size ≠ (mem foundSeg).mSize then
      if mode = lastFit ∨ mode = lastFitUo ∨ mode = lastFitU then
        -- allocate the block from the end of the found block
        let p := foundSeg
        let mem := mem.modify p fun m => { m with mSize := sub16 m.mSize (size + 1) }
        let foundSeg := nxtMCB mem p
        let mem := mem.modify foundSeg fun m => { m with mType := (mem p).mType }
        let mem := mem.modify p fun m => { m with mType := mcbNormal }
        let mem := mem.modify p fun m => { m with mPsp := freePsp }
        (foundSeg, mem.modify foundSeg fun m => { m with mSize := size })
      else
        -- all other modes allocate from the beginning
        let p := nxtMCBsize foundSeg size
        let mem := mem.modify p fun m =>
          { m with
            mType := (mem foundSeg).mType
            mSize := sub16 (mem foundSeg).mSize (size + 1) }
        let mem := mem.modify foundSeg fun m => { m with mType := mcbNormal }
        let mem := mem.modify p fun m => { m with mPsp := freePsp }
        (foundSeg, mem.modify foundSeg fun m => { m with mSize := size })
    else (foundSeg, mem)
  (foundSeg, mem.modify foundSeg fun m => { m with mPsp := cuPsp, mName := m.mName.set 0 0 })

/-- The kernel variables that the memory manager uses. -/
structure State where
  mem : Mem
  /-- `first_mcb` -/
  firstMcb : Nat
  /-- `uppermem_root`; `0xffff` if there is no upper memory. -/
  uppermemRoot : Nat
  /-- `uppermem_link` -/
  uppermemLink : Nat
  /-- `mem_access_mode` -/
  memAccessMode : UInt16
  /-- `cu_psp` -/
  cuPsp : UInt16

/-- `(uppermem_link & 1) && uppermem_root != 0xffff` -/
def State.upperLinked (s : State) : Bool := s.uppermemLink &&& 1 == 1 && s.uppermemRoot != 0xffff

/-- Where `DosMemAlloc` begins its search. -/
def searchFrom (s : State) (size : Nat) (mode : UInt16) : Nat :=
  let tmpmode := if mode = largest then s.memAccessMode else mode
  if s.upperLinked && (decide (mode ≠ largest) || decide (size = 0xffff)) &&
      tmpmode &&& (firstFitUo ||| firstFitU) != 0 then s.uppermemRoot
  else s.firstMcb

/-- The end of one pass of `DosMemAlloc`. -/
inductive Pass where
  /-- `return` with an error, and what is written to `*asize`. -/
  | fail (rc : Int) (asize : Option Nat) (mem : Mem)
  /-- `goto searchAgain` -/
  | again (mem : Mem)
  /-- On to `stopIt`. -/
  | found (foundSeg : Nat) (asize : Option Nat) (mem : Mem)

/-- What follows the search loop when the chain was completely checked. -/
def afterSearch (s : State) (size : Nat) (mode : UInt16) (t : Search) : Pass :=
  let big : Option Nat :=
    if mode = largest then t.biggestSeg.filter fun b => size ≤ (t.mem b).mSize else none
  let foundSeg := big.or t.foundSeg
  let asize := big.map fun b => (t.mem b).mSize
  match foundSeg.filter fun f => (t.mem f).mSize ≠ 0 with
  | some f => .found f asize t.mem
  | none =>
    if mode ≠ largest ∧ mode &&& firstFitU ≠ 0 ∧ s.upperLinked then .again t.mem
    else .fail deNomem (some (t.biggestSeg.elim 0 fun b => (t.mem b).mSize)) t.mem

/-- One pass of `DosMemAlloc`, from `searchAgain` on. -/
def pass (s : State) (size : Nat) (mode : UInt16) : Option Pass :=
  match search size mode chainFuel (searchFrom s size mode) ⟨s.mem, none, none⟩ with
  | none => none
  | some (.destroyed mem) => some (.fail deMcbdestry none mem)
  | some (.stopIt t) => some (.found (t.foundSeg.getD 0) none t.mem)
  | some (.next t) => some (afterSearch s size mode t)

/-- The answer of `DosMemAlloc` or `DosMemChange`. -/
structure Answer where
  rc : Int
  /-- What is written to `*para`. -/
  para : Option Nat
  /-- What is written to `*asize` (or `*maxSize`), if it is not null. -/
  asize : Option Nat

/-- The end of `DosMemAlloc`, for a pass that does not search again. -/
def finish (s : State) (size : Nat) (mode : UInt16) : Pass → Option (Answer × State)
  | .fail rc asize mem => some (⟨rc, none, asize⟩, { s with mem := mem })
  | .again _ => none
  | .found foundSeg asize mem =>
    let (para, mem) := carve mem size mode s.cuPsp foundSeg
    some (⟨success, some para, asize⟩, { s with mem := mem })

/-- `DosMemAlloc`.  A pass that clears `FIRST_FIT_U` and searches again does so once, since the
second one no longer finds that bit set. -/
def dosMemAlloc (s : State) (size : Nat) (mode : UInt16) : Option (Answer × State) :=
  match pass s size mode with
  | none => none
  | some (.again mem) =>
    let s := { s with mem := mem }
    let mode := mode &&& ~~~firstFitU
    match pass s size mode with
    | none => none
    | some p => finish s size mode p
  | some p => finish s size mode p

/-- `DosMemLargest`, with the size that it writes.  With `FIRST_FIT_U` the largest block is probably
low: it is looked for once more without that bit. -/
def dosMemLargest (s : State) : Option (Int × Nat × State) :=
  match dosMemAlloc s 0xffff largest with
  | none => none
  | some (answer, s) =>
    let size := answer.asize.getD 0
    if s.memAccessMode &&& 0x80 ≠ 0 then
      let s := { s with memAccessMode := s.memAccessMode &&& ~~~0x80 }
      match dosMemAlloc s 0xffff largest with
      | none => none
      | some (answer, s) =>
        let s := { s with memAccessMode := s.memAccessMode ||| 0x80 }
        let lowsize := answer.asize.getD 0
        let size := if lowsize > size then lowsize else size
        some (if size ≠ 0 then success else deNomem, size, s)
    else some (if size ≠ 0 then success else deNomem, size, s)

/-! ## Freeing and resizing -/

/-- `DosMemFree`; `para` is the segment of the MCB itself. -/
def dosMemFree (s : State) (para : Nat) : Int × State :=
  if para = 0 then (deInvldmcb, s)
  else if !mcbFreeable (s.mem para) then (deInvldmcb, s)
  else if mcbFree (s.mem para) then (success, s)
  else
    (success, { s with
      mem := s.mem.modify para fun m => { m with mPsp := freePsp, mName := List.replicate 8 0 } })

/-- The headers that `DosMemChange` writes to cut the block at `p` down to `size`: that of the block
and that of the rest, at `q`. -/
def cutDown (mem : Mem) (p q size : Nat) : Mem :=
  let mem := mem.modify q fun m => { m with mSize := sub16 (mem p).mSize (size + 1) }
  let mem := mem.modify q fun m => { m with mType := (mem p).mType }
  let mem := mem.modify p fun m => { m with mSize := size }
  let mem := mem.modify p fun m => { m with mType := mcbNormal }
  mem.modify q fun m => { m with mPsp := freePsp }

/-- The part of `DosMemChange` that shrinks the block at `p`, and the change of its owner. -/
def shrinkTo (s : State) (p size : Nat) : Option (Answer × State) :=
  if size < (s.mem p).mSize then
    let q := nxtMCBsize p size
    match joinMCBs (cutDown s.mem p q size) q with
    | none => none
    | some (rc, mem) =>
      if rc ≠ success then some (⟨deMcbdestry, none, none⟩, { s with mem := mem })
      else some (⟨success, none, none⟩,
        { s with mem := mem.modify p fun m => { m with mPsp := s.cuPsp } })
  else some (⟨success, none, none⟩,
    { s with mem := s.mem.modify p fun m => { m with mPsp := s.cuPsp } })

/-- `DosMemChange`; `para` is the segment of the data portion of the block. -/
def dosMemChange (s : State) (para size : Nat) : Option (Answer × State) :=
  let p := sub16 para 1
  if !mcbValid (s.mem p) then some (⟨deMcbdestry, none, none⟩, s)
  else if size > (s.mem p).mSize then
    match joinMCBs s.mem p with
    | none => none
    | some (rc, mem) =>
      let s := { s with mem := mem }
      if rc ≠ success then some (⟨deMcbdestry, none, none⟩, s)
      else if size > (mem p).mSize then some (⟨deNomem, none, some (mem p).mSize⟩, s)
      else shrinkTo s p size
  else shrinkTo s p size

/-! ## Upper memory and the end of a process -/

/-- The loop of `DosUmbLink`: from `p`, with the block before it in `q`, to the block at
`uppermem_root` or the last one.  `some none` is the return at an MCB that is not valid. -/
def umbWalk (mem : Mem) (root : Nat) : Nat → Nat → Option Nat → Option (Option (Nat × Option Nat))
  | 0, _, _ => none
  | fuel + 1, p, q =>
    if p ≠ root ∧ (mem p).mType ≠ mcbLast then
      if !mcbValid (mem p) then some none
      else umbWalk mem root fuel (nxtMCB mem p) (some p)
    else some (some (p, q))

/-- `DosUmbLink`.  If the first block is the one at `uppermem_root`, unlinking reads a variable that
was never set; there is no answer then. -/
def dosUmbLink (s : State) (n : Nat) : Option State :=
  if s.uppermemRoot = 0xffff then some s
  else if n > 1 ∨ s.uppermemLink &&& 1 = n then some s
  else
    match umbWalk s.mem s.uppermemRoot chainFuel s.firstMcb none with
    | none => none
    | some none => some s
    | some (some (p, q)) =>
      if n = 0 then
        match q with
        | none => none
        | some q =>
          if (s.mem q).mType = mcbNormal ∧ p = s.uppermemRoot then
            some { s with
              mem := s.mem.modify q fun m => { m with mType := mcbLast }
              uppermemLink := n }
          else some { s with uppermemLink := n }
      else if (s.mem p).mType = mcbLast then
        some { s with
          mem := s.mem.modify p fun m => { m with mType := mcbNormal }
          uppermemLink := n }
      else some s

/-- The loop of `FreeProcessMem`; the flag tells whether the chain was read to its end. -/
def freeLoop (ps : UInt16) : Nat → Nat → State → Option (Bool × State)
  | 0, _, _ => none
  | fuel + 1, p, s =>
    if !mcbValid (s.mem p) then some (false, s)
    else
      let s := if (s.mem p).mPsp = ps then (dosMemFree s p).2 else s
      if (s.mem p).mType = mcbLast then some (true, s)
      else freeLoop ps fuel (nxtMCB s.mem p) s

/-- `FreeProcessMem` -/
def freeProcessMem (s : State) (ps : UInt16) : Option (Int × State) :=
  let oldumbstate := s.uppermemLink &&& 1
  match dosUmbLink s 1 with
  | none => none
  | some s =>
    match freeLoop ps chainFuel s.firstMcb s with
    | none => none
    | some (false, s) => some (deMcbdestry, s)
    | some (true, s) =>
      match dosUmbLink s oldumbstate with
      | none => none
      | some s => some (success, s)

/-! ## Requests -/

/-- What processes ask of the memory manager, and the two settings of theirs it looks at. -/
inductive Request where
  | dosMemAlloc (size : Nat) (mode : UInt16)
  | dosMemFree (para : Nat)
  | dosMemChange (para size : Nat)
  | freeProcessMem (ps : UInt16)
  /-- Another process runs. -/
  | setPsp (psp : UInt16)
  /-- INT 21h/AX=5801h -/
  | setMemAccessMode (mode : UInt16)

/-- The state after a request, if the request ends. -/
def exec (s : State) : Request → Option State
  | .dosMemAlloc size mode => (dosMemAlloc s size mode).map Prod.snd
  | .dosMemFree para => some (dosMemFree s para).2
  | .dosMemChange para size => (dosMemChange s para size).map Prod.snd
  | .freeProcessMem ps => (freeProcessMem s ps).map Prod.snd
  | .setPsp psp => some { s with cuPsp := psp }
  | .setMemAccessMode mode => some { s with memAccessMode := mode }

/-- `exec`, and no change for a request that does not end. -/
def serve (s : State) (r : Request) : State := (exec s r).getD s

end Memory
end BurdahDos
