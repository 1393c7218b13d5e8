import Mathlib

/-!
# Resources at the end of a file

`portal/lib/res_w.c` and `portal/lib/res_r.c`.  A resource is data with a control area behind it,
and resources are appended to a file one after the other.  The writer keeps the control area of the
open resource in a static variable; `none` is an assertion that fails.  The reader walks from the
end of the file to its beginning; its `none` says that the walk has not ended.

Positions are of the type `unsigned long`, with 32 bits.  What `lseek` returns is a `long`, so that
it fails from `2 ^ 31` on.
-/

set_option autoImplicit false

namespace BurdahDos
namespace Resource

abbrev Str := List UInt8

/-! ## The control area -/

/-- Bytes as a number, the lowest one first. -/
def ofBytes : Str → ℕ
  | [] => 0
  | c :: s => c.toNat + 256 * ofBytes s

/-- A number as bytes, the lowest one first. -/
def toBytes : ℕ → ℕ → Str
  | 0, _ => []
  | n + 1, v => UInt8.ofNat v :: toBytes n (v / 256)

/-- `RES_ID_NONE`, -0x7ffe -/
def resIdNone : UInt16 := 0x8002

/-- `RES_ID_ANY`, -0x7fff -/
def resIdAny : UInt16 := 0x8001

/-- `RES_COOKIE` -/
def resCookie : Str := [70, 82, 69, 69, 67, 79, 77, 32]

/-- `resource_t`, but for the cookie. -/
structure Control where
  length : UInt32
  majorID : UInt16
  minorID : UInt16
deriving DecidableEq

/-- `sizeof(resource_t)` -/
def controlSize : UInt32 := 16

/-- The control area in a file. -/
def Control.bytes (res : Control) : Str :=
  toBytes 4 res.length.toNat ++ (toBytes 2 res.majorID.toNat ++ (toBytes 2 res.minorID.toNat ++
    resCookie))

/-- What has been read as a control area, and its cookie. -/
def controlOf (s : Str) : Control × Str :=
  (⟨UInt32.ofNat (ofBytes (s.take 4)), UInt16.ofNat (ofBytes ((s.drop 4).take 2)),
    UInt16.ofNat (ofBytes ((s.drop 6).take 2))⟩, s.drop 8)

/-! ## The writer -/

/-- `res` before the first resource of a process. -/
def initialRes : Control := ⟨0xffffffff, resIdNone, 0⟩

/-- `ftell` at the end of a file. -/
def ftell (file : Str) : UInt32 := UInt32.ofNat file.length

/-- `startResource` -/
def startResource (res : Control) (file : Str) (major minor : UInt16) : Option Control :=
  if res.majorID ≠ resIdNone then none
  else if ftell file = 0xffffffff then none
  else some ⟨ftell file, major, minor⟩

/-- `endResource` -/
def endResource (res : Control) (file : Str) : Option (Control × Str) :=
  if res.majorID = resIdNone then none
  else if ftell file = 0xffffffff then none
  else if ftell file < res.length then none
  else
    let res := { res with length := ftell file - res.length }
    some (res, file ++ res.bytes)

/-- A resource to be appended. -/
structure Entry where
  majorID : UInt16
  minorID : UInt16
  data : Str
deriving DecidableEq

/-- A resource is started, its data is written, and it is ended. -/
def writeEntry (res : Control) (file : Str) (e : Entry) : Option (Control × Str) :=
  match startResource res file e.majorID e.minorID with
  | none => none
  | some res => endResource res (file ++ e.data)

/-- The resources of a process. -/
def writeEntries : Control → Str → List Entry → Option Str
  | _, file, [] => some file
  | res, file, e :: es =>
    match writeEntry res file e with
    | none => none
    | some r => writeEntries r.1 r.2 es

/-- Processes that append to a file, one after the other. -/
def writeAll : Str → List (List Entry) → Option Str
  | file, [] => some file
  | file, es :: processes =>
    match writeEntries initialRes file es with
    | none => none
    | some file => writeAll file processes

/-! ## The reader -/

/-- What the callback gets. -/
structure Call where
  majorID : UInt16
  minorID : UInt16
  length : ℕ
  /-- Where the file is positioned. -/
  pos : ℕ
deriving DecidableEq

/-- `lseek` returns a negative number. -/
def lseekFails (pos : UInt32) : Bool := decide (2 ^ 31 ≤ pos.toNat)

/-- `dos_read` of a control area; `none` if there are not enough bytes. -/
def readControl (file : Str) (pos : ℕ) : Option (Control × Str) :=
  if pos + 16 ≤ file.length then some (controlOf ((file.drop pos).take 16)) else none

/-- The resource that ends at a position, if all checks pass, and the positions sought. -/
def nextResource (file : Str) (pos : UInt32) : Option Call × List UInt32 :=
  if pos ≤ controlSize then (none, [])
  else
    let pos := pos - controlSize
    if lseekFails pos then (none, [pos])
    else
      match readControl file pos.toNat with
      | none => (none, [pos])
      | some (res, cookie) =>
        if cookie ≠ resCookie then (none, [pos])
        else if pos < res.length then (none, [pos])
        else
          let start := pos - res.length
          if lseekFails start then (none, [pos, start])
          else (some ⟨res.majorID, res.minorID, res.length.toNat, start.toNat⟩, [pos, start])

/-- What an enumeration leaves. -/
structure Outcome (σ : Type) where
  rc : ℤ
  /-- What the callback has made of its argument. -/
  arg : σ
  /-- The positions sought. -/
  seeks : List UInt32

/-- `res_majorID == id || id == RES_ID_ANY` -/
def Call.wanted (c : Call) (id : UInt16) : Bool := c.majorID == id || id == resIdAny

/-- The loop of `enumFileResources`. -/
def enumLoop {σ : Type} (file : Str) (id : UInt16) (fct : Call → σ → ℤ × σ) :
    ℕ → UInt32 → σ → Option (Outcome σ)
  | 0, _, _ => none
  | fuel + 1, pos, arg =>
    let found := nextResource file pos
    match found.1 with
    | none => some ⟨0, arg, found.2⟩
    | some c =>
      let r := if c.wanted id then fct c arg else (0, arg)
      if r.1 ≠ 0 then some ⟨r.1, r.2, found.2⟩
      else
        (enumLoop file id fct fuel (UInt32.ofNat c.pos) r.2).map fun o =>
          { o with seeks := found.2 ++ o.seeks }

/-- `enumFileResources`, for a file that is there. -/
def enumFileResources {σ : Type} (file : Str) (id : UInt16) (fct : Call → σ → ℤ × σ) (arg : σ) :
    Option (Outcome σ) :=
  let pos := UInt32.ofNat file.length
  if pos = 0xffffffff then some ⟨0, arg, []⟩
  else enumLoop file id fct (file.length + 1) pos arg

end Resource
end BurdahDos
