import Mathlib

/-!
# Path names

`truename` of `kernel/newstuff.c`, which every call with a path goes through first, with `IsDevice`
and `get_root` of `kernel/dosfns.c` and the upper-casing of `kernel/nls.c`.

A C string is the list of its characters, without the terminator.  The buffer `dest` is the list of
the bytes from `dest[0]` to the last one that was stored to, so that its length tells how far the
stores went; `p` is an index.

What the disk says is left open: `media_check`, `dos_cd` and `dir_exists` are functions of the
kernel, and so is the answer of a redirector to `QRemote_Fn`.
-/

set_option autoImplicit false

namespace BurdahDos
namespace Path

/-! ## Constants -/

/-- `DE_FILENOTFND` -/
def deFileNotFnd : ℤ := -2
/-- `DE_PATHNOTFND` -/
def dePathNotFnd : ℤ := -3

/-- `IS_DEVICE` -/
def isDeviceBit : ℕ := 0x20
/-- `IS_NETWORK` -/
def isNetworkBit : ℕ := 0x40

/-- `MAX_CDSPATH` -/
def maxCdsPath : ℕ := 67
/-- `SFTMAX` -/
def sftMax : ℕ := 128
/-- `FNAME_SIZE` -/
def fnameSize : ℕ := 8
/-- `FEXT_SIZE` -/
def fextSize : ℕ := 3

/-- A string, without its terminator. -/
abbrev Str := List UInt8

/-- `'\\'` -/
def backslash : UInt8 := 0x5c
/-- `'/'` -/
def slash : UInt8 := 0x2f
/-- `':'` -/
def colon : UInt8 := 0x3a
/-- `'.'` -/
def dot : UInt8 := 0x2e
/-- `'*'` -/
def star : UInt8 := 0x2a
/-- `'?'` -/
def quest : UInt8 := 0x3f
/-- `' '` -/
def space : UInt8 := 0x20

/-- `*src == '/' || *src == '\\'` -/
def isSep (c : UInt8) : Bool := c == slash || c == backslash

/-- `*src == '/' || *src == '\\' || *src == '\0'` -/
def atEnd (src : Str) : Bool := src.head?.all isSep

/-- `_DirChars`: the characters `"[]:|<>+=;,`. -/
def dirChars : List UInt8 :=
  [0x22, 0x5b, 0x5d, 0x3a, 0x7c, 0x3c, 0x3e, 0x2b, 0x3d, 0x3b, 0x2c]

/-- `DirChar` -/
def dirChar (c : UInt8) : Bool := decide (space ≤ c) && !dirChars.contains c

/-- `PATH_ERROR`, for what is left of the source. -/
def pathError (src : Str) : ℤ := if src.any isSep then dePathNotFnd else deFileNotFnd

/-- `drLetterToNr` -/
def drLetterToNr (dr : UInt8) : ℕ := (dr - 0x41).toNat

/-- `drNrToLetter` -/
def drNrToLetter (dr : ℕ) : UInt8 := UInt8.ofNat dr + 0x41

/-- Set a bit of the result. -/
def withBit (result bit : ℕ) : ℕ := result ||| bit

/-- Clear a bit of the result. -/
def withoutBit (result bit : ℕ) : ℕ := result ^^^ (result &&& bit)

/-! ## The kernel's tables -/

/-- `struct cds`, with the prerequisites of `cdsBackslashOffset`: it is behind the colon or the
share, and not behind the end of the path.  It is the position of the root's backslash, so there is
none right before it. -/
structure Cds where
  currentPath : Str
  backslashOffset : ℕ
  /-- `CDSNETWDRV` -/
  netwdrv : Bool
  /-- `CDSPHYSDRV` -/
  physdrv : Bool
  /-- `CDSJOINED` -/
  joined : Bool
  /-- `CDSSUBST` -/
  subst : Bool
  /-- `cdsDpb` is not null. -/
  hasDpb : Bool
  path_lt : currentPath.length < maxCdsPath
  offset_ge : 2 ≤ backslashOffset
  offset_le : backslashOffset ≤ currentPath.length
  root_ne : currentPath[backslashOffset - 1]? ≠ some backslash

/-- The header of a device driver, `struct dhdr`. -/
structure Dhdr where
  attr : ℕ
  name : Vector UInt8 8

/-- `ATTR_CHAR` -/
def Dhdr.isChar (dhp : Dhdr) : Bool := dhp.attr.testBit 15

/-- What `truename` asks for. -/
structure Kernel where
  /-- The current directories, as many as `lastdrive`. -/
  cds : List Cds
  defaultDrive : ℕ
  njoined : ℕ
  osMajor : ℕ
  /-- The chain of drivers from `nul_dev` on. -/
  devices : List Dhdr
  /-- The upper-case tables, for characters from 0x80 on. -/
  upTable : UInt8 → UInt8
  upFTable : UInt8 → UInt8
  /-- What a redirector makes of a name, if it wants it. -/
  qRemoteFn : Str → Option Str
  /-- `media_check`: whether it succeeds on a drive. -/
  mediaCheck : ℕ → Bool
  /-- `dos_cd`: whether it succeeds. -/
  dosCd : Str → Bool
  /-- `dir_exists` -/
  dirExists : Str → Bool

/-- One character of `upMMem`. -/
def upChar (map : UInt8 → UInt8) (c : UInt8) : UInt8 :=
  if 0x61 ≤ c ∧ c ≤ 0x7a then c - 0x20 else if 0x7f < c then map c else c

/-- `DosUpFChar` -/
def Kernel.upFChar (k : Kernel) (c : UInt8) : UInt8 := upChar k.upFTable c

/-- `get_cds` -/
def Kernel.getCds (k : Kernel) (drive : ℕ) : Option Cds :=
  match k.cds[drive]? with
  | none => none
  | some cds =>
    if !(cds.netwdrv || cds.physdrv) || cds.joined then none
    else if !cds.netwdrv && !cds.hasDpb then none
    else some cds

/-- `get_root`: the part of a name behind the last separator or colon. -/
def getRoot (fname : Str) : Str :=
  (fname.reverse.takeWhile fun c => !(isSep c || c == colon)).reverse

/-- The loops of `IsDevice` over the name of one driver. -/
def Kernel.matchesName (k : Kernel) : Str → List UInt8 → Bool
  | _, [] => true
  | [], name => name.all fun c => c == space || c == 0
  | c :: froot, n :: name =>
    if c = dot then (n :: name).all fun c => c == space || c == 0
    else k.upFChar c == k.upFChar n && k.matchesName froot name

/-- The name without its drive letter. -/
def skipDrive (src : Str) : Str := if src.tail.head? = some colon then src.drop 2 else src

/-- The number of the drive that a name is on. -/
def Kernel.driveOf (k : Kernel) (src : Str) : ℕ :=
  if src.tail.head? = some colon then drLetterToNr (k.upFChar (src.headD 0)) else k.defaultDrive

/-- Whether the name of a device, without its drive letter, has no path or exactly `\\DEV\\`. -/
def Kernel.isPlain (k : Kernel) (src : Str) : Bool :=
  let froot := getRoot src
  let dev := (src.take 5).map fun c =>
    if upChar k.upTable c = slash then backslash else upChar k.upTable c
  src.length == froot.length ||
    src.length == froot.length + 5 && dev == [backslash, 0x44, 0x45, 0x56, backslash]

/-- `IsDevice` -/
def Kernel.isDevice (k : Kernel) (fname : Str) : Option Dhdr :=
  let froot := getRoot fname
  if froot = [] ∨ froot = [dot] ∨ froot = [dot, dot] then none
  else k.devices.find? fun dhp => dhp.isChar && k.matchesName froot dhp.name.toList

/-! ## The output buffer -/

/-- `dest` and `p`. -/
structure Buf where
  dest : List UInt8
  p : ℕ

/-- `*p++ = c` -/
def Buf.put (b : Buf) (c : UInt8) : Buf :=
  { dest := b.dest.take b.p ++ c :: b.dest.drop (b.p + 1), p := b.p + 1 }

/-- The string in front of `p`. -/
def Buf.text (b : Buf) : Str := b.dest.take b.p

/-- `strcpy` to `dest`. -/
def strcpy (dest : List UInt8) (s : Str) : List UInt8 := s ++ 0 :: dest.drop (s.length + 1)

/-- `addChar`, with what is left of the source. -/
def addChar (src : Str) (c : UInt8) (b : Buf) : ℤ × Buf :=
  if sftMax ≤ b.p then (pathError src, b) else (0, b.put c)

/-- Copy a string with its terminator. -/
def addString (src : Str) : Str → Buf → ℤ × Buf
  | [], b => addChar src 0 b
  | c :: s, b =>
    let r := addChar src c b
    if r.1 ≠ 0 then r else addString src s r.2

/-- Add `i` question marks. -/
def addQuests (src : Str) : ℕ → Buf → ℤ × Buf
  | 0, b => (0, b)
  | i + 1, b =>
    let r := addChar src quest b
    if r.1 ≠ 0 then r else addQuests src i r.2

/-! ## The component loop -/

/-- "Parse name and extension": what is left of the source, whether there was a wildcard, and the
buffer.  The room in the current field is `i`; `hasDot` is `PNE_DOT` and `wild` is
`PNE_WILDCARD`. -/
def component : Str → ℕ → Bool → Bool → Buf → ℤ × Str × Bool × Buf
  | [], _, _, wild, b => (0, [], wild, b)
  | c :: src, i, hasDot, wild, b =>
    if isSep c then (0, c :: src, wild, b)
    else if c = star then
      let r := addQuests src i b
      if r.1 ≠ 0 then (r.1, src, wild, r.2) else component src 0 hasDot true r.2
    else if c = dot ∧ hasDot then (pathError src, src, wild, b)
    -- strip trailing dot
    else if c = dot ∧ atEnd src then (0, src, wild, b)
    else
      let i := if c = dot then fextSize + 1 else i
      let hasDot := hasDot || c == dot
      let wild := wild || c == quest
      if i = 0 then component src 0 hasDot wild b
      else if !dirChar c then (pathError src, src, wild, b)
      else
        let r := addChar src c b
        if r.1 ≠ 0 then (r.1, src, wild, r.2) else component src (i - 1) hasDot wild r.2

/-- `while (*--p != '\\') if (p <= rootPos)`: from index `p`, the last backslash in front of it. -/
def backUp (rootPos : ℕ) (dest : List UInt8) : ℕ → Option ℕ
  | 0 => none
  | p + 1 =>
    if dest[p]? = some backslash then some p
    else if p ≤ rootPos then none
    else backUp rootPos dest p

/-- `p[-1]`, with the byte in front of `dest`. -/
def charBefore (front : UInt8) (dest : List UInt8) (p : ℕ) : UInt8 :=
  if p = 0 then front else dest[p - 1]?.getD 0

/-- Append the path in `src`.  Every turn takes at least one character off it, which the first
argument counts.  The byte in front of `dest` is `front`. -/
def appendPath (front : UInt8) (rootPos : ℕ) : ℕ → Str → Bool → Buf → ℤ × Bool × Buf
  | 0, _, wild, b => (0, wild, b)
  | n + 1, src, wild, b =>
    if src = [] then (0, wild, b)
    else if wild then (dePathNotFnd, wild, b)
    else
      let sep := b.dest[rootPos]?.getD 0
      let r := if charBefore front b.dest b.p ≠ sep then addChar src sep b else (0, b)
      if r.1 ≠ 0 then (r.1, wild, r.2)
      else
        let src := src.dropWhile isSep
        if src.head? = some dot then
          let dots := if src.tail.head? = some dot then 2 else 1
          let src := src.drop dots
          if !atEnd src then (pathError src, wild, r.2)
          else
            -- backup the backslash
            let b := { r.2 with p := r.2.p - 1 }
            if dots = 1 then appendPath front rootPos n src wild b
            else
              match backUp rootPos b.dest b.p with
              | none => (dePathNotFnd, wild, b)
              | some p => appendPath front rootPos n src wild { b with p := p }
        else
          let c := component src fnameSize false wild r.2
          if c.1 ≠ 0 then (c.1, c.2.2) else appendPath front rootPos n c.2.1 c.2.2.1 c.2.2.2

/-! ## `truename` -/

/-- `mode` -/
structure Mode where
  /-- `CDS_MODE_SKIP_PHYSICAL` -/
  skipPhysical : Bool
  /-- `CDS_MODE_CHECK_DEV_PATH` -/
  checkDevPath : Bool
  /-- `CDS_MODE_ALLOW_WILDCARDS` -/
  allowWildcards : Bool
  deriving DecidableEq

/-- What comes of `truename`. -/
structure Truename where
  /-- The return value. -/
  code : ℤ
  /-- The string in `dest`, if it returns no error. -/
  path : Str
  /-- How many bytes of `dest` have been stored to. -/
  stored : ℕ
  cds : List Cds
  /-- A byte in front of `dest` is about to be stored to, or `cdsCurrentPath` of `TempCDS` was
  overrun.  What comes after that is left out. -/
  astray : Bool

/-- `return code` for an error. -/
def Kernel.fail (k : Kernel) (code : ℤ) (dest : List UInt8) : Truename :=
  { code := code, path := [], stored := dest.length, cds := k.cds, astray := false }

/-- The JOINed drive that a path is on. -/
def Kernel.joinedDrive (k : Kernel) (path : Str) : Option ℕ :=
  k.cds.findIdx? fun cds =>
    cds.joined && (path.drop cds.currentPath.length).head?.all (· == backslash) &&
      cds.currentPath.isPrefixOf path

/-- What is left of `truename` once the path is complete and in upper case. -/
def Kernel.finish (k : Kernel) (mode : Mode) (result : ℕ) (path : Str) (stored : ℕ) : Truename :=
  let done (code : ℤ) (path : Str) : Truename :=
    { code := code, path := path, stored := stored, cds := k.cds, astray := false }
  let joined := if path[2]? ≠ some slash ∧ !mode.skipPhysical ∧ k.njoined ≠ 0 then
    k.joinedDrive path else none
  match joined with
  | some i =>
    let j := (k.cds[i]?.map fun cds => cds.currentPath.length).getD 0
    let rest := path.drop j
    let result := withoutBit (result &&& 0xffe0 ||| i) isNetworkBit
    let netwdrv := (k.cds[i]?.map fun cds => cds.netwdrv).getD false
    let result := if netwdrv then withBit result isNetworkBit else result
    done result (drNrToLetter i :: colon :: if rest = [] then [backslash] else rest)
  | none =>
    if mode.checkDevPath ∧ result &&& (isDeviceBit ||| isNetworkBit) = isDeviceBit ∧
        path[2]? ≠ some slash ∧ !k.dirExists path then
      done dePathNotFnd []
    else if mode.allowWildcards && !mode.skipPhysical && !mode.checkDevPath then
      -- `DosTruename` mode
      done (if k.osMajor = 6 ∧ result &&& (isDeviceBit ||| isNetworkBit) = isDeviceBit then 0x3a00
        else 0) path
    else done result path

/-- Where `truename` is when it comes to the component loop. -/
structure Start where
  /-- The tables, with the current directories as `dos_cd` has left them. -/
  k : Kernel
  result : ℕ
  rootPos : ℕ
  src : Str
  buf : Buf

/-- `truename` from the component loop on. -/
def Start.complete (s : Start) (front : UInt8) (mode : Mode) : Truename :=
  let r := appendPath front s.rootPos s.src.length s.src false s.buf
  if r.1 ≠ 0 then s.k.fail r.1 r.2.2.dest
  else if r.2.1 && !mode.allowWildcards then s.k.fail dePathNotFnd r.2.2.dest
  else
    -- we must always add a separator if dest = "c:"
    let c := if r.2.2.p = 2 then addChar [] backslash r.2.2 else (0, r.2.2)
    if c.1 ≠ 0 then s.k.fail c.1 c.2.dest
    else
      let text := c.2.text
      s.k.finish mode s.result (text.take s.rootPos ++ (text.drop s.rootPos).map s.k.upFChar)
        (c.2.put 0).dest.length

/-- `TempCDS` -/
structure TempCds where
  currentPath : Str
  backslashOffset : ℕ
  netwdrv : Bool
  subst : Bool
  /-- It is a copy of an entry, and not that of the made-up drive P:. -/
  real : Bool

def TempCds.ofCds (cds : Cds) : TempCds :=
  { currentPath := cds.currentPath, backslashOffset := cds.backslashOffset, netwdrv := cds.netwdrv
    subst := cds.subst, real := true }

/-- A zeroed `TempCDS` with a name in it. -/
def TempCds.ofName (s : Str) : TempCds :=
  { currentPath := s, backslashOffset := 0, netwdrv := false, subst := false, real := false }

/-- Reset the current directory to the root. -/
def Cds.toRoot (cds : Cds) : Cds :=
  { cds with
    currentPath := cds.currentPath.take (cds.backslashOffset + 1)
    path_lt := Nat.lt_of_le_of_lt (List.length_take_le' _ _) cds.path_lt
    offset_le := by
      have h := cds.offset_le
      rw [List.length_take]
      omega
    root_ne := by
      have h := cds.offset_ge
      rw [List.getElem?_take_of_lt (by omega)]
      exact cds.root_ne }

/-- `TempCDS` after `dos_cd`, which ensures that the path exists. -/
def Kernel.enterDir (k : Kernel) (t : TempCds) : TempCds :=
  if k.dosCd t.currentPath then t
  else { t with currentPath := t.currentPath.take (t.backslashOffset + 1) }

/-- The entries after `dos_cd`. -/
def Kernel.resetDir (k : Kernel) (drive : ℕ) (t : TempCds) : List Cds :=
  if k.dosCd t.currentPath then k.cds else k.cds.modify drive Cds.toRoot

/-- `truename` for a name that is no device without a path, from the current directory on. -/
def Kernel.qualify (k : Kernel) (front : UInt8) (mode : Mode) (drive result : ℕ) (t : TempCds)
    (src : Str) (dest : List UInt8) : Except Truename Start :=
  let isLocal := t.real && !t.netwdrv
  if isLocal ∧ !k.mediaCheck drive then .error (k.fail dePathNotFnd dest)
  else
    let k' := if isLocal then { k with cds := k.resetDir drive t } else k
    let t := if isLocal then k.enterDir t else t
    let cp := t.currentPath
    let letter := drNrToLetter (result &&& 0x1f)
    let start := if mode.skipPhysical then [letter, colon] else cp.take t.backslashOffset
    let result := if !mode.skipPhysical ∧ t.subst ∧ cp[1]? = some colon ∧
        drLetterToNr (cp.headD 0) < k.cds.length then
      result &&& 0xffe0 ||| drLetterToNr (cp.headD 0) else result
    -- force backslash
    let text := start ++ backslash :: (cp.drop t.backslashOffset).tail
    let isAbsolute := src.head?.any isSep
    let p := if isAbsolute then start.length else text.length
    let src := if isAbsolute then src.tail else src
    let last := charBefore front text p
    if last = backslash ∧ p = 0 then .error { k'.fail 0 (strcpy dest text) with astray := true }
    else
      -- remove trailing separator
      let p := if last = backslash then p - 1 else p
      .ok { k := k', result := result, rootPos := start.length, src := src
            buf := { dest := strcpy dest text, p := p } }

/-- `truename` once there is a current directory structure. -/
def Kernel.mapLocal (k : Kernel) (front : UInt8) (mode : Mode) (drive result : ℕ) (t : TempCds)
    (dhp : Option Dhdr) (src : Str) : Except Truename Start :=
  let result := if t.netwdrv then withBit result isNetworkBit else result
  let result := if dhp.isSome then withBit result isDeviceBit else result
  let letter := drNrToLetter (result &&& 0x1f)
  let dest := letter :: colon :: backslash :: List.replicate 9 (0 : UInt8)
  let src := skipDrive src
  if result &&& isDeviceBit ≠ 0 ∧ k.isPlain src then
    -- DOS returns C:/NUL.LST for NUL.LST
    let dest := letter :: colon :: slash :: List.replicate 9 (0 : UInt8)
    .ok { k := k, result := withoutBit result isNetworkBit, rootPos := 2, src := getRoot src
          buf := { dest := dest, p := 2 } }
  else k.qualify front mode drive result t src dest

/-- What a redirector makes of the name, if it is asked and wants it. -/
def Kernel.remote (k : Kernel) (src : Str) (mode : Mode) : Option Str :=
  if mode.skipPhysical then none else (k.qRemoteFn src).filter fun path => path ≠ []

/-- Whether the path of a device on an invalid drive is none or begins with `\\DEV\\`. -/
def devOnly (s : Str) : Bool :=
  !s.any isSep ||
    (s.head?.any isSep && ((s.drop 1).take 3).map (fun c => c &&& 0xdf) == [0x44, 0x45, 0x56] &&
      (s.drop 4).head?.any isSep)

/-- What comes after that. -/
def devName (s : Str) : Str := if s.any isSep then s.drop 5 else s

/-- `truename` up to the component loop, or to the `return` of a name that does not get that far. -/
def Kernel.begin (k : Kernel) (front : UInt8) (src : Str) (mode : Mode) : Except Truename Start :=
  let zero := List.replicate 12 (0 : UInt8)
  let result := k.driveOf src
  if src = [] then .error (k.fail deFileNotFnd [])
  else if src.head? = some backslash ∧ src.tail.head? = some backslash then
    let r := addString src src { dest := [], p := 0 }
    if r.1 ≠ 0 then .error (k.fail r.1 r.2.dest)
    else .error
      { code := isNetworkBit, path := src, stored := r.2.dest.length, cds := k.cds, astray := false }
  else
    match k.remote src mode with
    | some path =>
      let result := if path[2]? = some slash ∧ result &&& isDeviceBit ≠ 0 then
        withoutBit result isNetworkBit else withBit result isNetworkBit
      .error { code := result, path := path, stored := 12, cds := k.cds, astray := false }
    | none =>
      match k.getCds result, k.isDevice src with
      | some cds, dhp => k.mapLocal front mode result result (.ofCds cds) dhp src
      | none, none => .error (k.fail dePathNotFnd zero)
      | none, some dhp =>
        let s := skipDrive src
        if !devOnly s then .error (k.fail dePathNotFnd zero)
        else if maxCdsPath ≤ (devName s).length then .error { k.fail 0 zero with astray := true }
        else
          -- the made-up drive P:
          k.mapLocal front mode 0x0f 0x0f (.ofName (devName s)) (some dhp) src

/-- `truename` into a buffer with the byte `front` in front of it. -/
def Kernel.truename (k : Kernel) (front : UInt8) (src : Str) (mode : Mode) : Truename :=
  match k.begin front src mode with
  | .error r => r
  | .ok s => s.complete front mode

end Path
end BurdahDos
