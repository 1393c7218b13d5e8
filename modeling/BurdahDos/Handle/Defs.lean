import BurdahDos.Dir.Defs
import BurdahDos.Path.Defs
import BurdahDos.Share.Defs
import Mathlib

/-!
# Handles

The functions of `kernel/dosfns.c` between a program and its open files.  A handle is a number into
the job file table of a process, the table holds indices of SFTs, and `sft_count` counts the
references to an SFT.  On the way to the file system the calls ask `truename` what a name stands
for, SHARE whether the file may be opened, and, for other names, a device driver or a redirector.

`sft_count` is a `WORD`.  It is kept as the number that its sixteen bits make.
-/

set_option autoImplicit false

namespace BurdahDos
namespace Handle

open File (System Sft success deAccess deInvldHndl)
open Share (Filename Tables inc16 dec16)

/-- `DE_TOOMANY` -/
def deTooMany : ℤ := -4
/-- `DE_INVLDACC` -/
def deInvldAcc : ℤ := -12

/-- `D_DEVICE` -/
def dDevice : UInt8 := 0x40
/-- `O_NOINHERIT` -/
def oNoinherit : ℕ := 0x0080
/-- `O_LEGACY` -/
def oLegacy : ℕ := 0x0800
/-- `~O_VALIDMASK` -/
def oInvalid : ℕ := 0x000c
/-- The attributes other than those that a file can be created with. -/
def notForFiles : ℕ := 0xffd0

/-! ## The rest of the system -/

/-- What a redirector is asked for. -/
inductive RemCmd where
  /-- `REM_CREATE` -/
  | create (attrib : ℕ)
  /-- `REM_EXTOC`, with `ext_open_mode`, `ext_open_attrib` and `ext_open_action`. -/
  | extoc (attrib mode extAttrib action : ℕ)
  /-- `REM_OPEN` -/
  | open (mode : ℕ)
  /-- `REM_CLOSE` -/
  | close
  /-- `REM_FLUSH` -/
  | flush

/-- What a driver is asked for: `C_OPEN` or `C_CLOSE`. -/
inductive CharCmd where
  | open
  | close

/-- What the file functions do not use of an SFT. -/
structure Rest where
  /-- `SFT_FSHARED`: a redirector's. -/
  fshared : Bool
  /-- `SFT_FDEVICE`, and the driver in `sft_dev`. -/
  dev : Option Path.Dhdr
  shroff : ℤ
  psp : ℕ

/-- The rest of the system, as a call finds it. -/
structure Env where
  /-- The return value of `truename` in the mode `CDS_MODE_CHECK_DEV_PATH`, and what it leaves in
  `PriPathName`. -/
  truename : Path.Str → ℤ × Filename
  isDevice : Path.Str → Option Path.Dhdr
  /-- Whether `BinaryCharIO` returns `SUCCESS`. -/
  charIO : Path.Dhdr → CharCmd → Bool
  /-- The answer of a redirector, and what it makes of the SFT. -/
  redirector : RemCmd → Sft → Rest → ℤ × Sft × Rest
  /-- `DosUpFMem`, on one character. -/
  upFChar : UInt8 → UInt8

/-- The paragraph of a PSP. -/
abbrev Seg := Fin (2 ^ 16)

instance neZeroTwoPow : NeZero (2 ^ 16) := ⟨by decide⟩

/-- The tables behind a handle. -/
structure State where
  /-- The SFTs and the volume. -/
  sys : System
  rest : ℕ → Rest
  share : Tables
  /-- The job file table of the PSP at a paragraph: `ps_filetab`, of length `ps_maxfiles`. -/
  jft : Seg → List UInt8
  cuPsp : Seg

namespace State

/-- Set an SFT. -/
def setSft (s : State) (idx : ℕ) (f : Sft) (r : Rest) : State :=
  { s with
    sys := { s.sys with sft := Function.update s.sys.sft idx f }
    rest := Function.update s.rest idx r }

/-- Change `sft_count`. -/
def modifyCount (s : State) (idx : ℕ) (f : ℕ → ℕ) : State :=
  s.setSft idx { s.sys.sft idx with count := f (s.sys.sft idx).count } (s.rest idx)

/-- Set a slot of a job file table. -/
def setHandle (s : State) (p : Seg) (hndl : ℕ) (b : UInt8) : State :=
  { s with jft := Function.update s.jft p ((s.jft p).set hndl b) }

/-- `idx_to_sft`: whether the SFT exists and is open. -/
def isOpen (s : State) (idx : ℕ) : Bool :=
  decide (idx < s.sys.total) && (s.sys.sft idx).count != 0

/-- `get_sft`: the index of the SFT of a handle. -/
def getSft (s : State) (hndl : ℕ) : Option ℕ :=
  match (s.jft s.cuPsp)[hndl]? with
  | none => none
  | some b => if b ≠ 0xff ∧ s.isOpen b.toNat then some b.toNat else none

/-- `get_free_hndl` -/
def getFreeHndl (s : State) : Option ℕ := (s.jft s.cuPsp).findIdx? (· == 0xff)

/-- `get_free_sft` -/
def getFreeSft (s : State) : Option ℕ :=
  (List.range s.sys.total).find? fun idx => (s.sys.sft idx).count == 0

end State

/-! ## Opening -/

/-- An SFT that `fmemset` has zeroed. -/
def zeroSft : Sft where
  count := 0
  mode := 0
  attrib := 0
  fclean := false
  fdate := false
  dcb := 0
  stclust := 0
  time := 0
  date := 0
  size := 0
  posit := 0
  relclust := 0
  dirsector := 0
  diridx := 0
  name := Vector.replicate 11 0
  cuclust := 0

/-- The name of a driver as that of a file: padded with blanks behind, and in upper case. -/
def deviceName (k : Env) (dhp : Path.Dhdr) : File.Name :=
  let name := dhp.name.toList ++ [0, 0, 0]
  let used := (name.reverse.dropWhile (· == 0)).length
  Vector.ofFn fun i : Fin 11 =>
    k.upFChar (if i.val < used then name.getD i.val 0 else 0x20)

/-- `SFT_FOCRM` in a driver's attributes: it takes open and close requests. -/
def focrm (dhp : Path.Dhdr) : Bool := dhp.attr.testBit 11

/-- `DeviceOpenSft`.  `SFT_FEOF` is the bit of `SFT_FCLEAN`, and `SFT_FIOCTL` that of
`SFT_FDATE`. -/
def deviceOpenSft (k : Env) (s : State) (dhp : Path.Dhdr) (idx : ℕ) : ℤ × State :=
  let sft := s.sys.sft idx
  let s := s.setSft idx
    { sft with
      count := inc16 sft.count
      attrib := dDevice
      fclean := true
      fdate := dhp.attr.testBit 14
      name := deviceName k dhp
      time := s.sys.time
      date := s.sys.date }
    { s.rest idx with fshared := false, dev := some dhp, shroff := -1 }
  (if focrm dhp && !k.charIO dhp .open then deAccess else success, s)

/-- The outcome of an open: an index and a status, or an error.  `none` is a null pointer used. -/
abbrev Opened := Option (Except ℤ (ℕ × ℕ))

/-- `DosOpenSft`, the open of a file on a redirector's drive. -/
def remoteOpenSft (k : Env) (s : State) (idx flags attrib : ℕ) : Opened × State :=
  let attrib := if flags &&& (Dir.oTrunc ||| Dir.oCreat) = Dir.oCreat then attrib ||| 0x100
    else attrib
  let cmd : RemCmd :=
    if flags &&& oLegacy = 0 then
      .extoc attrib (flags &&& 0x70ff) (attrib &&& 0xff)
        ((flags &&& 0x0300) / 2 ^ 8 ||| (flags &&& Dir.oCreat) / 2 ^ 6)
    else if flags &&& Dir.oCreat = 0 then .open (flags % 256)
    else .create attrib
  let r := k.redirector cmd (s.sys.sft idx) (s.rest idx)
  let s := s.setSft idx r.2.1 r.2.2
  if success ≤ r.1 then
    (some (.ok (idx, r.1.toNat)),
      if (s.sys.sft idx).count = 0 then s.modifyCount idx inc16 else s)
  else (some (.error r.1), s)

/-- `share_close_file`, and the SFT has no slot any more. -/
def State.releaseShare (s : State) (idx : ℕ) : State :=
  { s.setSft idx (s.sys.sft idx) { s.rest idx with shroff := -1 } with
    share :=
      if 0 ≤ (s.rest idx).shroff then Share.closeFile s.share (s.rest idx).shroff.toNat
      else s.share }

/-- `share_open_check`, if SHARE is installed: the slot it gives goes to the SFT. -/
def shareOpenCheck (s : State) (idx : ℕ) (path : Filename) (flags : ℕ) : State :=
  if s.sys.shareInstalled then
    let c := Share.openCheck s.share path (.ofNat s.cuPsp) (flags &&& 0x03) (flags / 2 ^ 4 &&& 0x07)
    { s.setSft idx (s.sys.sft idx) { s.rest idx with shroff := c.1 } with share := c.2 }
  else s

/-- `DosOpenSft`, the open of a file on a local drive. -/
def localOpenSft (s : State) (idx : ℕ) (path : Filename) (flags attrib : ℕ) : Opened × State :=
  if 2 < flags &&& Dir.oAccmode then (some (.error deInvldAcc), s)
  else if flags &&& Dir.oFcb = 0 ∧ attrib &&& notForFiles ≠ 0 then (some (.error deAccess), s)
  else
    let s := shareOpenCheck s idx path flags
    if s.sys.shareInstalled ∧ (s.rest idx).shroff < 0 then
      (some (.error (s.rest idx).shroff), s)
    else
      let s := s.modifyCount idx inc16
      let o := Dir.dosOpen s.sys path.chars flags (.ofNat attrib) idx
      let s := { s with sys := o.2 }
      match o.1 with
      | none => (none, s)
      | some result =>
        if result < 0 then
          -- the SHARE slot is freed and the reference dropped
          let s := if 0 ≤ (s.rest idx).shroff then s.releaseShare idx else s
          (some (.error result), s.modifyCount idx dec16)
        else (some (.ok (idx, result.toNat)), s)

/-- `DosOpenSft` -/
def dosOpenSft (k : Env) (s : State) (fname : Path.Str) (flags attrib : ℕ) : Opened × State :=
  let result := k.truename fname
  if result.1 < success then (some (.error result.1), s)
  else
    match s.getFreeSft with
    | none => (some (.error deTooMany), s)
    | some idx =>
      let attrib := attrib ||| File.dArchive.toNat
      let s := s.setSft idx { zeroSft with mode := flags &&& 0xf0ff, attrib := .ofNat attrib }
        { fshared := false, dev := none, shroff := -1, psp := s.cuPsp }
      let bits := result.1.toNat
      let dhp := if bits &&& Path.isDeviceBit ≠ 0 ∧ bits &&& Path.isNetworkBit = 0 then
        k.isDevice fname else none
      match dhp with
      | some dhp =>
        let rc := deviceOpenSft k s dhp idx
        (some (if rc.1 < success then .error rc.1 else .ok (idx, 0)), rc.2)
      | none =>
        if bits &&& Path.isNetworkBit ≠ 0 then remoteOpenSft k s idx flags attrib
        else localOpenSft s idx result.2 flags attrib

/-- `DosOpen` -/
def dosOpen (k : Env) (s : State) (fname : Path.Str) (mode attrib : ℕ) : Opened × State :=
  if mode &&& oInvalid ≠ 0 then (some (.error deInvldAcc), s)
  else
    match s.getFreeHndl with
    | none => (some (.error deTooMany), s)
    | some hndl =>
      let r := dosOpenSft k s fname mode attrib
      match r.1 with
      | some (.ok result) =>
        (some (.ok (hndl, result.2)), r.2.setHandle r.2.cuPsp hndl (.ofNat result.1))
      | e => (e, r.2)

/-! ## Closing -/

/-- `DosCloseSft` -/
def dosCloseSft (k : Env) (s : State) (idx : ℕ) (commitonly : Bool) : ℤ × State :=
  if !s.isOpen idx then (deInvldHndl, s)
  else if (s.rest idx).fshared then
    let r := k.redirector (if commitonly then .flush else .close) (s.sys.sft idx) (s.rest idx)
    (r.1, s.setSft idx r.2.1 r.2.2)
  else
    match (s.rest idx).dev with
    | some dhp =>
      if focrm dhp && !k.charIO dhp .close then (deInvldHndl, s)
      else (success, if commitonly then s else s.modifyCount idx dec16)
    | none =>
      let r := Dir.dosClose s.sys idx
      let s := { s with sys := r.2 }
      if commitonly ∨ r.1 ≠ success then (r.1, s)
      else
        let s := if (s.sys.sft idx).count = 1 ∧ s.sys.shareInstalled then s.releaseShare idx else s
        (success, s.modifyCount idx dec16)

/-- `DosClose`: the handle is closed before any critical error may occur. -/
def dosClose (k : Env) (s : State) (hndl : ℕ) : ℤ × State :=
  match s.getSft hndl with
  | none => (deInvldHndl, s)
  | some idx => dosCloseSft k (s.setHandle s.cuPsp hndl 0xff) idx false

/-! ## Duplicating -/

/-- `CloneHandle` -/
def cloneHandle (s : State) (hndl : ℕ) : ℤ × State :=
  match s.getSft hndl with
  | none => (deInvldHndl, s)
  | some idx =>
    if (s.sys.sft idx).mode &&& oNoinherit ≠ 0 then (deInvldHndl, s)
    else (success, s.modifyCount idx inc16)

/-- `DosForceDup`, for a new handle below `ps_maxfiles`. -/
def dosForceDup (k : Env) (s : State) (oldHandle newHandle : ℕ) : ℤ × State :=
  match s.getSft oldHandle with
  | none => (deInvldHndl, s)
  | some idx =>
    let ret := if (s.jft s.cuPsp).getD newHandle 0xff ≠ 0xff then dosClose k s newHandle
      else (success, s)
    if ret.1 ≠ success then ret
    else
      let s := ret.2
      let s := s.setHandle s.cuPsp newHandle ((s.jft s.cuPsp).getD oldHandle 0xff)
      (success, s.modifyCount idx inc16)

/-- `DosDup`: the new handle, or an error. -/
def dosDup (k : Env) (s : State) (handle : ℕ) : Except ℤ ℕ × State :=
  match s.getFreeHndl with
  | none => (.error deTooMany, s)
  | some newHandle =>
    let r := dosForceDup k s handle newHandle
    (if r.1 < 0 then .error deInvldHndl else .ok newHandle, r.2)

/-- `child_psp`, a turn of the loop that clones the file table. -/
def childTurn (para : Seg) (s : State) (i : ℕ) : State :=
  let c := cloneHandle s i
  if c.1 < 0 then c.2 else c.2.setHandle para i ((c.2.jft c.2.cuPsp).getD i 0xff)

/-- `child_psp`: the file table of a PSP made at `para`. -/
def childPsp (s : State) (para : Seg) : State :=
  (List.range 20).foldl (childTurn para)
    { s with jft := Function.update s.jft para (List.replicate 20 0xff) }

/-! ## Requests -/

/-- The calls of a process. -/
inductive Request where
  /-- `DosOpen` -/
  | open (fname : Path.Str) (mode attrib : ℕ)
  /-- `DosDup` -/
  | dup (handle : ℕ)
  /-- `DosForceDup` -/
  | forceDup (oldHandle newHandle : ℕ)
  /-- A child process is given clones of the handles. -/
  | child (para : Seg)
  /-- `DosClose` -/
  | close (hndl : ℕ)

/-- What a process asks for, and what the rest of the system is like then. -/
structure Call where
  env : Env
  psp : Seg
  request : Request

/-- One call. -/
def serve (s : State) (c : Call) : State :=
  let s := { s with cuPsp := c.psp }
  match c.request with
  | .open fname mode attrib => (dosOpen c.env s fname mode attrib).2
  | .dup handle => (dosDup c.env s handle).2
  | .forceDup oldHandle newHandle => (dosForceDup c.env s oldHandle newHandle).2
  | .child para => childPsp s para
  | .close hndl => (dosClose c.env s hndl).2

end Handle
end BurdahDos
