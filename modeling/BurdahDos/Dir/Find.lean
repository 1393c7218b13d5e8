import BurdahDos.Dir.View
import BurdahDos.Fat.Table
import BurdahDos.Path.Defs
import Mathlib

/-!
# Searching a directory

`dos_findfirst` and `dos_findnext` of `kernel/fatdir.c`, and `DosFindFirst` and `DosFindNext` of
`kernel/dosfns.c` over them.  A search "opens but never closes": all that is left of it between two
calls is the first 21 bytes of the caller's DTA.  Anything else may go on in between, so that each
call finds the rest of the system, the `World`, as it happens to be.

`remaining` is what a DTA stands for: the entries that are still to come.  Each call takes the first
of them, and `findAll_lists` says what comes of a whole search.
-/

set_option autoImplicit false

namespace BurdahDos
namespace Dir

open Fat File

/-- `DE_NFILES` -/
def deNFiles : ℤ := -18

/-- `D_HIDDEN` -/
def dHidden : UInt8 := 0x02
/-- `D_SYSTEM` -/
def dSystem : UInt8 := 0x04
/-- `D_DEVICE` -/
def dDevice : UInt8 := 0x40

/-! ## What a search keeps, and what it tells -/

/-- The first 21 bytes of `dmatch`, but for the two that are reserved. -/
structure Dmatch where
  drive : UInt8
  namePat : Name
  attrSrch : UInt8
  entry : ℕ
  dircluster : ℕ

/-- The rest of `dmatch`: what was found. -/
structure Found where
  attrFnd : UInt8
  time : ℕ
  date : ℕ
  size : ℕ
  name : Path

/-- A DTA. -/
structure Dta where
  dm : Dmatch
  fnd : Found

/-- `ConvertName83ToNameSZ`: "we have to work from the last blank backward". -/
def convertName83ToNameSZ (fcbName : Name) : Path :=
  let ext := (fcbName.toList.drop 8).rdropWhile (· == blank)
  (fcbName.toList.take 8).rdropWhile (· == blank) ++
    if firstOf fcbName = dot ∨ ext = [] then [] else dot :: ext

/-- What `pop_dmp` tells of an entry. -/
def Found.ofDirent (searchDir : Dirent) : Found where
  attrFnd := searchDir.attrib
  time := searchDir.time
  date := searchDir.date
  size := searchDir.size
  name := convertName83ToNameSZ searchDir.name

/-- What a search comes to: `sda_tmp_dm` and `SearchDir`, or an error. -/
abbrev Hit := Except ℤ (Dmatch × Dirent)

/-- `pop_dmp`: tell the caller of an entry.  A return value is `SearchDir`, or an error. -/
def popDmp (r : Hit) (dmp : Dta) : Except ℤ Dirent × Dta :=
  match r with
  | .error rc => (.error rc, dmp)
  | .ok (dm, searchDir) => (.ok searchDir, ⟨dm, .ofDirent searchDir⟩)

/-! ## The calls -/

/-- The rest of the system, as a call finds it. -/
structure World where
  /-- The return value of `truename` in the modes `CDS_MODE_CHECK_DEV_PATH` and
  `CDS_MODE_ALLOW_WILDCARDS`, and what it leaves in `PriPathName`. -/
  truename : Path → ℤ × Path
  /-- The volume of a drive. -/
  vol : UInt8 → Volume
  /-- Whether a drive has a DPB, and `media_check` does not fail. -/
  mediaCheck : UInt8 → Bool
  /-- `fnode[0]` -/
  fnode : FNode
  time : ℕ
  date : ℕ
  /-- The redirector's answer to `REM_FINDFIRST`. -/
  remFindfirst : Path → UInt8 → Hit
  /-- The redirector's answer to `REM_FINDNEXT`. -/
  remFindnext : Dmatch → Hit

/-- What is left when a drive was read. -/
def World.put (w : World) (drive : UInt8) (r : FNode × Volume) : World :=
  { w with vol := Function.update w.vol drive r.2, fnode := r.1 }

/-- The bits of an attribute mask that a search looks at. -/
def attrBits (attr : UInt8) : UInt8 := attr &&& ~~~(dRdonly ||| dArchive ||| dDevice)

/-- `fcmp_wild` on names. -/
def fcmpWild (pat name : Name) : Bool :=
  decide (∀ i : Fin 11, pat[i] = Path.quest ∨ pat[i] = name[i])

/-- The tests in the loop of `dos_findnext`. -/
def wanted (dm : Dmatch) (e : Dirent) : Bool :=
  firstOf e.name != deleted && e.attrib &&& dLfn != dLfn && fcmpWild dm.namePat e.name &&
    if attrBits dm.attrSrch = dVolid then e.attrib &&& dVolid != 0
    else ~~~attrBits dm.attrSrch &&& (dDir ||| dSystem ||| dHidden ||| dVolid) &&& e.attrib == 0

/-- `dos_findnext`.  `dm_entry` is counted up for the entry that is found, too. -/
def dosFindnext (w : World) (dm : Dmatch) : Hit × World :=
  if !w.mediaCheck dm.drive then (.error deNFiles, w)
  else
    let v := w.vol dm.drive
    let fnp := { dirInitFnode v.dpb w.fnode dm.dircluster with
      dcb := dm.drive.toNat, dmEntry := dm.entry, dmNamePat := dm.namePat }
    let r := search (wanted dm) v fnp
    (if r.1 = 1 then
        .ok ({ dm with entry := r.2.1.dmEntry + 1, dircluster := r.2.1.dmDircluster }, r.2.1.dir)
      else .error deNFiles,
      w.put dm.drive r.2)

/-- `sda_tmp_dm` when it is cleared. -/
def noDmatch : Dmatch := ⟨0, Vector.replicate 11 0, 0, 0, 0⟩

/-- `dm_drive` for a path. -/
def driveNr (path : Path) : UInt8 := path.headD 0 - 0x41

/-- `dos_findfirst` -/
def dosFindfirst (w : World) (attr : UInt16) (name : Path) : Hit × World :=
  if name.length = 3 then (.error deNFiles, w)
  else
    let v := w.vol (driveNr name)
    let o := splitPath v { w.fnode with dmNamePat := noDmatch.namePat } name
    let w := w.put (driveNr name) o.2
    if !o.1 then (.error dePathNotFnd, w)
    else
      -- "if ONLY label wanted redirect search to root dir"
      let fnp :=
        if attr &&& ~~~(dRdonly ||| dArchive ||| dDevice).toUInt16 = dVolid.toUInt16 then
          dirInitFnode o.2.2.dpb o.2.1 0
        else o.2.1
      dosFindnext { w with fnode := fnp }
        { drive := driveNr name, namePat := fnp.dmNamePat, attrSrch := attr.toUInt8
          entry := fnp.dmEntry, dircluster := fnp.dmDircluster }

/-- The entry that `DosFindFirst` makes up for a device. -/
def deviceDirent (w : World) (path : Path) : Dirent :=
  let p := (Path.getRoot path).takeWhile (· != dot)
  { name := Vector.ofFn fun i => if i.val < 8 then p.getD i blank else blank
    attrib := dDevice, case := 0, crtimems := 0, crtime := 0, crdate := 0, accdate := 0
    startHigh := 0, time := w.time, date := w.date, start := 0, size := 0 }

/-- `DosFindFirst` -/
def dosFindFirst (w : World) (attr : UInt16) (name : Path) (dmp : Dta) :
    Except ℤ Dirent × Dta × World :=
  let t := w.truename name
  if t.1 < success then (.error t.1, dmp, w)
  else
    let r : Hit × World :=
      if t.1.toNat &&& Path.isNetworkBit ≠ 0 then (w.remFindfirst t.2 attr.toUInt8, w)
      else if t.1.toNat &&& Path.isDeviceBit ≠ 0 ∧ attr &&& dVolid.toUInt16 = 0 then
        -- "make sure the next search fails"
        (.ok ({ noDmatch with entry := 0xffff }, deviceDirent w t.2), w)
      else dosFindfirst w attr t.2
    let p := popDmp r.1 dmp
    (p.1, p.2, r.2)

/-- `DosFindNext` -/
def dosFindNext (w : World) (dmp : Dta) : Except ℤ Dirent × Dta × World :=
  let dm := dmp.dm
  -- "findnext will always fail on a volume id search or device name"
  if attrBits dm.attrSrch = dVolid ∨ dm.drive &&& 0x80 = 0 ∧ dm.entry = 0xffff then
    (.error deNFiles, dmp, w)
  else
    let r : Hit × World :=
      if dm.drive &&& 0x80 ≠ 0 then (w.remFindnext dm, w) else dosFindnext w dm
    let p := popDmp r.1 dmp
    (p.1, p.2, r.2)

/-! ## What there is to find -/

variable {v v' : Volume} {dir : ℕ} {w : World} {dm : Dmatch}

/-- The entries from number `n` on, before the first that was never used. -/
def entriesFrom (v : Volume) (dir : ℕ) : ℕ → ℕ → List Dirent
  | 0, _ => []
  | k + 1, n =>
    match dirent v dir n with
    | none => []
    | some e => if firstOf e.name = 0 then [] else e :: entriesFrom v dir k (n + 1)

/-- The entries of a directory before the first that was never used.  Those from number 65535 on do
not count: "can't have more than 65535 directory entries". -/
def entries (v : Volume) (dir : ℕ) : List Dirent := entriesFrom v dir 65535 0

/-- The next entry from number `n` on that meets `stop`, with its number. -/
def nextFrom (v : Volume) (dir : ℕ) (stop : Dirent → Bool) : ℕ → ℕ → Option (ℕ × Dirent)
  | 0, _ => none
  | k + 1, n =>
    match dirent v dir n with
    | none => none
    | some e =>
      if firstOf e.name = 0 then none
      else if stop e then some (n, e)
      else nextFrom v dir stop k (n + 1)

/-- What comes next is the first of what is still to come. -/
theorem nextFrom_some {stop : Dirent → Bool} {k n m : ℕ} {e : Dirent}
    (h : nextFrom v dir stop k n = some (m, e)) :
    n ≤ m ∧ m < n + k ∧ (entriesFrom v dir k n).filter stop =
      e :: (entriesFrom v dir (n + k - (m + 1)) (m + 1)).filter stop := by
  induction k generalizing n with
  | zero => cases h
  | succ k ih =>
    rw [nextFrom] at h
    rw [entriesFrom]
    cases hd : dirent v dir n with
    | none => rw [hd] at h; cases h
    | some e' =>
      rw [hd] at h
      dsimp only at h ⊢
      split at h
      · cases h
      · rename_i hused
        rw [if_neg hused]
        split at h
        · rename_i hstop
          obtain ⟨rfl, rfl⟩ := Prod.mk.inj (Option.some.inj h)
          rw [List.filter_cons_of_pos hstop, show n + (k + 1) - (n + 1) = k by omega]
          exact ⟨Nat.le_refl n, by omega, rfl⟩
        · rename_i hstop
          obtain ⟨hle, hlt, heq⟩ := ih h
          rw [List.filter_cons_of_neg hstop, heq, show n + (k + 1) = n + 1 + k by omega]
          exact ⟨by omega, hlt, rfl⟩

theorem nextFrom_none {stop : Dirent → Bool} {k n : ℕ} (h : nextFrom v dir stop k n = none) :
    (entriesFrom v dir k n).filter stop = [] := by
  induction k generalizing n with
  | zero => rfl
  | succ k ih =>
    rw [nextFrom] at h
    rw [entriesFrom]
    cases hd : dirent v dir n with
    | none => rfl
    | some e =>
      rw [hd] at h
      dsimp only at h ⊢
      split at h
      · rename_i hend
        rw [if_pos hend]
        rfl
      · rename_i hused
        rw [if_neg hused]
        split at h
        · exact (nomatch h)
        · rename_i hstop
          rw [List.filter_cons_of_neg hstop]
          exact ih h

/-- Entries that do not meet `stop` are passed over. -/
theorem nextFrom_pass {stop : Dirent → Bool} {k n d : ℕ}
    (h : ∀ m, n ≤ m → m < n + d →
      ∃ e, dirent v dir m = some e ∧ firstOf e.name ≠ 0 ∧ stop e = false) :
    nextFrom v dir stop k n = nextFrom v dir stop (k - d) (n + d) := by
  induction d generalizing k n with
  | zero => rfl
  | succ d ih =>
    cases k with
    | zero => rw [Nat.zero_sub]; rfl
    | succ k =>
      obtain ⟨e, hd, hused, hstop⟩ := h n (Nat.le_refl n) (by omega)
      rw [nextFrom, hd]
      dsimp only
      rw [if_neg hused, hstop, if_neg Bool.false_ne_true,
        ih fun m h1 h2 => h m (by omega) (by omega)]
      congr 1 <;> omega

/-- A search finds what comes next, unless an access fails. -/
theorem HasSearched.next {fnp : FNode} {stop : Dirent → Bool} {n : ℕ} {r : ℤ × FNode × Volume}
    (h : HasSearched v dir stop fnp n r) :
    (r.1 = 1 ∧ nextFrom v dir stop (65535 - fnp.dmEntry) fnp.dmEntry =
        some (r.2.1.dmEntry, r.2.1.dir)) ∨
      r.1 ≠ 1 ∧ (¬ Sound v ∨ nextFrom v dir stop (65535 - fnp.dmEntry) fnp.dmEntry = none) := by
  obtain ⟨_, _, _, _, _, _, hw⟩ := h.walked
  have hn : r.2.1.dmEntry = n := by rw [hw]
  have hpass : nextFrom v dir stop (65535 - fnp.dmEntry) fnp.dmEntry =
      nextFrom v dir stop (65535 - n) n := by
    have hle := h.from_le
    rw [nextFrom_pass (d := n - fnp.dmEntry) fun m h1 h2 => h.passed m h1 (by omega)]
    congr 1 <;> omega
  rw [hpass, hn]
  have hunfold : n < 65535 → nextFrom v dir stop (65535 - n) n =
      match dirent v dir n with
      | none => none
      | some e => if firstOf e.name = 0 then none
        else if stop e then some (n, e) else nextFrom v dir stop (65534 - n) (n + 1) := by
    intro hlt
    rw [show 65535 - n = 65534 - n + 1 by omega, nextFrom]
  rcases h.result with ⟨place, hlt, hslot, hat, hres⟩ | ⟨hrc, hnone⟩
  · rw [hunfold hlt, dirent, hslot, hat.dir]
    dsimp only [Option.map_some]
    rcases hres with ⟨hrc, hused, hstop⟩ | ⟨hrc, hzero⟩
    · exact Or.inl ⟨hrc, by rw [if_neg hused, if_pos hstop]⟩
    · exact Or.inr ⟨by omega, Or.inr (if_pos hzero)⟩
  · refine Or.inr ⟨by omega, ?_⟩
    rcases hnone with hge | hnone | hfail
    · rw [show 65535 - n = 0 by omega]
      exact Or.inr rfl
    · by_cases hlt : n < 65535
      · rw [hunfold hlt, dirent, hnone]
        exact Or.inr rfl
      · rw [show 65535 - n = 0 by omega]
        exact Or.inr rfl
    · exact Or.inl hfail

/-- What a search asks for: an entry in use, not of a long name, that the pattern matches, and whose
directory, system, hidden and label bits are all in the mask. -/
structure Meets (pat : Name) (mask : UInt8) (e : Dirent) : Prop where
  live : firstOf e.name ≠ deleted
  short : e.attrib &&& dLfn ≠ dLfn
  matched : ∀ i : Fin 11, pat[i] = Path.quest ∨ pat[i] = e.name[i]
  masked : e.attrib &&& (dDir ||| dSystem ||| dHidden ||| dVolid) &&& ~~~mask = 0

instance (pat : Name) (mask : UInt8) (e : Dirent) : Decidable (Meets pat mask e) :=
  decidable_of_iff
    (firstOf e.name ≠ deleted ∧ e.attrib &&& dLfn ≠ dLfn ∧
      (∀ i : Fin 11, pat[i] = Path.quest ∨ pat[i] = e.name[i]) ∧
      e.attrib &&& (dDir ||| dSystem ||| dHidden ||| dVolid) &&& ~~~mask = 0)
    ⟨fun ⟨h1, h2, h3, h4⟩ => ⟨h1, h2, h3, h4⟩, fun ⟨h1, h2, h3, h4⟩ => ⟨h1, h2, h3, h4⟩⟩

/-- The entries of a directory that a search for `pat` is to return. -/
def matching (v : Volume) (dir : ℕ) (pat : Name) (mask : UInt8) : List Dirent :=
  (entries v dir).filter fun e => decide (Meets pat mask e)

/-- The bits that the code takes off the mask are not among those it compares. -/
theorem not_attrBits (mask attrib : UInt8) :
    ~~~attrBits mask &&& (dDir ||| dSystem ||| dHidden ||| dVolid) &&& attrib =
      attrib &&& (dDir ||| dSystem ||| dHidden ||| dVolid) &&& ~~~mask := by
  have hapart : ∀ i < 8, (dRdonly ||| dArchive ||| dDevice).toBitVec.getLsbD i = true →
      (dDir ||| dSystem ||| dHidden ||| dVolid).toBitVec.getLsbD i = false := by decide
  refine UInt8.toBitVec_inj.mp (BitVec.eq_of_getLsbD_eq fun i hi => ?_)
  have h := hapart i hi
  generalize dDir ||| dSystem ||| dHidden ||| dVolid = bits at h ⊢
  simp only [attrBits, UInt8.toBitVec_and, UInt8.toBitVec_not, BitVec.getLsbD_and,
    BitVec.getLsbD_not, hi, decide_true, Bool.true_and]
  generalize (dRdonly ||| dArchive ||| dDevice).toBitVec.getLsbD i = b at h ⊢
  generalize bits.toBitVec.getLsbD i = b' at h ⊢
  revert h
  cases b <;> cases b' <;> cases mask.toBitVec.getLsbD i <;> cases attrib.toBitVec.getLsbD i <;>
    decide

/-- The tests of `dos_findnext` are those, unless it is a search for a label. -/
theorem wanted_eq (h : attrBits dm.attrSrch ≠ dVolid) (e : Dirent) :
    wanted dm e = decide (Meets dm.namePat dm.attrSrch e) := by
  rw [wanted, if_neg h, not_attrBits, fcmpWild, Bool.eq_iff_iff]
  simp only [Bool.and_eq_true, bne_iff_ne, decide_eq_true_eq, beq_iff_eq]
  constructor
  · rintro ⟨⟨⟨h1, h2⟩, h3⟩, h4⟩
    exact ⟨h1, h2, h3, h4⟩
  · rintro ⟨h1, h2, h3, h4⟩
    exact ⟨⟨⟨h1, h2⟩, h3⟩, h4⟩

/-! ## One call -/

/-- No access of a call on a drive fails. -/
def World.Succeeds (w : World) (drive : UInt8) : Prop :=
  w.mediaCheck drive = true ∧ Sound (w.vol drive)

/-- What comes next for a search. -/
def upcoming (v : Volume) (dm : Dmatch) : Option (ℕ × Dirent) :=
  nextFrom v (startOf v.dpb dm.dircluster) (wanted dm) (65535 - dm.entry) dm.entry

/-- What is still to come for a search. -/
def remaining (v : Volume) (dm : Dmatch) : List Dirent :=
  (entriesFrom v (startOf v.dpb dm.dircluster) (65535 - dm.entry) dm.entry).filter (wanted dm)

@[simp] theorem startOf_startOf (d : Dpb) (c : ℕ) : startOf d (startOf d c) = startOf d c := by
  rw [startOf, startOf]
  split_ifs <;> rfl

/-- **`dos_findnext`** finds what comes next, unless an access fails. -/
theorem dosFindnext_spec (w : World) (dm : Dmatch) :
    (∃ n e, upcoming (w.vol dm.drive) dm = some (n, e) ∧
      (dosFindnext w dm).1 = .ok ({ dm with
        entry := n + 1, dircluster := startOf (w.vol dm.drive).dpb dm.dircluster }, e)) ∨
    (dosFindnext w dm).1 = .error deNFiles ∧
      (¬ w.Succeeds dm.drive ∨ upcoming (w.vol dm.drive) dm = none) := by
  rw [dosFindnext]
  by_cases hmedia : w.mediaCheck dm.drive = true
  · rw [if_neg (by rw [hmedia]; decide)]
    dsimp only
    have hst : Stands (w.vol dm.drive) (startOf (w.vol dm.drive).dpb dm.dircluster)
        { dirInitFnode (w.vol dm.drive).dpb w.fnode dm.dircluster with
          dcb := dm.drive.toNat, dmEntry := dm.entry, dmNamePat := dm.namePat } :=
      ⟨rfl, rfl, fun _ => rfl⟩
    obtain ⟨m, hsearch⟩ := search_spec (wanted dm) hst
    have hnext := hsearch.next
    have hcluster := hsearch.stands.dmDircluster
    generalize search (wanted dm) _ _ = r at hnext hcluster ⊢
    rcases hnext with ⟨hrc, hnext⟩ | ⟨hrc, hnone⟩
    · rw [if_pos hrc, hcluster]
      exact Or.inl ⟨r.2.1.dmEntry, r.2.1.dir, hnext, rfl⟩
    · rw [if_neg hrc]
      exact Or.inr ⟨rfl, hnone.imp_left fun h hs => h hs.2⟩
  · rw [if_pos (by simpa using hmedia)]
    exact Or.inr ⟨rfl, Or.inl fun hs => hmedia hs.1⟩

/-- What comes of a call for `dm` when the entries in `rest` are still to come: the first of them,
and the others remain for the DTA; or an error, and nothing has changed in it.  The latter is only
when nothing is to come, unless an access fails. -/
def Takes (v : Volume) (dm : Dmatch) (ok : Prop) (rest : List Dirent) (dmp : Dta)
    (r : Except ℤ Dirent × Dta) : Prop :=
  (∃ e, r.1 = .ok e ∧ r.2.fnd = .ofDirent e ∧ r.2.dm.drive = dm.drive ∧
      r.2.dm.attrSrch = dm.attrSrch ∧ r.2.dm.dircluster = startOf v.dpb dm.dircluster ∧
      rest = e :: remaining v r.2.dm) ∨
    (∃ rc, r = (.error rc, dmp)) ∧ (ok → rest = [])

theorem dosFindnext_takes (w : World) (dm : Dmatch) (dmp : Dta) :
    Takes (w.vol dm.drive) dm (w.Succeeds dm.drive) (remaining (w.vol dm.drive) dm) dmp
      (popDmp (dosFindnext w dm).1 dmp) := by
  have hstart := startOf_startOf (w.vol dm.drive).dpb dm.dircluster
  rcases dosFindnext_spec w dm with ⟨n, e, hnext, hr⟩ | ⟨hr, hnone⟩
  · obtain ⟨hle, hlt, heq⟩ := nextFrom_some hnext
    rw [hr, popDmp]
    refine Or.inl ⟨e, rfl, rfl, rfl, rfl, rfl, ?_⟩
    rw [remaining, heq, remaining]
    dsimp only
    rw [hstart, show dm.entry + (65535 - dm.entry) - (n + 1) = 65535 - (n + 1) by omega]
    rfl
  · rw [hr, popDmp]
    exact Or.inr ⟨⟨_, rfl⟩, fun hs => nextFrom_none (hnone.resolve_left (not_not.mpr hs))⟩

/-- **`DosFindNext`** returns the next entry of a search on a local drive, for anything but just a
label. -/
theorem dosFindNext_takes (w : World) {dmp : Dta} (hmask : attrBits dmp.dm.attrSrch ≠ dVolid)
    (hlocal : dmp.dm.drive &&& 0x80 = 0) :
    Takes (w.vol dmp.dm.drive) dmp.dm (w.Succeeds dmp.dm.drive)
      (remaining (w.vol dmp.dm.drive) dmp.dm) dmp
      ((dosFindNext w dmp).1, (dosFindNext w dmp).2.1) := by
  rw [dosFindNext]
  by_cases hend : dmp.dm.entry = 0xffff
  · rw [if_pos (Or.inr ⟨hlocal, hend⟩)]
    refine Or.inr ⟨⟨_, rfl⟩, fun _ => ?_⟩
    rw [remaining, hend]
    rfl
  · rw [if_neg (by rintro (h | h) <;> [exact hmask h; exact hend h.2])]
    dsimp only
    rw [if_neg (not_not.mpr hlocal)]
    exact dosFindnext_takes w dmp.dm dmp

/-! ## The first call -/

/-- The call is a search of the directory `dir` of a local drive for `pat`: `truename` accepts the
name, the path it makes of it is not the root, and leads there, and it does not name a device, or a
label may be one of the things asked for. -/
structure World.Asks (w : World) (attr : UInt16) (name : Path) (dir : ℕ) (pat : Name) : Prop where
  accepted : success ≤ (w.truename name).1
  notNetwork : (w.truename name).1.toNat &&& Path.isNetworkBit = 0
  file : (w.truename name).1.toNat &&& Path.isDeviceBit = 0 ∨ attr &&& dVolid.toUInt16 ≠ 0
  localDrive : driveNr (w.truename name).2 &&& 0x80 = 0
  named : (w.truename name).2.length ≠ 3
  splits : Splits (w.vol (driveNr (w.truename name).2)) (w.truename name).2 noDmatch.namePat
    (dir, pat)

theorem Leads.starts {split : Bool} {dirname : Path} {s s' : ℕ × Name}
    (h : Leads v split dirname s s') (hs : startOf v.dpb s.1 = s.1) :
    startOf v.dpb s'.1 = s'.1 := by
  induction h with
  | nil => exact hs
  | root => exact hs
  | last => exact hs
  | step _ _ _ _ _ _ _ _ _ _ _ ih => exact ih (startOf_startOf _ _)

theorem Splits.starts {path : Path} {pat : Name} {s : ℕ × Name} (h : Splits v path pat s) :
    startOf v.dpb s.1 = s.1 :=
  h.2.starts (startOf_startOf _ _)

/-- Where a search starts. -/
def firstDmatch (drive : UInt8) (pat : Name) (mask : UInt8) (dir : ℕ) : Dmatch :=
  ⟨drive, pat, mask, 0, dir⟩

theorem remaining_first {drive mask : UInt8} {pat : Name} (hmask : attrBits mask ≠ dVolid)
    (hdir : startOf v.dpb dir = dir) :
    remaining v (firstDmatch drive pat mask dir) = matching v dir pat mask := by
  rw [remaining, matching, entries]
  change List.filter _ (entriesFrom v (startOf v.dpb dir) 65535 0) = _
  rw [hdir]
  exact List.filter_congr fun e _ => wanted_eq hmask e

/-- The mask is one for labels only in the first call if it is in the others. -/
theorem attrBits_ne_of_wide {attr : UInt16} (hmask : attrBits attr.toUInt8 ≠ dVolid) :
    attr &&& ~~~(dRdonly ||| dArchive ||| dDevice).toUInt16 ≠ dVolid.toUInt16 := by
  intro h
  refine hmask ?_
  have h8 := congrArg UInt16.toUInt8 h
  rwa [UInt16.toUInt8_and] at h8

theorem entriesFrom_congr (h : ∀ n, dirent v' dir n = dirent v dir n) (k n : ℕ) :
    entriesFrom v' dir k n = entriesFrom v dir k n := by
  induction k generalizing n with
  | zero => rfl
  | succ k ih => rw [entriesFrom, entriesFrom, h, ih]

theorem matching_congr (h : ∀ n, dirent v' dir n = dirent v dir n) (pat : Name) (mask : UInt8) :
    matching v' dir pat mask = matching v dir pat mask := by
  rw [matching, matching, entries, entries, entriesFrom_congr h]

theorem Dpb.Same.startOf {d d' : Dpb} (h : d.Same d') (c : ℕ) : startOf d' c = Dir.startOf d c := by
  obtain ⟨_, _, _, rfl⟩ := h
  rfl

/-- **`DosFindFirst`** returns the first entry to be returned. -/
theorem dosFindFirst_takes {attr : UInt16} {name : Path} {pat : Name} (h : w.Asks attr name dir pat)
    (hmask : attrBits attr.toUInt8 ≠ dVolid) (dmp : Dta) :
    let drive := driveNr (w.truename name).2
    let r := dosFindFirst w attr name dmp
    ∃ v', ReadOnly (w.vol drive) v' ∧
      Takes v' (firstDmatch drive pat attr.toUInt8 dir) (w.Succeeds drive)
        (matching (w.vol drive) dir pat attr.toUInt8) dmp (r.1, r.2.1) := by
  obtain ⟨haccepted, hnet, hfile, -, hnamed, hsplits⟩ := h
  dsimp only
  rw [dosFindFirst]
  dsimp only
  rw [if_neg (not_lt.mpr haccepted), if_neg (not_not.mpr hnet),
    if_neg (fun h => hfile.elim h.1 fun h' => h' h.2), dosFindfirst, if_neg hnamed]
  dsimp only
  generalize driveNr (w.truename name).2 = drive at hsplits ⊢
  have hsplit := splitPath_spec (w.vol drive) { w.fnode with dmNamePat := noDmatch.namePat }
    (w.truename name).2
  generalize splitPath (w.vol drive) _ _ = o at hsplit ⊢
  have hro := hsplit.readOnly
  refine ⟨o.2.2, hro, ?_⟩
  rcases hsplit.result with ⟨hrc, h0, -, s, hs, hst, hpat⟩ | ⟨hrc, hnone⟩
  · obtain rfl := hs.unique hsplits
    rw [if_neg (by rw [hrc]; decide), if_neg (attrBits_ne_of_wide hmask), h0, hpat,
      hst.dmDircluster]
    have hvol : ∀ fnp, ({ w.put drive o.2 with fnode := fnp } : World).vol drive = o.2.2 :=
      fun _ => Function.update_self ..
    have htakes := dosFindnext_takes { w.put drive o.2 with fnode := o.2.1 }
      (firstDmatch drive pat attr.toUInt8 dir) dmp
    change Takes (World.vol _ drive) _ (World.Succeeds _ drive) (remaining (World.vol _ drive) _)
      _ _ at htakes
    have hstart : startOf o.2.2.dpb dir = dir := by
      rw [hro.dpb]
      exact hs.starts
    rw [hvol, remaining_first hmask hstart, matching_congr (hro.dirent dir)] at htakes
    refine htakes.imp_right fun h => ⟨h.1, fun hs => h.2 ⟨hs.1, ?_⟩⟩
    rw [hvol]
    exact hro.sound hs.2
  · rw [if_pos (by rw [hrc]; decide)]
    exact Or.inr ⟨⟨_, rfl⟩, fun hs => absurd hsplits (hnone.resolve_left (not_not.mpr hs.2) _)⟩

/-! ## A whole search -/

/-- `DosFindNext` time and again, with the DTA that the call before has left. -/
def findNexts : List World → Dta → List (Except ℤ Dirent × Dta)
  | [], _ => []
  | w :: ws, dmp =>
    let r := dosFindNext w dmp
    (r.1, r.2.1) :: findNexts ws r.2.1

/-- `DosFindFirst`, and then `DosFindNext` time and again. -/
def findAll (w : World) (ws : List World) (attr : UInt16) (name : Path) (dmp : Dta) :
    List (Except ℤ Dirent × Dta) :=
  let r := dosFindFirst w attr name dmp
  (r.1, r.2.1) :: findNexts ws r.2.1

/-- What the calls tell, until one of them fails. -/
def returned : List (Except ℤ Dirent × Dta) → List Found
  | (.ok _, dmp) :: rs => dmp.fnd :: returned rs
  | _ => []

/-- The directory is the same at a later call.  Where to look for a free cluster may have changed,
and anything else that is no part of it. -/
structure World.Unchanged (w : World) (drive : UInt8) (dir : ℕ) (w' : World) : Prop where
  dpb : (w.vol drive).dpb.Same (w'.vol drive).dpb
  dirent : ∀ n, Dir.dirent (w'.vol drive) dir n = Dir.dirent (w.vol drive) dir n

/-- What the calls are to tell if the entries in `rest` are still to come: these in their order, and
all of them by the time a call fails whose accesses succeed. -/
def Lists (drive : UInt8) (ws : List World) (rest : List Dirent) (tells : List Found) : Prop :=
  tells <+: rest.map Found.ofDirent ∧
    ∀ w, ws[tells.length]? = some w → w.Succeeds drive → tells = rest.map Found.ofDirent

/-- A search that is under way. -/
structure Underway (v : Volume) (drive mask : UInt8) (dir : ℕ) (dm : Dmatch) : Prop where
  drive : dm.drive = drive
  attrSrch : dm.attrSrch = mask
  dir : startOf v.dpb dm.dircluster = dir

theorem World.Unchanged.remaining {drive mask : UInt8} {w' : World} (h : w.Unchanged drive dir w')
    (hdm : Underway (w.vol drive) drive mask dir dm) :
    remaining (w'.vol drive) dm = Dir.remaining (w.vol drive) dm := by
  rw [Dir.remaining, Dir.remaining, Dpb.Same.startOf h.dpb, hdm.dir, entriesFrom_congr h.dirent]

/-- A call, and then the ones behind it. -/
theorem Takes.lists {drive : UInt8} {rest : List Dirent} {dmp : Dta} {r : Except ℤ Dirent × Dta}
    {ws : List World} {rs : List (Except ℤ Dirent × Dta)}
    (h : Takes v dm (w.Succeeds drive) rest dmp r)
    (hrs : r.2.dm.drive = dm.drive → r.2.dm.attrSrch = dm.attrSrch →
      r.2.dm.dircluster = startOf v.dpb dm.dircluster →
      Lists drive ws (remaining v r.2.dm) (returned rs)) :
    Lists drive (w :: ws) rest (returned (r :: rs)) := by
  obtain ⟨result, dmp'⟩ := r
  rcases h with ⟨e, hr, hfnd, hdrive, hattr, hcluster, hrest⟩ | ⟨⟨rc, hr⟩, hnone⟩
  · obtain ⟨hpre, hall⟩ := hrs hdrive hattr hcluster
    dsimp only at hr hfnd hrest hpre hall
    rw [hr, returned, hfnd, hrest, Lists, List.map_cons]
    exact ⟨(List.prefix_cons_inj _).mpr hpre, fun w' h hs => by rw [hall w' h hs]⟩
  · obtain ⟨hr, -⟩ := Prod.mk.inj hr
    rw [hr]
    refine ⟨List.nil_prefix, fun w' h hs => ?_⟩
    obtain rfl := Option.some.inj h
    rw [hnone hs]
    rfl

/-- The calls list what remains. -/
theorem findNexts_lists {drive mask : UInt8} {ws : List World} {dmp : Dta}
    (hmask : attrBits mask ≠ dVolid) (hlocal : drive &&& 0x80 = 0)
    (hws : ∀ w' ∈ ws, w.Unchanged drive dir w')
    (hdm : Underway (w.vol drive) drive mask dir dmp.dm) :
    Lists drive ws (remaining (w.vol drive) dmp.dm) (returned (findNexts ws dmp)) := by
  induction ws generalizing dmp with
  | nil => exact ⟨List.nil_prefix, fun w' h => (nomatch h)⟩
  | cons w' ws ih =>
    have hw' := hws w' List.mem_cons_self
    have hattrSrch : attrBits dmp.dm.attrSrch ≠ dVolid := hdm.attrSrch ▸ hmask
    have htakes := dosFindNext_takes w' hattrSrch (hdm.drive ▸ hlocal)
    rw [hdm.drive, hw'.remaining hdm] at htakes
    refine htakes.lists fun hdrive hattr hcluster => ?_
    have hdm' : Underway (w.vol drive) drive mask dir (dosFindNext w' dmp).2.1.dm := by
      refine ⟨hdrive.trans hdm.drive, hattr.trans hdm.attrSrch, ?_⟩
      rw [hcluster, Dpb.Same.startOf hw'.dpb, startOf_startOf, hdm.dir]
    rw [hw'.remaining hdm']
    exact ih (fun w'' h => hws w'' (List.mem_cons_of_mem _ h)) hdm'

/-- **A search** for anything but just a label returns the entries that meet it, in the order of the
directory and each once, whatever goes on between its calls.  It ends early only if an access
fails. -/
theorem findAll_lists {ws : List World} {attr : UInt16} {name : Path} {pat : Name}
    (h : w.Asks attr name dir pat) (hmask : attrBits attr.toUInt8 ≠ dVolid)
    (hws : ∀ w' ∈ ws, w.Unchanged (driveNr (w.truename name).2) dir w') (dmp : Dta) :
    let drive := driveNr (w.truename name).2
    Lists drive (w :: ws) (matching (w.vol drive) dir pat attr.toUInt8)
      (returned (findAll w ws attr name dmp)) := by
  obtain ⟨v', hro, htakes⟩ := dosFindFirst_takes h hmask dmp
  refine htakes.lists fun hdrive hattr hcluster => ?_
  have hdir := h.splits.starts
  have hdm : Underway (w.vol (driveNr (w.truename name).2)) (driveNr (w.truename name).2)
      attr.toUInt8 dir (dosFindFirst w attr name dmp).2.1.dm := by
    refine ⟨hdrive, hattr, ?_⟩
    rw [hcluster, hro.dpb, startOf_startOf]
    exact hdir
  have hrest : remaining v' (dosFindFirst w attr name dmp).2.1.dm =
      remaining (w.vol (driveNr (w.truename name).2)) (dosFindFirst w attr name dmp).2.1.dm := by
    rw [remaining, remaining, hro.dpb, hdm.dir, entriesFrom_congr (hro.dirent dir)]
  dsimp only
  rw [hrest]
  exact findNexts_lists hmask h.localDrive hws hdm

/-- `C:\A\????????.???` -/
def pathAll : Path :=
  pathA ++ backslash :: List.replicate 8 Path.quest ++ dot :: List.replicate 3 Path.quest

/-- `C:\NUL` -/
def pathNul : Path := [0x43, 0x3a, 0x5c, 0x4e, 0x55, 0x4c]

/-- The small tree on every drive, with a name that stands for a path. -/
def smallWorld (rc : ℤ) (path : Path) : World where
  truename := fun _ => (rc, path)
  vol := fun _ => smallTree []
  mediaCheck := fun _ => true
  fnode := smallFNode
  time := 0
  date := 0
  remFindfirst := fun _ _ => .error deNFiles
  remFindnext := fun _ => .error deNFiles

/-- A DTA that has not been used. -/
def smallDta : Dta := ⟨noDmatch, ⟨0, 0, 0, 0, []⟩⟩

/-- The f_node of a search that starts with an unused DTA. -/
def unusedFNode : FNode := { smallFNode with dmNamePat := noDmatch.namePat }

theorem pathAll_splits : Splits (smallTree []) pathAll noDmatch.namePat
    (2, Vector.replicate 11 Path.quest) := by
  have hrc : (splitPath (smallTree []) unusedFNode pathAll).1 = true := by decide +kernel
  have hdir : (splitPath (smallTree []) unusedFNode pathAll).2.1.dmDircluster = 2 := by
    decide +kernel
  have hname : (splitPath (smallTree []) unusedFNode pathAll).2.1.dmNamePat =
      Vector.replicate 11 Path.quest := by
    decide +kernel
  obtain ⟨-, -, -, s, hs, hst, hpat⟩ | ⟨hfail, -⟩ :=
    (splitPath_spec (smallTree []) unusedFNode pathAll).result
  · have heq : s = (2, Vector.replicate 11 Path.quest) :=
      Prod.ext (hst.dmDircluster.symm.trans hdir) (hpat.symm.trans hname)
    exact heq ▸ hs
  · exact absurd (hrc.symm.trans hfail) (Ne.symm Bool.false_ne_true)

/-- All that is in `A`: three entries, and then a call that fails. -/
theorem findAll_lists_smallTree :
    Lists 2 (List.replicate 4 (smallWorld 0 pathAll))
        (matching (smallTree []) 2 (Vector.replicate 11 Path.quest) dDir)
        (returned (findAll (smallWorld 0 pathAll) (List.replicate 3 (smallWorld 0 pathAll)) 0x10 []
          smallDta)) ∧
      (matching (smallTree []) 2 (Vector.replicate 11 Path.quest) dDir).map (·.name) =
        [dotName, dotDotName, nameF] := by
  constructor
  · exact findAll_lists (w := smallWorld 0 pathAll)
      ⟨by decide, by decide, by decide, by decide, by decide, pathAll_splits⟩ (by decide)
      (fun w' h => by
        obtain rfl := List.eq_of_mem_replicate h
        exact ⟨.refl _, fun _ => rfl⟩) smallDta
  · decide +kernel

theorem pathNul_splits : Splits (smallTree []) pathNul noDmatch.namePat
    (0, (convertNameSZToName83 (pathNul.drop 3)).1) :=
  ⟨by decide, .last backslash _ (0, noDmatch.namePat) (by decide) rfl (by decide)⟩

/-- A pattern may name a device.  The device is found then, in any directory. -/
theorem nul_found : attrBits 0 ≠ dVolid ∧ (smallWorld 0x20 pathNul).Succeeds 2 ∧
    Splits (smallTree []) pathNul noDmatch.namePat (0, (convertNameSZToName83 (pathNul.drop 3)).1) ∧
    matching (smallTree []) 0 (convertNameSZToName83 (pathNul.drop 3)).1 0 = [] ∧
    (returned (findAll (smallWorld 0x20 pathNul) [smallWorld 0x20 pathNul] 0 []
      smallDta)).length = 1 := by
  refine ⟨by decide, ⟨rfl, rfl, rfl⟩, pathNul_splits, by decide +kernel, ?_⟩
  decide +kernel

end Dir
end BurdahDos
