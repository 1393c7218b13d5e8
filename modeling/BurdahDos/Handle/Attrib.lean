import BurdahDos.Dir.Entry
import BurdahDos.Handle.Open
import Mathlib

/-!
# Setting attributes

`dos_setfattr` of `kernel/fatfs.c`.  It puts the attributes into `fnode[0]`, closes every SFT that
is open on the file, and then writes the entry from `fnode[0]`.  But `dos_close` works on
`fnode[0]` too: what is written are the attributes of the SFT that was closed last.  And a close
takes one reference away, so an SFT that was duplicated stays open.

`setfattr_iff`: the attributes are set, and the file is closed, exactly if no SFT is open on it, or
all of them have one reference and the last one has the attributes that are asked for.
-/

set_option autoImplicit false

namespace BurdahDos
namespace Handle

open Fat (Dpb Volume)
open File (System Sft FNode Dirent getdstart setdstart success deAccess deInvldHndl dVolid dDir)
open Dir (Path findFname dirWrite dirWriteUpdate entryAt dAll)
open Share (dec16)

/-! ## One fnode for all -/

/-- `sft_to_fnode`, with what it leaves alone in `fnode[0]`. -/
def sftInto (s : System) (fnp : FNode) (fd : ℕ) : FNode :=
  let sft := s.sft fd
  let dir := { fnp.dir with
    name := sft.name, attrib := sft.attrib, time := sft.time, date := sft.date, size := sft.size }
  { fnp with
    fclean := sft.fclean
    fdate := sft.fdate
    dir := setdstart s.vol.dpb dir sft.stclust
    dirsector := sft.dirsector
    diridx := sft.diridx
    dcb := sft.dcb
    offset := sft.posit
    clusterOffset := sft.relclust
    cluster := sft.cuclust
    sftIdx := fd }

/-- `dos_close`, with what it leaves in `fnode[0]`. -/
def dosCloseInto (s : System) (fnp : FNode) (fd : ℕ) : ℤ × FNode × System :=
  let fnp := sftInto s fnp fd
  let fnp := if fnp.fclean then fnp else Dir.FNode.stamp fnp s.time s.date
  let s := if fnp.fclean then s else File.mergeFileChanges s fnp
  let fnp := { fnp with sftIdx := 0xff }
  let w := dirWriteUpdate s.vol fnp true
  (if w.1 then success else deInvldHndl, fnp, { s with vol := w.2 })

/-- `DosCloseSft` for good, with what it leaves in `fnode[0]`. -/
def closeSft (k : Env) (s : State) (fnp : FNode) (idx : ℕ) : ℤ × FNode × State :=
  let r := dosCloseSft k s idx false
  let far := (s.rest idx).fshared || (s.rest idx).dev.isSome
  (r.1, if far then fnp else (dosCloseInto s.sys fnp idx).2.1, r.2)

/-- The loop of `merge_file_changes` with `collect` -1, over `n` SFTs from `i` on: "close open files
in compat mode". -/
def closeLoop (k : Env) : ℕ → ℕ → FNode → State → ℤ × FNode × State
  | 0, _, fnp, s => (success, fnp, s)
  | n + 1, i, fnp, s =>
    if fnp.sameFile i (s.sys.sft i) then
      let r := closeSft k s fnp i
      if r.1 ≠ success then r else closeLoop k n (i + 1) r.2.1 r.2.2
    else closeLoop k n (i + 1) fnp s

/-- The attributes that `dos_setfattr` puts into the fnode. -/
def newAttrib (old : UInt8) (attrp : UInt16) : UInt8 := old &&& (dVolid ||| dDir) ||| attrp.toUInt8

/-- `dos_setfattr`; `fnode` is what is left in `fnode[0]`. -/
def dosSetfattr (k : Env) (s : State) (fnode : FNode) (name : Path) (attrp : UInt16) : ℤ × State :=
  if attrp &&& (dVolid.toUInt16 ||| 0xc0) ≠ 0 then (deAccess, s)
  else
    let r := findFname s.sys.vol fnode name dAll
    let s := { s with sys := { s.sys with vol := r.2.2 } }
    let fnp := r.2.1
    if r.1 ≠ success then (r.1, s)
    else if attrp &&& dDir.toUInt16 ≠ 0 ∧ fnp.dir.attrib &&& dDir = 0 then (deAccess, s)
    else
      let fnp := { fnp with dir := { fnp.dir with attrib := newAttrib fnp.dir.attrib attrp } }
      let m := if s.sys.shareInstalled then closeLoop k s.sys.total 0 fnp s else (success, fnp, s)
      if m.1 ≠ success then (m.1, m.2.2)
      else
        let w := dirWrite m.2.2.sys.vol m.2.1
        (if w.1 then success else deAccess,
          { m.2.2 with sys := { m.2.2.sys with vol := w.2 } })

/-! ## What a close does -/

/-- The fields that `dos_close` uses are the same. -/
structure Alike (d : Dpb) (fnp fnp' : FNode) : Prop where
  fclean : fnp.fclean = fnp'.fclean
  fdate : fnp.fdate = fnp'.fdate
  dirsector : fnp.dirsector = fnp'.dirsector
  diridx : fnp.diridx = fnp'.diridx
  dcb : fnp.dcb = fnp'.dcb
  sftIdx : fnp.sftIdx = fnp'.sftIdx
  name : fnp.dir.name = fnp'.dir.name
  attrib : fnp.dir.attrib = fnp'.dir.attrib
  time : fnp.dir.time = fnp'.dir.time
  date : fnp.dir.date = fnp'.dir.date
  size : fnp.dir.size = fnp'.dir.size
  start : fnp.dir.start = fnp'.dir.start
  startHigh : d.isFat32 = true → fnp.dir.startHigh = fnp'.dir.startHigh

variable {fnp fnp' : FNode}

theorem sftInto_alike (s : System) (fnp : FNode) (fd : ℕ) :
    Alike s.vol.dpb (sftInto s fnp fd) (File.sftToFnode s fd) := by
  refine ⟨rfl, rfl, rfl, rfl, rfl, rfl, rfl, rfl, rfl, rfl, rfl, rfl, fun h => ?_⟩
  simp [sftInto, File.sftToFnode, setdstart, h]

theorem Alike.stamp {d : Dpb} (h : Alike d fnp fnp') (time date : ℕ) :
    Alike d (if fnp.fclean then fnp else Dir.FNode.stamp fnp time date)
      (if fnp'.fclean then fnp' else Dir.FNode.stamp fnp' time date) := by
  have hclean := h.fclean
  have hdate := h.fdate
  split
  · rw [if_pos (by rwa [← hclean])]
    exact h
  · rw [if_neg (by rwa [← hclean]), Dir.FNode.stamp, Dir.FNode.stamp]
    split
    · rw [if_pos (by rwa [← hdate])]
      exact h
    · rw [if_neg (by rwa [← hdate])]
      exact ⟨h.fclean, h.fdate, h.dirsector, h.diridx, h.dcb, h.sftIdx, h.name, h.attrib, rfl, rfl,
        h.size, h.start, h.startHigh⟩

theorem Alike.getdstart {d : Dpb} (h : Alike d fnp fnp') :
    File.getdstart d fnp.dir = File.getdstart d fnp'.dir := by
  rw [File.getdstart, File.getdstart, h.start]
  split
  · rw [h.startHigh ‹_›]
  · rfl

theorem Alike.mergeFileChanges {s : System} (h : Alike s.vol.dpb fnp fnp') :
    File.mergeFileChanges s fnp = File.mergeFileChanges s fnp' := by
  have hsame : fnp.sameFile = fnp'.sameFile := by
    funext i sft
    simp only [FNode.sameFile, h.sftIdx, h.dcb, h.attrib, h.diridx, h.dirsector]
  simp only [File.mergeFileChanges, hsame, h.getdstart, h.size, h.date, h.time]

theorem swapDeleted_eq (e : Dirent) :
    Dir.swapDeleted e = { e with name := (Dir.swapDeleted e).name } := by
  rw [Dir.swapDeleted]
  split <;> rfl

theorem swapDeleted_name {e e' : Dirent} (h : e.name = e'.name) :
    (Dir.swapDeleted e).name = (Dir.swapDeleted e').name := by
  simp only [Dir.swapDeleted, Dir.setFirst, h]
  split
  · rfl
  · exact h

theorem Alike.dirWriteUpdate {v : Volume} (h : Alike v.dpb fnp fnp') :
    Dir.dirWriteUpdate v fnp true = Dir.dirWriteUpdate v fnp' true := by
  have hput : Dir.putEntry v.dpb v.disk fnp.dirsector (fnp.diridx * 32)
      (Dir.swapDeleted fnp.dir) true = Dir.putEntry v.dpb v.disk fnp'.dirsector
        (fnp'.diridx * 32) (Dir.swapDeleted fnp'.dir) true := by
    rw [swapDeleted_eq fnp.dir, swapDeleted_eq fnp'.dir, swapDeleted_name h.name]
    simp only [Dir.putEntry, Bool.not_true, Bool.false_eq_true, if_false, h.dirsector, h.diridx,
      h.attrib, h.time, h.date, h.start, h.size]
    split
    · rename_i hfat
      rw [h.startHigh hfat]
    · rfl
  rw [Dir.dirWriteUpdate, Dir.dirWriteUpdate, h.fclean, h.fdate, hput, h.dirsector]

/-- `dos_close` does not depend on what is left in `fnode[0]`. -/
theorem dosCloseInto_dosClose (s : System) (fnp : FNode) (fd : ℕ) :
    ((dosCloseInto s fnp fd).1, (dosCloseInto s fnp fd).2.2) = Dir.dosClose s fd := by
  have h := (sftInto_alike s fnp fd).stamp s.time s.date
  have hwrite : ∀ s' : System, s'.vol.dpb = s.vol.dpb → ∀ f f' : FNode, Alike s.vol.dpb f f' →
      dirWriteUpdate s'.vol { f with sftIdx := 0xff } true =
        dirWriteUpdate s'.vol { f' with sftIdx := 0xff } true := fun s' hd f f' hf =>
    Alike.dirWriteUpdate (hd ▸ ⟨hf.fclean, hf.fdate, hf.dirsector, hf.diridx, hf.dcb, rfl, hf.name,
      hf.attrib, hf.time, hf.date, hf.size, hf.start, hf.startHigh⟩)
  rw [dosCloseInto, Dir.dosClose]
  dsimp only
  generalize (if (sftInto s fnp fd).fclean = true then sftInto s fnp fd else
    Dir.FNode.stamp (sftInto s fnp fd) s.time s.date) = f at h ⊢
  generalize (if (File.sftToFnode s fd).fclean = true then File.sftToFnode s fd else
    Dir.FNode.stamp (File.sftToFnode s fd) s.time s.date) = f' at h ⊢
  have hmerge : (if f.fclean = true then s else File.mergeFileChanges s f) =
      if f'.fclean = true then s else File.mergeFileChanges s f' := by
    rw [h.fclean, h.mergeFileChanges]
  have hdpb : (if f'.fclean = true then s else File.mergeFileChanges s f').vol.dpb = s.vol.dpb := by
    split <;> rfl
  rw [hmerge, hwrite _ hdpb f f' h]

/-! ## Where an entry is -/

/-- Where a directory entry is: its drive, its sector, and its number there. -/
abbrev Seat := ℕ × ℕ × ℕ

/-- The entry of the file that an fnode is for. -/
def seatOf (fnp : FNode) : Seat := (fnp.dcb, fnp.dirsector, fnp.diridx)

/-- The entry of the file that an SFT is open on. -/
def sftSeat (f : Sft) : Seat := (f.dcb, f.dirsector, f.diridx)

/-- An SFT is open on the file with this entry. -/
def State.openOn (s : State) (p : Seat) (i : ℕ) : Prop :=
  i < s.sys.total ∧ (s.sys.sft i).count ≠ 0 ∧ sftSeat (s.sys.sft i) = p

/-- One that `merge_file_changes` finds. -/
def State.finds (s : State) (p : Seat) (i : ℕ) : Prop :=
  s.openOn p i ∧ i ≠ 0xff ∧ (s.sys.sft i).attrib &&& dVolid = 0

/-- Only bytes of this entry differ. -/
def OnlyEntry (p : Seat) (disk disk' : ℕ → ℕ → UInt8) : Prop :=
  ∀ sector i, ¬ (sector = p.2.1 ∧ p.2.2 * 32 ≤ i ∧ i < p.2.2 * 32 + 32) →
    disk' sector i = disk sector i

theorem OnlyEntry.refl (p : Seat) (disk : ℕ → ℕ → UInt8) : OnlyEntry p disk disk :=
  fun _ _ _ => rfl

theorem OnlyEntry.trans {p : Seat} {disk disk' disk'' : ℕ → ℕ → UInt8}
    (h : OnlyEntry p disk disk') (h' : OnlyEntry p disk' disk'') : OnlyEntry p disk disk'' :=
  fun sector i hi => (h' sector i hi).trans (h sector i hi)

/-- `dir_write_update` changes one entry. -/
theorem dirWriteUpdate_frame (v : Volume) (fnp : FNode) (update : Bool) :
    (dirWriteUpdate v fnp update).2.dpb = v.dpb ∧
      OnlyEntry (seatOf fnp) v.disk (dirWriteUpdate v fnp update).2.disk := by
  obtain ⟨hd, -, -, hk⟩ := Dir.access_table v
  obtain ⟨hd', -, -, hk'⟩ := Dir.access_table v.access.2
  have hput : OnlyEntry (seatOf fnp) v.disk (Dir.putEntry v.dpb v.disk fnp.dirsector
      (fnp.diridx * 32) (Dir.swapDeleted fnp.dir) update) := fun sector i hi =>
    Dir.putEntry_out fun hs => by
      have : ¬ (fnp.diridx * 32 ≤ i ∧ i < fnp.diridx * 32 + 32) := fun h => hi ⟨hs, h⟩
      omega
  have hsame : OnlyEntry (seatOf fnp) v.disk v.access.2.disk := hk ▸ OnlyEntry.refl _ _
  have hsame' : OnlyEntry (seatOf fnp) v.disk v.access.2.access.2.disk :=
    hsame.trans (hk' ▸ OnlyEntry.refl _ _)
  rw [dirWriteUpdate]
  split
  · dsimp only
    split
    · exact ⟨hd, hsame⟩
    · rw [Dir.flushSector]
      dsimp only
      split
      · exact ⟨hd'.trans hd, hput⟩
      · split
        · exact ⟨hd'.trans hd, hsame'⟩
        · exact ⟨hd'.trans hd, hput⟩
  · exact ⟨hd, hsame⟩

/-! ## A modification of a file -/

/-- What a modification of a file leaves: its name, its size and its first cluster. -/
structure Modification where
  name : File.Name
  size : ℕ
  start : ℕ

/-- The first cluster as an entry has it. -/
def storedStart (d : Dpb) (c : ℕ) : ℕ := if d.isFat32 then c % 2 ^ 32 else c % 2 ^ 16

theorem getdstart_setdstart (d : Dpb) (e : Dirent) (c : ℕ) :
    getdstart d (setdstart d e c) = storedStart d c := by
  rw [getdstart, setdstart, storedStart]
  split
  · dsimp only
    omega
  · rfl

theorem storedStart_idem (d : Dpb) (c : ℕ) : storedStart d (storedStart d c) = storedStart d c := by
  rw [storedStart, storedStart]
  split <;> omega

/-- An SFT has the size and the first cluster. -/
def Modification.inSft (m : Modification) (d : Dpb) (f : Sft) : Prop :=
  f.size = m.size ∧ storedStart d f.stclust = m.start

/-- A directory entry has them. -/
def Modification.inEntry (m : Modification) (d : Dpb) (e : Dirent) : Prop :=
  e.size = m.size ∧ getdstart d e = m.start

/-- The numbers in the SFTs and of the clock are those of words. -/
structure State.Words (s : State) : Prop where
  count : ∀ i, (s.sys.sft i).count < 2 ^ 16
  sftTime : ∀ i, (s.sys.sft i).time < 2 ^ 16
  sftDate : ∀ i, (s.sys.sft i).date < 2 ^ 16
  size : ∀ i, (s.sys.sft i).size < 2 ^ 32
  time : s.sys.time < 2 ^ 16
  date : s.sys.date < 2 ^ 16

/-! ## One close -/

/-- What `dos_close` makes of `fnode[0]`. -/
def closing (s : System) (fnp : FNode) (i : ℕ) : FNode :=
  if (s.sft i).fclean then sftInto s fnp i
  else Dir.FNode.stamp (sftInto s fnp i) s.time s.date

/-- The SFTs once `dos_close` has told them of the changes. -/
def told (s : System) (fnp : FNode) (i : ℕ) : System :=
  if (s.sft i).fclean then s else File.mergeFileChanges s (closing s fnp i)

theorem closing_fields (s : System) (fnp : FNode) (i : ℕ) :
    (closing s fnp i).sftIdx = i ∧ seatOf (closing s fnp i) = sftSeat (s.sft i) ∧
      (closing s fnp i).dir.attrib = (s.sft i).attrib ∧
      (closing s fnp i).dir.name = (s.sft i).name ∧
      (closing s fnp i).dir.size = (s.sft i).size ∧
      getdstart s.vol.dpb (closing s fnp i).dir = storedStart s.vol.dpb (s.sft i).stclust := by
  have hstart := getdstart_setdstart s.vol.dpb { fnp.dir with
    name := (s.sft i).name, attrib := (s.sft i).attrib, time := (s.sft i).time,
    date := (s.sft i).date, size := (s.sft i).size } (s.sft i).stclust
  rw [closing]
  split
  · exact ⟨rfl, rfl, rfl, rfl, rfl, hstart⟩
  · rw [Dir.FNode.stamp]
    split
    · exact ⟨rfl, rfl, rfl, rfl, rfl, hstart⟩
    · exact ⟨rfl, rfl, rfl, rfl, rfl, hstart⟩

/-- What a close that succeeds has done. -/
structure HasClosedSft (s : State) (fnp : FNode) (i : ℕ) (r : ℤ × FNode × State) : Prop where
  fnode : r.2.1 = { closing s.sys fnp i with sftIdx := 0xff }
  total : r.2.2.sys.total = s.sys.total
  shareInstalled : r.2.2.sys.shareInstalled = s.sys.shareInstalled
  time : r.2.2.sys.time = s.sys.time
  date : r.2.2.sys.date = s.sys.date
  dpb : r.2.2.sys.vol.dpb = s.sys.vol.dpb
  disk : OnlyEntry (sftSeat (s.sys.sft i)) s.sys.vol.disk r.2.2.sys.vol.disk
  self : r.2.2.sys.sft i =
    { (told s.sys fnp i).sft i with count := dec16 ((told s.sys fnp i).sft i).count }
  others : ∀ j, j ≠ i → r.2.2.sys.sft j = (told s.sys fnp i).sft j
  rest : ∀ j, (r.2.2.rest j).fshared = (s.rest j).fshared ∧ (r.2.2.rest j).dev = (s.rest j).dev

theorem dosCloseInto_eq (s : System) (fnp : FNode) (i : ℕ) :
    dosCloseInto s fnp i =
      (if (dirWriteUpdate (told s fnp i).vol { closing s fnp i with sftIdx := 0xff } true).1
        then success else deInvldHndl,
        { closing s fnp i with sftIdx := 0xff },
        { told s fnp i with
          vol := (dirWriteUpdate (told s fnp i).vol
            { closing s fnp i with sftIdx := 0xff } true).2 }) := by
  have hfnode : (if (sftInto s fnp i).fclean then sftInto s fnp i else
      Dir.FNode.stamp (sftInto s fnp i) s.time s.date) = closing s fnp i := rfl
  have hclean : (closing s fnp i).fclean = (s.sft i).fclean := by
    rw [closing]
    split
    · rfl
    · rw [Dir.FNode.stamp]
      split <;> rfl
  have htold : (if (closing s fnp i).fclean then s else File.mergeFileChanges s
      (closing s fnp i)) = told s fnp i := by rw [hclean, told]
  rw [dosCloseInto]
  dsimp only
  rw [hfnode, htold]

/-- A close that succeeds, of the SFT of a file. -/
theorem dosCloseSft_file {k : Env} {s : State} {i : ℕ} (hopen : s.isOpen i = true)
    (hfile : (s.rest i).fshared = false ∧ (s.rest i).dev = none)
    (hok : (dosCloseSft k s i false).1 = success) :
    (Dir.dosClose s.sys i).1 = success ∧ ∃ t : State,
      (t = { s with sys := (Dir.dosClose s.sys i).2 } ∨
        t = State.releaseShare { s with sys := (Dir.dosClose s.sys i).2 } i) ∧
      (dosCloseSft k s i false).2 = t.modifyCount i dec16 := by
  rw [dosCloseSft] at hok ⊢
  simp only [hopen, Bool.not_true, Bool.false_eq_true, if_false, hfile.1, hfile.2, false_or]
    at hok ⊢
  generalize Dir.dosClose s.sys i = r at hok ⊢
  by_cases hr : r.1 = success
  · rw [if_neg (not_not.mpr hr)]
    refine ⟨hr, _, ?_, rfl⟩
    split
    · exact Or.inr rfl
    · exact Or.inl rfl
  · rw [if_pos hr] at hok
    exact absurd hok hr

/-- **A close** makes `fnode[0]` one for its SFT, and takes one reference from that. -/
theorem closeSft_spec {k : Env} {s : State} {i : ℕ} (hopen : s.isOpen i = true)
    (hfile : (s.rest i).fshared = false ∧ (s.rest i).dev = none)
    (hok : (closeSft k s fnp i).1 = success) :
    HasClosedSft s fnp i (closeSft k s fnp i) := by
  obtain ⟨hclose, t, ht, heq⟩ := dosCloseSft_file hopen hfile hok
  have hinto := dosCloseInto_dosClose s.sys fnp i
  have hcloseInto := dosCloseInto_eq s.sys fnp i
  have hframe := dirWriteUpdate_frame (told s.sys fnp i).vol
    { closing s.sys fnp i with sftIdx := 0xff } true
  have hseat : seatOf { closing s.sys fnp i with sftIdx := 0xff } = sftSeat (s.sys.sft i) :=
    (closing_fields s.sys fnp i).2.1
  have htold : (told s.sys fnp i).vol = s.sys.vol ∧ (told s.sys fnp i).total = s.sys.total ∧
      (told s.sys fnp i).shareInstalled = s.sys.shareInstalled ∧
      (told s.sys fnp i).time = s.sys.time ∧ (told s.sys fnp i).date = s.sys.date := by
    rw [told]
    split <;> exact ⟨rfl, rfl, rfl, rfl, rfl⟩
  obtain ⟨hvol, htotal, hshare, htime, hdate⟩ := htold
  rw [hvol, hseat] at hframe
  -- the system after `dos_close`, before the reference is dropped
  have hsys : (Dir.dosClose s.sys i).2 = { told s.sys fnp i with
      vol := (dirWriteUpdate s.sys.vol { closing s.sys fnp i with sftIdx := 0xff } true).2 } := by
    rw [← hinto, hcloseInto, hvol]
  have htsys : t.sys = (Dir.dosClose s.sys i).2 := by
    rcases ht with rfl | rfl
    · rfl
    · simp [State.releaseShare, State.setSft]
  have hrest : ∀ j, (t.rest j).fshared = (s.rest j).fshared ∧ (t.rest j).dev = (s.rest j).dev := by
    intro j
    rcases ht with rfl | rfl
    · exact ⟨rfl, rfl⟩
    · by_cases hj : j = i
      · subst hj
        simp [State.releaseShare, State.setSft]
      · simp [State.releaseShare, State.setSft, hj]
  have hfnode : (closeSft k s fnp i).2.1 = { closing s.sys fnp i with sftIdx := 0xff } := by
    simp only [closeSft, hfile.1, hfile.2, Option.isSome_none, Bool.or_false, Bool.false_eq_true,
      if_false, hcloseInto]
  have hstate : (closeSft k s fnp i).2.2 = t.modifyCount i dec16 := heq
  rw [hsys] at htsys
  refine ⟨hfnode, ?_, ?_, ?_, ?_, ?_, ?_, ?_, fun j hj => ?_, fun j => ?_⟩
  all_goals rw [hstate]
  · simp only [State.modifyCount, State.setSft, htsys, htotal]
  · simp only [State.modifyCount, State.setSft, htsys, hshare]
  · simp only [State.modifyCount, State.setSft, htsys, htime]
  · simp only [State.modifyCount, State.setSft, htsys, hdate]
  · simp only [State.modifyCount, State.setSft, htsys, hframe.1]
  · simp only [State.modifyCount, State.setSft, htsys]
    exact hframe.2
  · simp only [State.modifyCount, State.setSft, htsys, Function.update_self]
  · simp only [State.modifyCount, State.setSft, htsys, Function.update_of_ne hj]
  · by_cases hj : j = i
    · subst hj
      simpa [State.modifyCount, State.setSft] using hrest j
    · simpa [State.modifyCount, State.setSft, hj] using hrest j

/-! ## All of them -/

/-- What another SFT is like after `dos_close` has told it of the changes, or has not. -/
structure Told (d : Dpb) (fnp : FNode) (f f' : Sft) : Prop where
  count : f'.count = f.count
  attrib : f'.attrib = f.attrib
  fclean : f'.fclean = f.fclean
  seat : sftSeat f' = sftSeat f
  name : f'.name = f.name
  change : f' = f ∨ f'.size = fnp.dir.size ∧ f'.stclust = getdstart d fnp.dir ∧
    f'.time = fnp.dir.time ∧ f'.date = fnp.dir.date

theorem told_spec (s : System) (fnp : FNode) (i j : ℕ) :
    Told s.vol.dpb (closing s fnp i) (s.sft j) ((told s fnp i).sft j) := by
  rw [told]
  split
  · exact ⟨rfl, rfl, rfl, rfl, rfl, Or.inl rfl⟩
  · dsimp only [File.mergeFileChanges]
    split
    · exact ⟨rfl, rfl, rfl, rfl, rfl, Or.inr ⟨rfl, rfl, rfl, rfl⟩⟩
    · exact ⟨rfl, rfl, rfl, rfl, rfl, Or.inl rfl⟩

/-- Changes from an SFT that has them reach the other ones. -/
theorem Modification.inSft_told {m : Modification} {s : System} {i j : ℕ}
    (hi : m.inSft s.vol.dpb (s.sft i))
    (hj : m.inSft s.vol.dpb (s.sft j) ∨ ((s.sft i).fclean = false ∧ s.shareInstalled = true ∧
      j < s.total ∧ (closing s fnp i).sameFile j (s.sft j) = true)) :
    m.inSft s.vol.dpb ((told s fnp i).sft j) := by
  obtain ⟨-, -, -, -, hsize, hstart⟩ := closing_fields s fnp i
  have hnew : m.inSft s.vol.dpb { s.sft j with
      stclust := getdstart s.vol.dpb (closing s fnp i).dir
      size := (closing s fnp i).dir.size
      date := (closing s fnp i).dir.date
      time := (closing s fnp i).dir.time } := by
    refine ⟨hsize.trans hi.1, ?_⟩
    dsimp only
    rw [hstart, storedStart_idem]
    exact hi.2
  rw [told]
  rcases hj with hj | ⟨hclean, hshare, htotal, hsame⟩
  · split
    · exact hj
    · dsimp only [File.mergeFileChanges]
      split
      · exact hnew
      · exact hj
  · rw [if_neg (by rw [hclean]; exact Bool.false_ne_true)]
    dsimp only [File.mergeFileChanges]
    rw [if_pos (by simp [hshare, htotal, hsame])]
    exact hnew

theorem sameFile_iff {i : ℕ} {f : Sft} : fnp.sameFile i f = true ↔
    i ≠ fnp.sftIdx ∧ f.count ≠ 0 ∧ sftSeat f = seatOf fnp ∧ fnp.dir.attrib &&& dVolid = 0 ∧
      f.attrib &&& dVolid = 0 := by
  simp only [FNode.sameFile, Bool.and_eq_true, bne_iff_ne, beq_iff_eq, sftSeat, seatOf,
    Prod.mk.injEq]
  constructor
  · rintro ⟨⟨⟨⟨⟨⟨h1, h2⟩, h3⟩, h4⟩, h5⟩, h6⟩, h7⟩
    exact ⟨h1, h2, ⟨h3.symm, h7.symm, h6.symm⟩, h4, h5⟩
  · rintro ⟨h1, h2, ⟨h3, h7, h6⟩, h4, h5⟩
    exact ⟨⟨⟨⟨⟨⟨h1, h2⟩, h3.symm⟩, h4⟩, h5⟩, h6.symm⟩, h7.symm⟩

/-- The loop has come to SFT `i`; `m` is the modification that the SFTs know of. -/
structure Closing (s₀ : State) (p : Seat) (m : Modification) (fnp₀ : FNode) (i : ℕ) (s : State)
    (fnp : FNode) : Prop where
  total : s.sys.total = s₀.sys.total
  shareInstalled : s.sys.shareInstalled = true
  dpb : s.sys.vol.dpb = s₀.sys.vol.dpb
  disk : OnlyEntry p s₀.sys.vol.disk s.sys.vol.disk
  words : s.Words
  attrib : ∀ j, (s.sys.sft j).attrib = (s₀.sys.sft j).attrib
  fclean : ∀ j, (s.sys.sft j).fclean = (s₀.sys.sft j).fclean
  seats : ∀ j, sftSeat (s.sys.sft j) = sftSeat (s₀.sys.sft j)
  name : ∀ j, (s.sys.sft j).name = (s₀.sys.sft j).name
  rest : ∀ j, (s.rest j).fshared = (s₀.rest j).fshared ∧ (s.rest j).dev = (s₀.rest j).dev
  closed : ∀ j < i, s₀.finds p j → (s.sys.sft j).count = dec16 (s₀.sys.sft j).count
  kept : ∀ j, i ≤ j ∨ ¬ s₀.finds p j → (s.sys.sft j).count = (s₀.sys.sft j).count
  seat : seatOf fnp = p
  noVolid : fnp.dir.attrib &&& dVolid = 0
  sftIdx : fnp.sftIdx = 0xff
  fits : Dir.Fits fnp.dir
  /-- The fnode is as it was, or that of the last SFT that was closed. -/
  last : (fnp = fnp₀ ∧ ∀ j < i, ¬ s₀.finds p j) ∨
    ∃ l < i, s₀.finds p l ∧ (∀ j < i, s₀.finds p j → j ≤ l) ∧
      fnp.dir.attrib = (s₀.sys.sft l).attrib ∧ fnp.dir.name = (s₀.sys.sft l).name
  dirty : ∀ j, i ≤ j → s₀.finds p j → (s₀.sys.sft j).fclean = false →
    m.inSft s₀.sys.vol.dpb (s.sys.sft j)
  /-- The fnode knows of the modification, or an SFT still to come will tell. -/
  change : (m.inEntry s₀.sys.vol.dpb fnp.dir ∧
      ∀ j, i ≤ j → s₀.finds p j → m.inSft s₀.sys.vol.dpb (s.sys.sft j)) ∨
    ∃ j, i ≤ j ∧ s₀.finds p j ∧ (s₀.sys.sft j).fclean = false

variable {s₀ s : State} {p : Seat} {m : Modification} {fnp₀ : FNode} {i : ℕ}

/-- The loop finds an SFT exactly if it was there at the start. -/
theorem Closing.sameFile_iff (h : Closing s₀ p m fnp₀ i s fnp) (hi : i < s₀.sys.total) :
    fnp.sameFile i (s.sys.sft i) = true ↔ s₀.finds p i := by
  rw [Handle.sameFile_iff, h.seat, h.sftIdx, h.kept i (Or.inl (Nat.le_refl i)), h.attrib,
    h.seats, State.finds, State.openOn]
  have := h.noVolid
  tauto

/-- It passes over an SFT. -/
theorem Closing.skip (h : Closing s₀ p m fnp₀ i s fnp) (hno : ¬ s₀.finds p i) :
    Closing s₀ p m fnp₀ (i + 1) s fnp := by
  have hother : ∀ j < i + 1, s₀.finds p j → j < i := fun j hj hf =>
    Nat.lt_of_le_of_ne (Nat.le_of_lt_succ hj) fun heq => hno (heq ▸ hf)
  refine { h with
    closed := fun j hj hf => h.closed j (hother j hj hf) hf
    kept := fun j hj => h.kept j (hj.imp_left Nat.le_of_succ_le)
    last := ?_
    dirty := fun j hj => h.dirty j (Nat.le_of_succ_le hj)
    change := ?_ }
  · rcases h.last with ⟨heq, hnone⟩ | ⟨l, hl, hf, hmax, hattr⟩
    · exact Or.inl ⟨heq, fun j hj hf => hnone j (hother j hj hf) hf⟩
    · exact Or.inr ⟨l, Nat.lt_succ_of_lt hl, hf, fun j hj hfj => hmax j (hother j hj hfj) hfj, hattr⟩
  · rcases h.change with ⟨hm, hall⟩ | ⟨j, hj, hf, hd⟩
    · exact Or.inl ⟨hm, fun j hj => hall j (Nat.le_of_succ_le hj)⟩
    · exact Or.inr ⟨j, Nat.lt_of_le_of_ne hj fun heq => hno (heq ▸ hf), hf, hd⟩

theorem closing_fits {s : State} (hw : s.Words) (hf : Dir.Fits fnp.dir) (i : ℕ) :
    Dir.Fits (closing s.sys fnp i).dir := by
  have hinto : Dir.Fits (sftInto s.sys fnp i).dir := by
    refine ⟨hf.crtime, hf.crdate, hf.accdate, ?_, hw.sftTime i, hw.sftDate i,
      Nat.mod_lt _ (by decide), hw.size i⟩
    simp only [sftInto, setdstart]
    split
    · exact Nat.mod_lt _ (by decide)
    · exact hf.startHigh
  rw [closing]
  split
  · exact hinto
  · rw [Dir.FNode.stamp]
    split
    · exact hinto
    · exact ⟨hinto.crtime, hinto.crdate, hinto.accdate, hinto.startHigh, hw.time, hw.date,
        hinto.start, hinto.size⟩

/-- An SFT after a close, but for its count. -/
theorem HasClosedSft.sft {r : ℤ × FNode × State} (h : HasClosedSft s fnp i r) (j : ℕ) :
    ∃ n, r.2.2.sys.sft j = { (told s.sys fnp i).sft j with count := n } ∧
      n = if j = i then dec16 (s.sys.sft i).count else (s.sys.sft j).count := by
  by_cases hj : j = i
  · subst hj
    rw [if_pos rfl]
    exact ⟨_, h.self, congrArg dec16 (told_spec s.sys fnp j j).count⟩
  · rw [if_neg hj]
    refine ⟨_, ?_, rfl⟩
    rw [h.others j hj, ← (told_spec s.sys fnp i j).count]

theorem HasClosedSft.words {r : ℤ × FNode × State} (h : HasClosedSft s fnp i r) (hw : s.Words)
    (hf : Dir.Fits fnp.dir) : r.2.2.Words := by
  have hfits := closing_fits hw hf i
  have hall : ∀ j, (r.2.2.sys.sft j).count < 2 ^ 16 ∧ (r.2.2.sys.sft j).time < 2 ^ 16 ∧
      (r.2.2.sys.sft j).date < 2 ^ 16 ∧ (r.2.2.sys.sft j).size < 2 ^ 32 := by
    intro j
    obtain ⟨n, heq, hn⟩ := h.sft j
    have hcount : n < 2 ^ 16 := by
      rw [hn]
      split
      · exact Nat.mod_lt _ (by decide)
      · exact hw.count j
    rw [heq]
    refine ⟨hcount, ?_⟩
    rcases (told_spec s.sys fnp i j).change with heq | ⟨hsize, -, htime, hdate⟩
    · simp only [heq]
      exact ⟨hw.sftTime j, hw.sftDate j, hw.size j⟩
    · simp only [hsize, htime, hdate]
      exact ⟨hfits.time, hfits.date, hfits.size⟩
  exact ⟨fun j => (hall j).1, fun j => (hall j).2.1, fun j => (hall j).2.2.1,
    fun j => (hall j).2.2.2, by rw [h.time]; exact hw.time, by rw [h.date]; exact hw.date⟩

/-- **The loop closes an SFT.** -/
theorem Closing.close {k : Env} (h : Closing s₀ p m fnp₀ i s fnp) (hf : s₀.finds p i)
    (hfile : (s₀.rest i).fshared = false ∧ (s₀.rest i).dev = none)
    (hok : (closeSft k s fnp i).1 = success) :
    Closing s₀ p m fnp₀ (i + 1) (closeSft k s fnp i).2.2 (closeSft k s fnp i).2.1 := by
  have hkept := h.kept i (Or.inl (Nat.le_refl i))
  have hopen : s.isOpen i = true := by
    rw [State.isOpen, hkept, h.total]
    simp [hf.1.1, hf.1.2.1]
  have hrest := h.rest i
  have hs := closeSft_spec hopen (by rw [hrest.1, hrest.2]; exact hfile) hok
  generalize closeSft k s fnp i = r at hs ⊢
  obtain ⟨hidx, hseat, hattrib, hname, hsize, hstart⟩ := closing_fields s.sys fnp i
  have hold (j : ℕ) := told_spec s.sys fnp i j
  have hp : sftSeat (s.sys.sft i) = p := (h.seats i).trans hf.1.2.2
  have hfclean := h.fclean i
  have hsft (j : ℕ) : (r.2.2.sys.sft j).attrib = (s.sys.sft j).attrib ∧
      (r.2.2.sys.sft j).fclean = (s.sys.sft j).fclean ∧
      sftSeat (r.2.2.sys.sft j) = sftSeat (s.sys.sft j) ∧
      (r.2.2.sys.sft j).name = (s.sys.sft j).name ∧
      ((m.inSft s.sys.vol.dpb ((told s.sys fnp i).sft j)) →
        m.inSft s.sys.vol.dpb (r.2.2.sys.sft j)) := by
    obtain ⟨n, heq, -⟩ := hs.sft j
    rw [heq]
    exact ⟨(hold j).attrib, (hold j).fclean, (hold j).seat, (hold j).name, id⟩
  have hcount (j : ℕ) : (r.2.2.sys.sft j).count =
      if j = i then dec16 (s.sys.sft i).count else (s.sys.sft j).count := by
    obtain ⟨n, heq, hn⟩ := hs.sft j
    rw [heq]
    exact hn
  -- the other SFTs are told of what this one knows, if it has been written to
  have hnext : m.inSft s₀.sys.vol.dpb (s.sys.sft i) → ∀ j, i + 1 ≤ j → s₀.finds p j →
      m.inSft s₀.sys.vol.dpb (s.sys.sft j) ∨ (s₀.sys.sft i).fclean = false →
      m.inSft s₀.sys.vol.dpb (r.2.2.sys.sft j) := by
    intro hi j hj hfj hor
    rw [← h.dpb] at hi hor ⊢
    refine (hsft j).2.2.2.2 (Modification.inSft_told hi (hor.imp_right fun hd => ?_))
    refine ⟨hfclean.trans hd, h.shareInstalled, h.total ▸ hfj.1.1, ?_⟩
    rw [Handle.sameFile_iff, hidx, hseat, hattrib, h.kept j (Or.inl (Nat.le_of_succ_le hj)),
      h.seats, h.seats, h.attrib, h.attrib]
    exact ⟨Nat.ne_of_gt hj, hfj.1.2.1, hfj.1.2.2.trans hf.1.2.2.symm, hf.2.2, hfj.2.2⟩
  have hentry : m.inSft s₀.sys.vol.dpb (s.sys.sft i) → m.inEntry s₀.sys.vol.dpb r.2.1.dir := by
    intro hi
    rw [hs.fnode]
    rw [← h.dpb] at hi ⊢
    exact ⟨hsize.trans hi.1, hstart.trans hi.2⟩
  have hclean : (s₀.sys.sft i).fclean = true → (told s.sys fnp i) = s.sys := fun hc => by
    rw [told, hfclean, if_pos hc]
  refine
    { total := hs.total.trans h.total
      shareInstalled := hs.shareInstalled.trans h.shareInstalled
      dpb := hs.dpb.trans h.dpb
      disk := h.disk.trans (hp ▸ hs.disk)
      words := hs.words h.words h.fits
      attrib := fun j => (hsft j).1.trans (h.attrib j)
      fclean := fun j => (hsft j).2.1.trans (h.fclean j)
      seats := fun j => (hsft j).2.2.1.trans (h.seats j)
      name := fun j => (hsft j).2.2.2.1.trans (h.name j)
      rest := fun j => ⟨(hs.rest j).1.trans (h.rest j).1, (hs.rest j).2.trans (h.rest j).2⟩
      closed := fun j hj hfj => ?_
      kept := fun j hj => ?_
      seat := ?_
      noVolid := ?_
      sftIdx := by rw [hs.fnode]
      fits := ?_
      last := Or.inr ⟨i, Nat.lt_succ_self i, hf, fun j hj _ => Nat.le_of_lt_succ hj, ?_, ?_⟩
      dirty := ?_
      change := ?_ }
  · rw [hcount]
    split
    · rename_i hji
      rw [hji, hkept]
    · rename_i hji
      exact h.closed j (Nat.lt_of_le_of_ne (Nat.le_of_lt_succ hj) hji) hfj
  · have hji : j ≠ i := by
      rintro rfl
      rcases hj with hj | hj
      · exact absurd hj (Nat.not_succ_le_self j)
      · exact hj hf
    rw [hcount, if_neg hji]
    exact h.kept j (hj.imp_left Nat.le_of_succ_le)
  · rw [hs.fnode]
    exact hseat.trans hp
  · rw [hs.fnode]
    change (closing s.sys fnp i).dir.attrib &&& dVolid = 0
    rw [hattrib, h.attrib]
    exact hf.2.2
  · rw [hs.fnode]
    exact closing_fits h.words h.fits i
  · rw [hs.fnode]
    exact hattrib.trans (h.attrib i)
  · rw [hs.fnode]
    exact hname.trans (h.name i)
  · intro j hj hfj hd
    have hm := h.dirty j (Nat.le_of_succ_le hj) hfj hd
    by_cases hc : (s₀.sys.sft i).fclean = true
    · have hstays := (hsft j).2.2.2.2
      rw [hclean hc, h.dpb] at hstays
      exact hstays hm
    · have hdirty := Bool.eq_false_iff.mpr hc
      exact hnext (h.dirty i (Nat.le_refl i) hf hdirty) j hj hfj (Or.inl hm)
  · by_cases hc : (s₀.sys.sft i).fclean = true
    · rcases h.change with ⟨-, hall⟩ | ⟨j, hj, hfj, hd⟩
      · refine Or.inl ⟨hentry (hall i (Nat.le_refl i) hf), fun j hj hfj => ?_⟩
        exact hnext (hall i (Nat.le_refl i) hf) j hj hfj
          (Or.inl (hall j (Nat.le_of_succ_le hj) hfj))
      · refine Or.inr ⟨j, Nat.lt_of_le_of_ne hj ?_, hfj, hd⟩
        rintro rfl
        rw [hc] at hd
        exact Bool.false_ne_true hd.symm
    · have hdirty := Bool.eq_false_iff.mpr hc
      have hi := h.dirty i (Nat.le_refl i) hf hdirty
      exact Or.inl ⟨hentry hi, fun j hj hfj => hnext hi j hj hfj (Or.inr hdirty)⟩

/-- **The loop of `merge_file_changes`.** -/
theorem Closing.loop {k : Env} (hfiles : ∀ j, s₀.finds p j →
      (s₀.rest j).fshared = false ∧ (s₀.rest j).dev = none) {n : ℕ}
    (h : Closing s₀ p m fnp₀ i s fnp) (hn : i + n = s₀.sys.total)
    (hok : (closeLoop k n i fnp s).1 = success) :
    Closing s₀ p m fnp₀ s₀.sys.total (closeLoop k n i fnp s).2.2 (closeLoop k n i fnp s).2.1 := by
  induction n generalizing i s fnp with
  | zero =>
    rw [← hn]
    exact h
  | succ n ih =>
    have hiff := h.sameFile_iff (by omega)
    rw [closeLoop] at hok ⊢
    by_cases hf : s₀.finds p i
    · rw [if_pos (hiff.mpr hf)] at hok ⊢
      by_cases hc : (closeSft k s fnp i).1 = success
      · simp only [if_neg (not_not.mpr hc)] at hok ⊢
        exact ih (h.close hf (hfiles i hf) hc) (by omega) hok
      · simp only [if_pos hc] at hok
        exact absurd hok hc
    · rw [if_neg (mt hiff.mp hf)] at hok ⊢
      exact ih (h.skip hf) (by omega) hok

/-! ## The call -/

/-- The modification of the file that the system knows of: every SFT that has been written to has
it, and if there is none, so have all SFTs and the entry. -/
structure State.Recorded (s : State) (p : Seat) (m : Modification) : Prop where
  name : (entryAt s.sys.vol p.2).name = m.name ∧ ∀ j, s.finds p j → (s.sys.sft j).name = m.name
  dirty : ∀ j, s.finds p j → (s.sys.sft j).fclean = false →
    m.inSft s.sys.vol.dpb (s.sys.sft j)
  clean : (∀ j, s.finds p j → (s.sys.sft j).fclean = true) →
    m.inEntry s.sys.vol.dpb (entryAt s.sys.vol p.2) ∧
      ∀ j, s.finds p j → m.inSft s.sys.vol.dpb (s.sys.sft j)

/-- The entry has the attributes that were asked for and the last modification of the file, no SFT
is open on it, and nothing else has been written. -/
structure HasSet (s : State) (p : Seat) (m : Modification) (attrp : UInt16) (s' : State) : Prop where
  attrib : (entryAt s'.sys.vol p.2).attrib =
    (entryAt s.sys.vol p.2).attrib &&& (dVolid ||| dDir) ||| attrp.toUInt8
  name : (entryAt s'.sys.vol p.2).name = m.name
  change : m.inEntry s.sys.vol.dpb (entryAt s'.sys.vol p.2)
  closed : ∀ j, ¬ s'.openOn p j
  others : OnlyEntry p s.sys.vol.disk s'.sys.vol.disk

/-- The SFTs that are open on the file can all be closed, and the last one has these attributes. -/
def State.Settable (s : State) (p : Seat) (wanted : UInt8) : Prop :=
  (∀ j, s.openOn p j → j ≠ 0xff ∧ (s.sys.sft j).attrib &&& dVolid = 0 ∧ (s.sys.sft j).count = 1) ∧
    ∀ l, s.openOn p l → (∀ j, s.openOn p j → j ≤ l) → (s.sys.sft l).attrib = wanted

theorem newAttrib_noVolid {old : UInt8} {attrp : UInt16}
    (hold : old &&& ~~~(File.dRdonly ||| File.dArchive ||| dAll) = 0)
    (hattrp : attrp &&& (dVolid.toUInt16 ||| 0xc0) = 0) : newAttrib old attrp &&& dVolid = 0 := by
  have h1 : old &&& dVolid = 0 := by
    have : old &&& dVolid = old &&& ~~~(File.dRdonly ||| File.dArchive ||| dAll) &&& dVolid := by
      rw [UInt8.and_assoc]
      rfl
    rw [this, hold]
    rfl
  have h2 : attrp.toUInt8 &&& dVolid = 0 := by
    have := congrArg UInt16.toUInt8 hattrp
    rw [UInt16.toUInt8_and] at this
    have hmask : attrp.toUInt8 &&& dVolid =
        attrp.toUInt8 &&& (dVolid.toUInt16 ||| 0xc0).toUInt8 &&& dVolid := by
      rw [UInt8.and_assoc]
      rfl
    rw [hmask, this]
    rfl
  have hor : ∀ a b c : UInt8, (a ||| b) &&& c = (a &&& c) ||| (b &&& c) := fun a b c =>
    UInt8.toBitVec_inj.mp BitVec.and_or_distrib_right
  have hsub : (dVolid ||| dDir) &&& dVolid = dVolid := rfl
  rw [newAttrib, hor, UInt8.and_assoc, hsub, h1, h2]
  rfl

/-- What a call that succeeds has gone through. -/
theorem dosSetfattr_success {k : Env} {s : State} {fnode : FNode} {path : Path} {attrp : UInt16}
    {r : ℤ × FNode × Volume} (hr : findFname s.sys.vol fnode path dAll = r)
    (hshare : s.sys.shareInstalled = true)
    (hok : (dosSetfattr k s fnode path attrp).1 = success) :
    attrp &&& (dVolid.toUInt16 ||| 0xc0) = 0 ∧ r.1 = success ∧
      ∃ (fnp₀ : FNode) (s₁ : State) (m : ℤ × FNode × State),
        fnp₀ = { r.2.1 with dir := { r.2.1.dir with attrib := newAttrib r.2.1.dir.attrib attrp } } ∧
        s₁ = { s with sys := { s.sys with vol := r.2.2 } } ∧
        closeLoop k s.sys.total 0 fnp₀ s₁ = m ∧ m.1 = success ∧
        (dirWrite m.2.2.sys.vol m.2.1).1 = true ∧
        (dosSetfattr k s fnode path attrp).2 =
          { m.2.2 with sys := { m.2.2.sys with vol := (dirWrite m.2.2.sys.vol m.2.1).2 } } := by
  have hne : deAccess ≠ success := by decide
  rw [dosSetfattr, hr] at hok ⊢
  by_cases ha : attrp &&& (dVolid.toUInt16 ||| 0xc0) = 0
  · rw [if_neg (not_not.mpr ha)] at hok ⊢
    by_cases hrc : r.1 = success
    · simp only [hrc, ne_eq, not_true_eq_false, if_false, hshare, if_true] at hok ⊢
      by_cases hdir : ¬ attrp &&& dDir.toUInt16 = 0 ∧ r.2.1.dir.attrib &&& dDir = 0
      · rw [if_pos hdir] at hok
        exact absurd hok hne
      · rw [if_neg hdir] at hok ⊢
        refine ⟨ha, trivial, _, _, _, rfl, rfl, rfl, ?_⟩
        generalize closeLoop k s.sys.total 0 _ _ = m at hok ⊢
        by_cases hm : m.1 = success
        · rw [if_neg (not_not.mpr hm)] at hok ⊢
          refine ⟨hm, ?_, rfl⟩
          by_contra hw
          rw [if_neg hw] at hok
          exact hne hok
        · rw [if_pos hm] at hok
          exact absurd hok hm
    · simp only [ne_eq, hrc, not_false_eq_true, if_true] at hok
  · rw [if_pos ha] at hok
    exact absurd hok hne

/-- Before the loop. -/
theorem closing_start {s s₁ : State} {v : Volume} (hro : Dir.ReadOnly s.sys.vol v)
    (hs₁ : s₁ = { s with sys := { s.sys with vol := v } }) (hshare : s.sys.shareInstalled = true)
    (hw : s.Words) (hrec : s.Recorded p m) (hseat : seatOf fnp₀ = p) (hidx : fnp₀.sftIdx = 0xff)
    (hno : fnp₀.dir.attrib &&& dVolid = 0)
    (hdir : ∃ a, fnp₀.dir = { entryAt s.sys.vol p.2 with attrib := a }) :
    Closing s p m fnp₀ 0 s₁ fnp₀ := by
  obtain ⟨a, hdir⟩ := hdir
  have hfits := Dir.entryAt_fits s.sys.vol p.2
  subst hs₁
  refine
    { total := rfl
      shareInstalled := hshare
      dpb := hro.dpb
      disk := by dsimp only; rw [hro.disk]; exact OnlyEntry.refl _ _
      words := ⟨hw.count, hw.sftTime, hw.sftDate, hw.size, hw.time, hw.date⟩
      attrib := fun _ => rfl
      fclean := fun _ => rfl
      seats := fun _ => rfl
      name := fun _ => rfl
      rest := fun _ => ⟨rfl, rfl⟩
      closed := fun j hj => absurd hj (Nat.not_lt_zero j)
      kept := fun _ _ => rfl
      seat := hseat
      noVolid := hno
      sftIdx := hidx
      fits := ?_
      last := Or.inl ⟨rfl, fun j hj => absurd hj (Nat.not_lt_zero j)⟩
      dirty := fun j _ => hrec.dirty j
      change := ?_ }
  · rw [hdir]
    exact ⟨hfits.crtime, hfits.crdate, hfits.accdate, hfits.startHigh, hfits.time, hfits.date,
      hfits.start, hfits.size⟩
  · by_cases hall : ∀ j, s.finds p j → (s.sys.sft j).fclean = true
    · obtain ⟨hentry, hsfts⟩ := hrec.clean hall
      exact Or.inl ⟨by rw [hdir]; exact hentry, fun j _ => hsfts j⟩
    · push Not at hall
      obtain ⟨j, hj, hd⟩ := hall
      exact Or.inr ⟨j, Nat.zero_le j, hj, by simpa using hd⟩

/-- The SFTs that are open on the file afterwards were so before. -/
theorem Closing.openOn (h : Closing s₀ p m fnp₀ s₀.sys.total s fnp) {j : ℕ}
    (hj : s.openOn p j) : s₀.openOn p j := by
  obtain ⟨hlt, hcount, hseat⟩ := hj
  rw [h.total] at hlt
  refine ⟨hlt, fun h0 => hcount ?_, (h.seats j).symm.trans hseat⟩
  rw [h.kept j (Or.inr fun hf => hf.1.2.1 h0), h0]

/-- If they can all be closed, they are, and `fnode[0]` has the attributes of the last one. -/
theorem Closing.of_settable (h : Closing s₀ p m fnp₀ s₀.sys.total s fnp) {wanted : UInt8}
    (hset : s₀.Settable p wanted) (hnew : fnp₀.dir.attrib = wanted) :
    (∀ j, ¬ s.openOn p j) ∧ fnp.dir.attrib = wanted := by
  obtain ⟨hall, hlast⟩ := hset
  have hfinds : ∀ j, s₀.openOn p j → s₀.finds p j := fun j hj =>
    ⟨hj, (hall j hj).1, (hall j hj).2.1⟩
  refine ⟨fun j hj => ?_, ?_⟩
  · have hopen := h.openOn hj
    apply hj.2.1
    rw [h.closed j hopen.1 (hfinds j hopen), (hall j hopen).2.2]
    rfl
  · rcases h.last with ⟨heq, -⟩ | ⟨l, -, hf, hmax, hattrib, -⟩
    · rw [heq, hnew]
    · rw [hattrib]
      exact hlast l hf.1 fun j hj => hmax j hj.1 (hfinds j hj)

/-- If no SFT is open on the file any more, they could all be closed. -/
theorem Closing.settable (h : Closing s₀ p m fnp₀ s₀.sys.total s fnp) (hw : s₀.Words)
    (hclosed : ∀ j, ¬ s.openOn p j) : s₀.Settable p fnp.dir.attrib := by
  have hzero : ∀ j, s₀.openOn p j → (s.sys.sft j).count = 0 := fun j hj => by
    by_contra hne
    exact hclosed j ⟨by rw [h.total]; exact hj.1, hne, (h.seats j).trans hj.2.2⟩
  have hfinds : ∀ j, s₀.openOn p j → s₀.finds p j := fun j hj => by
    by_contra hno
    exact hj.2.1 ((h.kept j (Or.inr hno)).symm.trans (hzero j hj))
  refine ⟨fun j hj => ⟨(hfinds j hj).2.1, (hfinds j hj).2.2, ?_⟩, fun l hl hmax => ?_⟩
  · have hdec := (h.closed j hj.1 (hfinds j hj)).symm.trans (hzero j hj)
    have hlt := hw.count j
    have hpos := hj.2.1
    rw [dec16] at hdec
    omega
  · rcases h.last with ⟨-, hnone⟩ | ⟨l', -, hf, hmax', hattrib, -⟩
    · exact absurd (hfinds l hl) (hnone l hl.1)
    · rw [hattrib, Nat.le_antisymm (hmax' l hl.1 (hfinds l hl)) (hmax l' hf.1)]

/-- **`dos_setfattr` sets the attributes of a file and closes it** exactly if no SFT is open on the
file, or each of them has one reference and the last one has these attributes already. -/
theorem setfattr_iff {k : Env} {s : State} {fnode : FNode} {path : Path} {attrp : UInt16} {p : Seat}
    {m : Modification} (hshare : s.sys.shareInstalled = true) (hw : s.Words)
    (hp : seatOf (findFname s.sys.vol fnode path dAll).2.1 = p)
    (hfiles : ∀ j, s.finds p j → (s.rest j).fshared = false ∧ (s.rest j).dev = none)
    (hrec : s.Recorded p m) (hok : (dosSetfattr k s fnode path attrp).1 = success) :
    HasSet s p m attrp (dosSetfattr k s fnode path attrp).2 ↔
      s.Settable p (newAttrib (entryAt s.sys.vol p.2).attrib attrp) := by
  have hspec := Dir.findFname_spec s.sys.vol fnode path dAll
  generalize hr : findFname s.sys.vol fnode path dAll = r at hspec hp
  obtain ⟨hattrp, hfound, fnp₀, s₁, l, hfnp₀, hs₁, hloop, hl, hwrite, hres⟩ :=
    dosSetfattr_success hr hshare hok
  rw [hres]
  -- the entry that has been found
  obtain ⟨place, hat, hstands, hfinds⟩ : ∃ place, Dir.At s.sys.vol place r.2.1 ∧
      r.2.1.sftIdx = 0xff ∧
      (entryAt s.sys.vol place).attrib &&& ~~~(File.dRdonly ||| File.dArchive ||| dAll) = 0 := by
    obtain ⟨-, -, t, -, hst, -, ⟨-, place, -, hat, hfinds⟩ | ⟨hrc, -⟩⟩ | ⟨hrc, -⟩ := hspec.result
    · have hstop := hfinds.meets
      rw [Dir.found, Bool.and_eq_true, beq_iff_eq, beq_iff_eq] at hstop
      exact ⟨place, hat, hst.sftIdx, hstop.2⟩
    · exact absurd (hfound.symm.trans hrc) (by decide)
    · exact absurd (hfound.symm.trans hrc) (by decide)
  have hplace : place = p.2 := by rw [← hat.seat, ← hp]; rfl
  subst hplace
  have hnew : fnp₀.dir.attrib = newAttrib (entryAt s.sys.vol p.2).attrib attrp := by
    rw [hfnp₀, ← hat.dir]
  have hstart : Closing s p m fnp₀ 0 s₁ fnp₀ := by
    refine closing_start hspec.readOnly hs₁ hshare hw hrec ?_ ?_ ?_ ?_
    · rw [hfnp₀]; exact hp
    · rw [hfnp₀]; exact hstands
    · rw [hnew]
      exact newAttrib_noVolid hfinds hattrp
    · exact ⟨_, by rw [hfnp₀, ← hat.dir]⟩
  have hend : Closing s p m fnp₀ s.sys.total l.2.2 l.2.1 := by
    rw [← hloop]
    exact hstart.loop hfiles (Nat.zero_add _) (by rw [hloop]; exact hl)
  -- the entry that is written
  generalize hw' : dirWrite l.2.2.sys.vol l.2.1 = w at hwrite
  have hwritten := Dir.dirWrite_spec l.2.2.sys.vol l.2.1
  rw [hw'] at hwritten
  have hdisk := hwritten.disk
  rw [if_pos (hwritten.result hwrite)] at hdisk
  have hentry : entryAt w.2 p.2 = l.2.1.dir := by
    refine Dir.entryAt_put (v := l.2.2.sys.vol) hend.fits ?_
    rw [hdisk, ← hend.seat]
    rfl
  have hopen (j : ℕ) : State.openOn { l.2.2 with sys := { l.2.2.sys with vol := w.2 } } p j ↔
      l.2.2.openOn p j := Iff.rfl
  constructor
  · intro hset
    have hattrib : l.2.1.dir.attrib = newAttrib (entryAt s.sys.vol p.2).attrib attrp := by
      rw [← hentry]
      exact hset.attrib
    rw [← hattrib]
    exact hend.settable hw fun j hj => hset.closed j ((hopen j).mpr hj)
  · intro hset
    obtain ⟨hclosed, hattrib⟩ := hend.of_settable hset hnew
    refine ⟨?_, ?_, ?_, fun j hj => hclosed j ((hopen j).mp hj), ?_⟩
    · dsimp only
      rw [hentry, hattrib, newAttrib]
    · dsimp only
      rw [hentry]
      rcases hend.last with ⟨heq, -⟩ | ⟨j, -, hf, -, -, hname⟩
      · rw [heq, hfnp₀, ← hrec.name.1, ← hat.dir]
      · rw [hname, hrec.name.2 j hf]
    · dsimp only
      rw [hentry]
      obtain ⟨hm, -⟩ | ⟨j, hj, hf, -⟩ := hend.change
      · exact hm
      · exact absurd hf.1.1 (Nat.not_lt.mpr hj)
    · refine hend.disk.trans ?_
      dsimp only
      have hframe := (dirWriteUpdate_frame l.2.2.sys.vol l.2.1 false).2
      rw [hend.seat] at hframe
      rw [← hw']
      exact hframe

/-! ## A file that is open -/

/-- `A:\F` -/
def pathRootF : Path := [0x41, 0x3a, 0x5c, 0x46]

/-- The file `F` of one byte is the first entry of the root directory, and SFT 0 is open on it, with
one byte more if it has been written to. -/
def openF (fclean : Bool) : State where
  sys := File.smallSystem
    { File.smallVolume (fun c => if c = 3 then 0xfff else 0) [] with
      disk := Dir.putBytes (fun _ _ => 0) 7 0
        { Dir.initDirentry File.dArchive 3 Dir.nameF 0 0 with size := 1 }.bytes }
    { File.smallSft 3 (if fclean then 1 else 2) 0 0 3 with name := Dir.nameF, fclean := fclean }
    zeroSft
  rest := fun _ => ⟨false, none, -1, 0⟩
  share := Share.initTables 1 1
  jft := fun p => if p = 0 then [0, 0xff] else []
  cuPsp := 0

/-- What SFT 0 knows of the file. -/
def sizeF (fclean : Bool) : Modification := ⟨Dir.nameF, if fclean then 1 else 2, 3⟩

theorem openF_words (fclean : Bool) : (openF fclean).Words := by
  have hall : ∀ i, ((openF fclean).sys.sft i).count < 2 ^ 16 ∧
      ((openF fclean).sys.sft i).time < 2 ^ 16 ∧ ((openF fclean).sys.sft i).date < 2 ^ 16 ∧
      ((openF fclean).sys.sft i).size < 2 ^ 32 := by
    intro i
    simp only [openF, File.smallSystem]
    split <;> cases fclean <;> decide
  exact ⟨fun i => (hall i).1, fun i => (hall i).2.1, fun i => (hall i).2.2.1,
    fun i => (hall i).2.2.2, Nat.two_pow_pos 16, Nat.two_pow_pos 16⟩

theorem openF_openOn {fclean : Bool} {j : ℕ} (h : (openF fclean).openOn (0, 7, 0) j) : j = 0 := by
  by_contra hne
  exact h.2.1 (by simp [openF, File.smallSystem, hne, zeroSft])

theorem openF_recorded (fclean : Bool) : (openF fclean).Recorded (0, 7, 0) (sizeF fclean) := by
  have h0 : ∀ j, (openF fclean).finds (0, 7, 0) j → j = 0 := fun j hj => openF_openOn hj.1
  have hsft : (sizeF fclean).inSft (openF fclean).sys.vol.dpb ((openF fclean).sys.sft 0) := by
    cases fclean <;> exact ⟨rfl, by decide +kernel⟩
  refine ⟨⟨?_, fun j hj => ?_⟩, fun j hj _ => ?_, fun hall => ⟨?_, fun j hj => ?_⟩⟩
  · cases fclean <;> decide +kernel
  · rw [h0 j hj]
    rfl
  · rw [h0 j hj]
    exact hsft
  · cases fclean with
    | true => exact ⟨by decide +kernel, by decide +kernel⟩
    | false =>
      exact absurd (hall 0 ⟨⟨by decide, by decide, rfl⟩, by decide, by decide⟩) (by decide)
  · rw [h0 j hj]
    exact hsft

/-- The file has been written to, and its attributes stay as they are. -/
theorem setfattr_iff_openF :
    HasSet (openF false) (0, 7, 0) (sizeF false) 0x20
      (dosSetfattr (auxEnv true) (openF false) Dir.smallFNode pathRootF 0x20).2 :=
  (setfattr_iff rfl (openF_words false) (by decide +kernel)
    (fun _ _ => ⟨rfl, rfl⟩) (openF_recorded false) (by decide +kernel)).mpr
    ⟨fun j hj => by rw [openF_openOn hj]; decide, fun l hl _ => by
      rw [openF_openOn hl]
      decide +kernel⟩

/-- A file that is open, and has not been written to, does not become read-only. -/
theorem openF_not_set : ¬ ∀ (k : Env) (s : State) (fnode : FNode) (path : Path) (attrp : UInt16)
    (p : Seat) (m : Modification), s.sys.shareInstalled = true → s.Words →
    seatOf (findFname s.sys.vol fnode path dAll).2.1 = p →
    (∀ j, s.finds p j → (s.rest j).fshared = false ∧ (s.rest j).dev = none) →
    s.Recorded p m → (dosSetfattr k s fnode path attrp).1 = success →
    HasSet s p m attrp (dosSetfattr k s fnode path attrp).2 := by
  intro h
  have hset := h (auxEnv true) (openF true) Dir.smallFNode pathRootF 1 (0, 7, 0) (sizeF true) rfl
    (openF_words true) (by decide +kernel) (fun _ _ => ⟨rfl, rfl⟩) (openF_recorded true)
    (by decide +kernel)
  have hattrib := hset.attrib
  revert hattrib
  decide +kernel

end Handle
end BurdahDos
