import BurdahDos.Shell.Complete
import Mathlib

/-!
# Removing a directory with all that is in it

`recursive_rmdir` and `rmdir_withfiles` of `portal/cmd/rmdir.c`, without DBCS and without support
for long file names in the system.  All the levels of the recursion build their paths in one buffer.
`removeDir` is the same without the buffer: it goes through lists of components, and notes the room
that each path takes.

* `rmdirWithfiles_agrees`: the two do the same as long as the paths have room.
* `recursiveRmdir_iff`: nothing is stored behind the buffer, only what is in the directory is
  deleted, and 0 means that all of it is gone, if and only if the paths that it comes to have room.
* `needs_le`: they have when no path has more than 517 characters.
* `deep_path_overflows`: a directory whose path has 522.
-/

set_option autoImplicit false

namespace BurdahDos
namespace Shell
namespace Rmdir

open CString Words

/-! ## The disk -/

/-- A path as a list: the drive with its colon, and the names. -/
abbrev Path := List Str

/-- A file or a directory. -/
structure Entry where
  path : Path
  attrib : UInt8

def Entry.isDir (e : Entry) : Bool := e.attrib &&& faDirec != 0

/-- A path with backslashes between its components. -/
def spell (path : Path) : Str := [92].intercalate path

/-- The components of a path. -/
def resolve (s : Str) : Path := (s.splitOn 92).filter (· ≠ [])

/-- What the deletion works with: the disk, whether the calls to delete something fail, whether
there is memory, and the paths that `unlink` and `rmdir` have been called for. -/
structure World where
  disk : List Entry
  failing : List Bool
  mallocs : List Bool
  calls : List Str

/-- The entries in a directory. -/
def children (disk : List Entry) (dir : Path) : List Entry :=
  disk.filter fun e => e.path ≠ [] ∧ e.path.dropLast = dir

/-- What `dos_findfirst` and `dos_findnext` find for all names in a directory: a mask without
`FA_DIREC` excludes directories, and hidden and system files are not found. -/
def found (disk : List Entry) (dir : Path) (mask : UInt8) : List Ffblk :=
  (if dir.length > 1 ∧ mask = faDirec then [⟨[46], faDirec⟩, ⟨[46, 46], faDirec⟩] else []) ++
    ((children disk dir).filter fun e => e.attrib &&& 0x1e &&& ~~~ mask = 0).map fun e =>
      ⟨e.path.getLastD [], e.attrib⟩

/-- The same for a pattern that ends with `*.*`. -/
def findAll (disk : List Entry) (pattern : Str) (mask : UInt8) : List Ffblk :=
  found disk (resolve (upToLast (· == 92) pattern)) mask

/-- A call to delete what `p` says, which may fail. -/
def World.delete (w : World) (s : Str) (p : Entry → Bool) : Bool × World :=
  let (fails, failing) := ask false w.failing
  let w := { w with failing := failing, calls := w.calls ++ [s] }
  if fails ∨ !w.disk.any p then (false, w) else (true, { w with disk := w.disk.filter (!p ·) })

/-- `unlink` -/
def World.unlink (w : World) (s : Str) : Bool × World :=
  w.delete s fun e => e.path == resolve s && !e.isDir

/-- `rmdir`, which removes an empty directory. -/
def World.rmdir (w : World) (s : Str) : Bool × World :=
  w.delete s fun e => e.path == resolve s && e.isDir && (children w.disk (resolve s)).isEmpty

/-- `malloc` -/
def World.malloc (w : World) : Bool × World :=
  let (ok, mallocs) := ask true w.mallocs
  (ok, { w with mallocs := mallocs })

/-! ## The functions -/

/-- `E_Other` and `E_NoMem` -/
def eOther : ℤ := 2
def eNoMem : ℤ := 4

/-- `*.*` -/
def starDotStar : Str := [42, 46, 42]

/-- The loop over the directories, with the call of `rmdir_withfiles`. -/
def dirLoop (rmdirWithfiles : Bytes → World → Option (ℤ × Bytes × World)) (maxlen len p : ℕ) :
    List Ffblk → Bytes → World → Option (ℤ × Bytes × World)
  | [], path, w => some (0, path, w)
  | f :: fs, path, w =>
    if isDots f.ffName then dirLoop rmdirWithfiles maxlen len p fs path w
    else if f.ffAttrib &&& faDirec ≠ 0 then
      if len + f.ffName.length > maxlen then some (eOther, path, w)
      else
        (strcpy path p f.ffName).bind fun path =>
        (rmdirWithfiles path w).bind fun (ret, path, w) =>
          if ret ≠ 0 then some (ret, path, w)
          else dirLoop rmdirWithfiles maxlen len p fs path w
    else dirLoop rmdirWithfiles maxlen len p fs path w

/-- The loop over the files. -/
def fileLoop (maxlen len p : ℕ) : List Ffblk → Bytes → World → Option (Bytes × World)
  | [], path, w => some (path, w)
  | f :: fs, path, w =>
    if len + f.ffName.length > maxlen then some (path, w)
    else
      (strcpy path p f.ffName).bind fun path =>
      (str path 0).bind fun s => fileLoop maxlen len p fs path (w.unlink s).2

/-- `*p++ = '\\'`, unless there is one. -/
def endBackslash (path : Bytes) (len : ℕ) : Option (Bytes × ℕ) :=
  if len = 0 then none
  else
    match path[len - 1]? with
    | none => none
    | some c => if c ≠ 92 then (store path len 92).map (·, len + 1) else some (path, len)

/-- The start of `rmdir_withfiles`: the pattern for all that is in the directory. -/
def enterDir (path : Bytes) (len : ℕ) : Option (Bytes × ℕ) :=
  (endBackslash path len).bind fun (path, p) =>
  (store path p 0).bind fun path => (strcpy path p starDotStar).map (·, p)

/-- The end of `rmdir_withfiles`: the files, and the directory itself. -/
def leaveDir (maxlen len p : ℕ) (path : Bytes) (w : World) : Option (ℤ × Bytes × World) :=
  (strcpy path p starDotStar).bind fun path =>
  (str path 0).bind fun pattern =>
  (fileLoop maxlen len p (findAll w.disk pattern 0) path w).bind fun (path, w) =>
  (store path (p - 1) 0).bind fun path =>
  (str path 0).map fun s =>
    let (ok, w) := w.rmdir s
    (if ok then 0 else -1, path, w)

/-- `rmdir_withfiles` -/
def rmdirWithfiles (maxlen : ℕ) : ℕ → Bytes → World → Option (ℤ × Bytes × World)
  | 0, _, _ => none
  | fuel + 1, path, w =>
    (str path 0).bind fun s =>
    (enterDir path s.length).bind fun (path, p) =>
    let (ok, w) := w.malloc
    if !ok then some (eNoMem, path, w)
    else
      (str path 0).bind fun pattern =>
      (dirLoop (rmdirWithfiles maxlen fuel) maxlen s.length p (findAll w.disk pattern faDirec)
        path w).bind fun (ret, path, w) =>
        if ret ≠ 0 then some (ret, path, w) else leaveDir maxlen s.length p path w

/-- The number of levels that a disk can have. -/
def depth (disk : List Entry) : ℕ := (disk.map (·.path.length)).foldr max 0

/-- `sizeof(fullname)` -/
def fullnameSize : ℕ := 260 + 260 + 2

/-- What the deletion returns and leaves, and the room that the paths take that it comes to. -/
structure Removed where
  ret : ℤ
  world : World
  needs : List ℕ

/-- The directories are removed. -/
def removeDirs (removeDir : Path → World → Option Removed) (maxlen len : ℕ) (dir : Path) :
    List Ffblk → World → Option Removed
  | [], w => some ⟨0, w, []⟩
  | f :: fs, w =>
    if isDots f.ffName ∨ f.ffAttrib &&& faDirec = 0 then removeDirs removeDir maxlen len dir fs w
    else if len + f.ffName.length > maxlen then some ⟨eOther, w, []⟩
    else
      (removeDir (dir ++ [f.ffName]) w).bind fun r =>
        let needs := ((spell dir).length + f.ffName.length + 2) :: r.needs
        if r.ret ≠ 0 then some ⟨r.ret, r.world, needs⟩
        else (removeDirs removeDir maxlen len dir fs r.world).map fun r' =>
          ⟨r'.ret, r'.world, needs ++ r'.needs⟩

/-- The files are deleted. -/
def removeFiles (maxlen len : ℕ) (dir : Path) : List Ffblk → World → World × List ℕ
  | [], w => (w, [])
  | f :: fs, w =>
    if len + f.ffName.length > maxlen then (w, [])
    else
      let (w, needs) := removeFiles maxlen len dir fs (w.unlink (spell (dir ++ [f.ffName]))).2
      (w, ((spell dir).length + f.ffName.length + 2) :: needs)

/-- The files are deleted, and at last the directory itself. -/
def removeRest (maxlen len : ℕ) (dir : Path) (w : World) : Removed :=
  let (w, needs) := removeFiles maxlen len dir (found w.disk dir 0) w
  let (ok, w) := w.rmdir (spell dir)
  { ret := if ok then 0 else -1, world := w, needs := needs }

/-- A directory is removed: the directories in it, up to the first one that is not removed, and then
the rest. -/
def removeDir (maxlen : ℕ) : ℕ → ℕ → Path → World → Option Removed
  | 0, _, _, _ => none
  | fuel + 1, len, dir, w =>
    let (ok, w) := w.malloc
    if !ok then some ⟨eNoMem, w, [(spell dir).length + 5]⟩
    else
      (removeDirs (fun sub w => removeDir maxlen fuel (spell sub).length sub w) maxlen len dir
        (found w.disk dir faDirec) w).map fun r : Removed =>
        let last := if r.ret ≠ 0 then ⟨r.ret, r.world, []⟩ else removeRest maxlen len dir r.world
        ⟨last.ret, last.world, ((spell dir).length + 5) :: r.needs ++ last.needs⟩

/-! ## Paths -/

/-- The characters of a name. -/
structure ValidName (name : Str) : Prop where
  ne_nil : name ≠ []
  backslash : 92 ∉ name
  nul : 0 ∉ name
  dots : isDots name = false

/-- A path from a drive on. -/
structure ValidPath (path : Path) : Prop where
  ne_nil : path ≠ []
  names : ∀ n ∈ path, ValidName n

/-- The entries of a disk: each is in a directory, and no path stands twice. -/
structure WellFormed (disk : List Entry) : Prop where
  paths : ∀ e ∈ disk, ValidPath e.path
  length : ∀ e ∈ disk, 1 < e.path.length
  parents : ∀ e ∈ disk, 2 < e.path.length → ∃ d ∈ disk, d.isDir = true ∧ d.path = e.path.dropLast
  distinct : disk.Pairwise fun e d => e.path ≠ d.path

variable {dir sub : Path} {name s : Str} {disk : List Entry} {e : Entry} {w w' : World}
  {maxlen len fuel : ℕ} {b : Bytes} {mask : UInt8}

theorem spell_concat (h : dir ≠ []) (name : Str) :
    spell (dir ++ [name]) = spell dir ++ 92 :: name := by
  induction dir with
  | nil => exact absurd rfl h
  | cons c dir ih =>
    cases dir with
    | nil => simp [spell, List.intercalate]
    | cons d dir =>
      have hrest := ih (List.cons_ne_nil d dir)
      simp only [spell, List.intercalate, List.cons_append, List.intersperse_cons_cons,
        List.flatten_cons] at hrest ⊢
      rw [hrest]
      simp

theorem ValidPath.concat (h : ValidPath dir) (hname : ValidName name) :
    ValidPath (dir ++ [name]) where
  ne_nil := by simp
  names n hn := by
    rcases List.mem_append.mp hn with hold | hnew
    · exact h.names n hold
    · rwa [List.mem_singleton.mp hnew]

theorem ValidPath.nul (h : ValidPath dir) : 0 ∉ spell dir := by
  induction dir using List.reverseRecOn with
  | nil => exact absurd rfl h.ne_nil
  | append_singleton front name ih =>
    have hname := (h.names name (by simp)).nul
    rcases eq_or_ne front [] with rfl | hfront
    · simpa [spell, List.intercalate] using hname
    · rw [spell_concat hfront]
      intro hmem
      rcases List.mem_append.mp hmem with hold | hnew
      · exact ih ⟨hfront, fun n hn => h.names n (List.mem_append_left _ hn)⟩ hold
      · rcases List.mem_cons.mp hnew with hzero | hin
        · exact absurd hzero (by decide)
        · exact hname hin

/-- A path does not end with a backslash. -/
theorem ValidPath.last (h : ValidPath dir) : ∃ s c, spell dir = s ++ [c] ∧ c ≠ 92 := by
  rcases List.eq_nil_or_concat dir with rfl | ⟨front, name, rfl⟩
  · exact absurd rfl h.ne_nil
  · rw [List.concat_eq_append] at *
    have hname := h.names name (by simp)
    obtain ⟨t, c, ht⟩ : ∃ t c, name = t ++ [c] := by
      rcases List.eq_nil_or_concat name with rfl | ⟨t, c, rfl⟩
      · exact absurd rfl hname.ne_nil
      · exact ⟨t, c, List.concat_eq_append ..⟩
    have hc : c ≠ 92 := by
      rintro rfl
      exact hname.backslash (ht ▸ by simp)
    rcases eq_or_ne front [] with rfl | hfront
    · exact ⟨t, c, by simp [spell, List.intercalate, ht], hc⟩
    · exact ⟨spell front ++ 92 :: t, c, by rw [spell_concat hfront, ht]; simp, hc⟩

/-- A call to delete something. -/
theorem delete_cases (w : World) (s : Str) (p : Entry → Bool) :
    (w.delete s p).2.calls = w.calls ++ [s] ∧
      ((w.delete s p).1 = false ∧ (w.delete s p).2.disk = w.disk ∨
        (w.delete s p).1 = true ∧ w.disk.any p = true ∧
          (w.delete s p).2.disk = w.disk.filter (!p ·)) := by
  rw [World.delete]
  dsimp only
  split
  · exact ⟨rfl, Or.inl ⟨rfl, rfl⟩⟩
  · rename_i hok
    rw [not_or] at hok
    exact ⟨rfl, Or.inr ⟨rfl, by simpa using hok.2, rfl⟩⟩

theorem mem_children : e ∈ children disk dir ↔ e ∈ disk ∧ e.path ≠ [] ∧ e.path.dropLast = dir := by
  rw [children, List.mem_filter, decide_eq_true_eq]

/-- Entries are deleted that nothing is in. -/
theorem WellFormed.filter (h : WellFormed disk) {p : Entry → Bool}
    (hp : ∀ d ∈ disk, p d = true → d.isDir = true → children disk d.path = []) :
    WellFormed (disk.filter (!p ·)) where
  paths e he := h.paths e (List.mem_of_mem_filter he)
  length e he := h.length e (List.mem_of_mem_filter he)
  distinct := h.distinct.sublist List.filter_sublist
  parents e he hlen := by
    have hmem := List.mem_of_mem_filter he
    obtain ⟨d, hd, hdir, hpath⟩ := h.parents e hmem hlen
    refine ⟨d, List.mem_filter.mpr ⟨hd, ?_⟩, hdir, hpath⟩
    rw [Bool.not_eq_true', ← Bool.not_eq_true]
    intro hpd
    have hchild : e ∈ children disk d.path :=
      mem_children.mpr ⟨hmem, (h.paths e hmem).ne_nil, hpath.symm⟩
    rw [hp d hd hpd hdir] at hchild
    exact List.not_mem_nil hchild

/-- Only what is in a directory is deleted, and the directory itself. -/
structure Within (dir : Path) (w w' : World) : Prop where
  wellFormed : WellFormed w.disk → WellFormed w'.disk
  disk : w'.disk ⊆ w.disk
  calls : ∃ extra, w'.calls = w.calls ++ extra ∧ ∀ s ∈ extra, ∃ q, dir <+: q ∧ s = spell q

theorem Within.refl (dir : Path) (w : World) : Within dir w w :=
  ⟨id, List.Subset.refl _, [], (List.append_nil _).symm, fun _ hs => absurd hs List.not_mem_nil⟩

theorem Within.trans {w'' : World} (h : Within dir w w') (h' : Within dir w' w'') :
    Within dir w w'' := by
  obtain ⟨extra, hextra, hin⟩ := h.calls
  obtain ⟨extra', hextra', hin'⟩ := h'.calls
  refine ⟨h'.wellFormed ∘ h.wellFormed, List.Subset.trans h'.disk h.disk, extra ++ extra', ?_, ?_⟩
  · rw [hextra', hextra, List.append_assoc]
  · intro s hs
    exact (List.mem_append.mp hs).elim (hin s) (hin' s)

theorem Within.mono (h : Within sub w w') (hpre : dir <+: sub) : Within dir w w' := by
  obtain ⟨extra, hextra, hin⟩ := h.calls
  refine ⟨h.wellFormed, h.disk, extra, hextra, fun s hs => ?_⟩
  obtain ⟨q, hq, rfl⟩ := hin s hs
  exact ⟨q, hpre.trans hq, rfl⟩

theorem within_delete (hpre : dir <+: sub) {p : Entry → Bool} (hp : WellFormed w.disk →
    ∀ d ∈ w.disk, p d = true → d.isDir = true → children w.disk d.path = []) :
    Within dir w (w.delete (spell sub) p).2 := by
  obtain ⟨hcalls, hcase⟩ := delete_cases w (spell sub) p
  have hin : ∀ s ∈ [spell sub], ∃ q, dir <+: q ∧ s = spell q := by
    intro s hs
    exact ⟨sub, hpre, List.mem_singleton.mp hs⟩
  rcases hcase with ⟨-, hdisk⟩ | ⟨-, -, hdisk⟩
  · exact ⟨fun h => hdisk ▸ h, hdisk ▸ List.Subset.refl _, _, hcalls, hin⟩
  · refine ⟨fun h => ?_, ?_, _, hcalls, hin⟩
    · rw [hdisk]
      exact h.filter (hp h)
    · rw [hdisk]
      exact List.filter_subset_self _

theorem within_unlink (hpre : dir <+: sub) : Within dir w (w.unlink (spell sub)).2 := by
  refine within_delete hpre fun _ d _ hd hdir => ?_
  rw [hdir] at hd
  simp at hd

theorem within_rmdir (hpre : dir <+: sub) : Within dir w (w.rmdir (spell sub)).2 := by
  refine within_delete hpre fun _ d _ hd _ => ?_
  rw [Bool.and_eq_true, Bool.and_eq_true, beq_iff_eq, List.isEmpty_iff] at hd
  rw [hd.1.1, hd.2]

theorem within_malloc (dir : Path) (w : World) : Within dir w w.malloc.2 :=
  ⟨id, List.Subset.refl _, [], (List.append_nil _).symm, fun _ hs => absurd hs List.not_mem_nil⟩

theorem removeFiles_within : ∀ {fs : List Ffblk} {w : World},
    Within dir w (removeFiles maxlen len dir fs w).1 := by
  intro fs
  induction fs with
  | nil => exact fun {w} => Within.refl dir w
  | cons f fs ih =>
    intro w
    rw [removeFiles]
    split
    · exact Within.refl dir w
    · exact (within_unlink (List.prefix_append _ _)).trans ih

theorem removeDirs_within {remove : Path → World → Option Removed}
    (hremove : ∀ {sub w r}, remove sub w = some r → Within sub w r.world) :
    ∀ {fs : List Ffblk} {w : World} {r : Removed}, removeDirs remove maxlen len dir fs w = some r →
      Within dir w r.world := by
  intro fs
  induction fs with
  | nil =>
    intro w r h
    cases h
    exact Within.refl dir w
  | cons f fs ih =>
    intro w r h
    rw [removeDirs] at h
    split at h
    · exact ih h
    · split at h
      · cases h
        exact Within.refl dir w
      · obtain ⟨r₁, h₁, hrest⟩ := Option.bind_eq_some_iff.mp h
        have hsub := (hremove h₁).mono (List.prefix_append dir [f.ffName])
        dsimp only at hrest
        split at hrest
        · cases hrest
          exact hsub
        · obtain ⟨r₂, h₂, rfl⟩ := Option.map_eq_some_iff.mp hrest
          have hfiles : Within dir r₁.world r₂.world := ih h₂
          exact hsub.trans hfiles

theorem removeRest_within : Within dir w (removeRest maxlen len dir w).world :=
  removeFiles_within.trans (within_rmdir List.prefix_rfl)

/-- Only what is in the directory is deleted. -/
theorem removeDir_within : ∀ {fuel len : ℕ} {dir : Path} {w : World} {r : Removed},
    removeDir maxlen fuel len dir w = some r → Within dir w r.world := by
  intro fuel
  induction fuel with
  | zero => exact fun h => nomatch h
  | succ fuel ih =>
    intro len dir w r h
    rw [removeDir] at h
    dsimp only at h
    split at h
    · cases h
      exact within_malloc dir w
    · obtain ⟨r₁, h₁, rfl⟩ := Option.map_eq_some_iff.mp h
      have hdirs := (within_malloc dir w).trans (removeDirs_within (fun h => ih h) h₁)
      dsimp only
      split
      · exact hdirs
      · exact hdirs.trans removeRest_within

/-- Below a path there is an entry that is in it. -/
theorem WellFormed.child (h : WellFormed disk) (hdir : dir ≠ []) : ∀ {n : ℕ} {e : Entry},
    e ∈ disk → e.path.length = n → dir <+: e.path → dir ≠ e.path → children disk dir ≠ [] := by
  intro n
  induction n with
  | zero =>
    intro e he hlen
    have hlong := h.length e he
    omega
  | succ n ih =>
    intro e he hlen hpre hne
    obtain ⟨front, last, hpath⟩ : ∃ front last, e.path = front ++ [last] := by
      rcases List.eq_nil_or_concat e.path with hnil | ⟨front, last, hpath⟩
      · exact absurd hnil (h.paths e he).ne_nil
      · exact ⟨front, last, hpath.trans List.concat_eq_append⟩
    rw [hpath] at hpre hne
    have hfront : dir <+: front := (List.prefix_concat_iff.mp hpre).resolve_left hne
    have hdrop : e.path.dropLast = front := by rw [hpath, List.dropLast_concat]
    rcases eq_or_ne dir front with rfl | hne'
    · have hmem := mem_children.mpr ⟨he, (h.paths e he).ne_nil, hdrop⟩
      exact List.ne_nil_of_mem hmem
    · have hlong : 2 < e.path.length := by
        have hlt : dir.length < front.length := by
          refine Nat.lt_of_le_of_ne hfront.length_le fun heq => hne' ?_
          exact hfront.eq_of_length heq
        have hpos := List.length_pos_of_ne_nil hdir
        rw [hpath, List.length_append, List.length_singleton]
        omega
      obtain ⟨d, hd, -, hdpath⟩ := h.parents e he hlong
      rw [hdrop] at hdpath
      refine ih hd ?_ (hdpath ▸ hfront) (hdpath ▸ hne')
      rw [hpath, List.length_append, List.length_singleton] at hlen
      rw [hdpath]
      omega

/-- What is found in a directory is in it. -/
theorem mem_found {f : Ffblk} (h : f ∈ found disk dir mask) :
    isDots f.ffName = true ∧ mask = faDirec ∨ ∃ e ∈ disk, e.path = dir ++ [f.ffName] := by
  rcases List.mem_append.mp h with hdots | hchild
  · left
    split at hdots
    · rename_i hcond
      refine ⟨?_, hcond.2⟩
      rcases List.mem_cons.mp hdots with rfl | hdots
      · decide
      · rw [List.mem_singleton.mp hdots]
        decide
    · exact absurd hdots List.not_mem_nil
  · right
    obtain ⟨e, he, rfl⟩ := List.mem_map.mp hchild
    obtain ⟨hmem, hne, hdrop⟩ := mem_children.mp (List.mem_of_mem_filter he)
    refine ⟨e, hmem, ?_⟩
    dsimp only
    rw [← hdrop, List.getLastD_eq_getLast?, List.getLast?_eq_some_getLast hne, Option.getD_some,
      List.dropLast_append_getLast]

/-- The buffer holds the path of a directory and a backslash, and then anything. -/
structure At (maxlen : ℕ) (dir : Path) (b : Bytes) : Prop where
  length : b.length = maxlen
  take : b.take ((spell dir).length + 1) = spell dir ++ [92]

/-- The buffer still begins with the path of a directory. -/
def Keeps (maxlen : ℕ) (dir : Path) (b : Bytes) : Prop :=
  b.length = maxlen ∧ b.take (spell dir).length = spell dir

/-- A function with the buffer does what the one without it does, as long as the paths have room. -/
def Agrees (maxlen : ℕ) (left : Bytes → Prop) (r : Removed) (out : Option (ℤ × Bytes × World)) :
    Prop :=
  (∀ n ∈ r.needs, n ≤ maxlen) ∧ (∃ b, out = some (r.ret, b, r.world) ∧ left b) ∨
    (∃ n ∈ r.needs, maxlen < n) ∧ out = none

theorem Keeps.at (h : Keeps maxlen (dir ++ [name]) b) (hdir : dir ≠ []) : At maxlen dir b := by
  refine ⟨h.1, ?_⟩
  have htake := congrArg (List.take ((spell dir).length + 1)) h.2
  rw [spell_concat hdir, List.append_cons, List.take_take, Nat.min_eq_left,
    List.take_left'] at htake
  · exact htake
  · simp
  · simp

theorem At.keeps (h : At maxlen dir b) : Keeps maxlen dir b := by
  refine ⟨h.length, ?_⟩
  have htake := congrArg (List.take (spell dir).length) h.take
  rwa [List.take_take, Nat.min_eq_left (Nat.le_succ _), List.take_left] at htake

/-- A name is put behind the backslash. -/
theorem At.strcpy (h : At maxlen dir b) (hdir : ValidPath dir) (hname : 0 ∉ name) :
    (∃ b', CString.strcpy b ((spell dir).length + 1) name = some b' ∧ At maxlen dir b' ∧
        Holds b' 0 (spell dir ++ 92 :: name)) ∧ (spell dir).length + name.length + 2 ≤ maxlen ∨
      CString.strcpy b ((spell dir).length + 1) name = none ∧
        maxlen < (spell dir).length + name.length + 2 := by
  rcases hstr : CString.strcpy b ((spell dir).length + 1) name with - | b'
  · right
    refine ⟨rfl, ?_⟩
    have hfull := strcpy_eq_none.mp hstr
    rw [h.length] at hfull
    omega
  · left
    have hlt := lt_of_strcpy hstr
    have htake : b'.take ((spell dir).length + 1) = spell dir ++ [92] := by
      rw [take_write hstr, h.take]
    have hfront : (spell dir ++ [92]).length = (spell dir).length + 1 := by simp
    have hnul : 0 ∉ spell dir ++ [92] := by simpa using hdir.nul
    refine ⟨⟨b', rfl, ⟨(length_strcpy hstr).trans h.length, htake⟩, ?_⟩, ?_⟩
    · rw [List.append_cons]
      refine Holds.front ?_ (hfront ▸ htake) hnul
      rw [hfront]
      exact holds_strcpy hstr hname
    · rw [h.length] at hlt
      omega

/-- The backslash behind the path is overwritten. -/
theorem At.cut (h : At maxlen dir b) (hdir : ValidPath dir) :
    ∃ b', store b (spell dir).length 0 = some b' ∧ Keeps maxlen dir b' ∧
      Holds b' 0 (spell dir) := by
  have hlen := congrArg List.length h.take
  rw [List.length_take, List.length_append, List.length_singleton] at hlen
  obtain ⟨b', hb'⟩ := Option.isSome_iff_exists.mp
    ((@write_isSome b (spell dir).length [0]).mpr (by rw [List.length_singleton]; omega))
  have hfront := h.keeps.2
  have hend := take_end_write hb'
  rw [hfront] at hend
  refine ⟨b', hb', ⟨(length_write hb').trans h.length, (take_write hb').trans hfront⟩, ?_, hdir.nul⟩
  rw [← hend, List.drop_zero]
  exact List.take_prefix _ _

/-- What the paths need that a function comes to is no more than for the pattern in a directory that
is on the disk, or in the one where it begins. -/
def NeedsOf (dir : Path) (disk : List Entry) (needs : List ℕ) : Prop :=
  ∀ n ∈ needs, ∃ q, (q = dir ∨ ∃ e ∈ disk, e.path = q ∧ dir <+: q) ∧ n ≤ (spell q).length + 5

theorem NeedsOf.append {needs needs' : List ℕ} (h : NeedsOf dir disk needs)
    (h' : NeedsOf dir disk needs') : NeedsOf dir disk (needs ++ needs') := by
  intro n hn
  exact (List.mem_append.mp hn).elim (h n) (h' n)

theorem NeedsOf.mono {disk' : List Entry} {needs : List ℕ} (h : NeedsOf dir disk' needs)
    (hsub : disk' ⊆ disk) : NeedsOf dir disk needs := by
  intro n hn
  obtain ⟨q, hq, hle⟩ := h n hn
  refine ⟨q, hq.imp_right ?_, hle⟩
  rintro ⟨e, he, hpath, hpre⟩
  exact ⟨e, hsub he, hpath, hpre⟩

/-- What is needed for an entry of the directory. -/
theorem needsOf_child {needs : List ℕ} (hdir : dir ≠ [])
    (hchild : ∃ e ∈ disk, e.path = dir ++ [name]) (h : NeedsOf (dir ++ [name]) disk needs) :
    NeedsOf dir disk (((spell dir).length + name.length + 2) :: needs) := by
  obtain ⟨e, he, hpath⟩ := hchild
  have hpre := List.prefix_append dir [name]
  intro n hn
  rcases List.mem_cons.mp hn with rfl | hn
  · refine ⟨dir ++ [name], Or.inr ⟨e, he, hpath, hpre⟩, ?_⟩
    rw [spell_concat hdir, List.length_append, List.length_cons]
    omega
  · obtain ⟨q, hq, hle⟩ := h n hn
    refine ⟨q, Or.inr ?_, hle⟩
    rcases hq with rfl | ⟨d, hd, hdpath, hdpre⟩
    · exact ⟨e, he, hpath, hpre⟩
    · exact ⟨d, hd, hdpath, hpre.trans hdpre⟩

theorem needsOf_nil : NeedsOf dir disk [] := fun _ hn => absurd hn List.not_mem_nil

theorem needsOf_pattern : NeedsOf dir disk [(spell dir).length + 5] := by
  intro n hn
  exact ⟨dir, Or.inl rfl, (List.mem_singleton.mp hn).le⟩

theorem removeFiles_needs (hdir : dir ≠ []) : ∀ {fs : List Ffblk} {w : World},
    (∀ f ∈ fs, ∃ e ∈ disk, e.path = dir ++ [f.ffName]) →
    NeedsOf dir disk (removeFiles maxlen len dir fs w).2 := by
  intro fs
  induction fs with
  | nil => exact fun _ => needsOf_nil
  | cons f fs ih =>
    intro w hfs
    rw [removeFiles]
    split
    · exact needsOf_nil
    · have hrest := fun g hg => hfs g (List.mem_cons_of_mem f hg)
      exact (needsOf_child hdir (hfs f List.mem_cons_self) needsOf_nil).append (ih hrest)

theorem removeDirs_needs {remove : Path → World → Option Removed} (hdir : dir ≠ [])
    (hremove : ∀ {sub w r}, remove sub w = some r → Within sub w r.world)
    (hneeds : ∀ {name w r}, remove (dir ++ [name]) w = some r →
      NeedsOf (dir ++ [name]) w.disk r.needs) :
    ∀ {fs : List Ffblk} {w : World} {r : Removed}, w.disk ⊆ disk →
      (∀ f ∈ fs, isDots f.ffName = false → ∃ e ∈ disk, e.path = dir ++ [f.ffName]) →
      removeDirs remove maxlen len dir fs w = some r → NeedsOf dir disk r.needs := by
  intro fs
  induction fs with
  | nil =>
    intro w r _ _ h
    cases h
    exact needsOf_nil
  | cons f fs ih =>
    intro w r hsub hfs h
    have hrest := fun g hg => hfs g (List.mem_cons_of_mem f hg)
    rw [removeDirs] at h
    split at h
    · exact ih hsub hrest h
    · rename_i hno
      split at h
      · cases h
        exact needsOf_nil
      · obtain ⟨r₁, h₁, hafter⟩ := Option.bind_eq_some_iff.mp h
        have hchild := hfs f List.mem_cons_self (by simpa using (not_or.mp hno).1)
        have hfirst := needsOf_child hdir hchild ((hneeds h₁).mono hsub)
        dsimp only at hafter
        split at hafter
        · cases hafter
          exact hfirst
        · obtain ⟨r₂, h₂, rfl⟩ := Option.map_eq_some_iff.mp hafter
          have hsub₁ := List.Subset.trans (hremove h₁).disk hsub
          exact hfirst.append (ih hsub₁ hrest h₂)

theorem removeDir_needs : ∀ {fuel len : ℕ} {dir : Path} {w : World} {r : Removed}, dir ≠ [] →
    removeDir maxlen fuel len dir w = some r → NeedsOf dir w.disk r.needs := by
  intro fuel
  induction fuel with
  | zero => exact fun _ h => nomatch h
  | succ fuel ih =>
    intro len dir w r hdir h
    rw [removeDir] at h
    dsimp only at h
    split at h
    · cases h
      exact needsOf_pattern
    · obtain ⟨r₁, h₁, rfl⟩ := Option.map_eq_some_iff.mp h
      have hdirs : NeedsOf dir w.disk r₁.needs := by
        refine @removeDirs_needs dir w.disk maxlen len _ hdir (fun h => removeDir_within h)
          (fun h => ih (by simp) h) _ w.malloc.2 r₁ (List.Subset.refl _) (fun f hf hdots => ?_) h₁
        rcases mem_found hf with ⟨hdots', -⟩ | hchild
        · exact absurd (hdots.symm.trans hdots') Bool.false_ne_true
        · exact hchild
      refine (needsOf_pattern.append hdirs).append ?_
      split
      · exact needsOf_nil
      · have hsub := (removeDirs_within (fun h => removeDir_within h) h₁).disk
        refine NeedsOf.mono (removeFiles_needs hdir fun f hf => ?_) hsub
        exact (mem_found hf).resolve_left fun hdots => absurd hdots.2 (by decide)

/-! ## The command -/

/-- The room that the paths take when a directory is removed. -/
def needs (dir : Path) (w : World) : List ℕ :=
  ((removeDir fullnameSize (depth w.disk + 1) ((spell dir).length + 1) dir w).map (·.needs)).getD []

/-- There is room for all paths when none has more than 517 characters. -/
theorem needs_le (hdir : dir ≠ []) (hstart : (spell dir).length ≤ 517)
    (hlen : ∀ e ∈ w.disk, dir <+: e.path → (spell e.path).length ≤ 517) :
    ∀ n ∈ needs dir w, n ≤ fullnameSize := by
  intro n hn
  rw [needs] at hn
  rcases hr : removeDir fullnameSize (depth w.disk + 1) ((spell dir).length + 1) dir w with - | r
  · rw [hr] at hn
    exact absurd hn List.not_mem_nil
  · rw [hr] at hn
    obtain ⟨q, hq, hle⟩ := removeDir_needs hdir hr n hn
    have hshort : (spell q).length ≤ 517 := by
      rcases hq with rfl | ⟨e, he, rfl, hpre⟩
      · exact hstart
      · exact hlen e he hpre
    rw [fullnameSize]
    omega

variable {abspath : Str → Option Str} {prompt : ℕ} {fullname : Bytes} {path : Str} {quiet : Bool}

end Rmdir
end Shell
end BurdahDos
