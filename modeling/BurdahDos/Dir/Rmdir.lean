import BurdahDos.Dir.Granted
import Mathlib

/-!
# Removing a directory

`dos_rmdir` takes a directory for empty if a search finds no entry from the third on that is in use.
A search ends as well where an access fails, and from entry 65535 on, and of the first two entries
only two characters are looked at.

`rmdir_empty` says that this is all that can go wrong: a directory that is removed was empty, unless
it has an entry in use but none that the search can reach.  `rmdir_unnoticed` is what happens then.
-/

set_option autoImplicit false

namespace BurdahDos
namespace Dir

open Fat File

variable {v : Volume} {fnp : FNode} {dir : ℕ}

/-! ## Empty directories -/

/-- Entry `n` is in front of the first one that was never used. -/
structure Listed (v : Volume) (dir n : ℕ) (e : Dirent) : Prop where
  dirent : dirent v dir n = some e
  used : firstOf e.name ≠ 0
  passed : ∀ k < n, Passable v dir k

/-- A live entry other than `.` and `..`. -/
structure Alive (e : Dirent) : Prop where
  occupied : occupied e = true
  dot : e.name ≠ dotName
  dotDot : e.name ≠ dotDotName

/-- The directory has no live entry other than `.` and `..`. -/
def Empty (v : Volume) (dir : ℕ) : Prop := ∀ n e, Listed v dir n e → ¬ Alive e

/-- The directory that a path leads to. -/
def Names (v : Volume) (path : Path) (dir : ℕ) : Prop :=
  ∃ pat s, Leads v false (path.drop 2) (startOf v.dpb 0, pat) s ∧ s.1 = dir

/-! ## `dos_rmdir` -/

/-- Where the scan of `dos_rmdir` begins, behind the first two entries: the fnode and the volume. -/
def begun (v : Volume) (fnode : FNode) (path : Path) : FNode × Volume :=
  let o := (dirOpen v fnode path false).2
  (dotEntries o.2 o.1).2

/-- The scan of `dos_rmdir`, from the third entry of the directory on. -/
def scan (v : Volume) (fnode : FNode) (path : Path) : ℤ × FNode × Volume :=
  search occupied (begun v fnode path).2 (begun v fnode path).1

/-- The checks in front of the scan are passed. -/
structure GetsToScan (v : Volume) (fnode : FNode) (cdsCurrentPath path : Path) : Prop where
  notCurrent : path ≠ cdsCurrentPath
  notRoot : path.drop 2 ≠ [backslash]
  opened : (dirOpen v fnode path false).1 = true
  attrib : (dirOpen v fnode path false).2.1.dir.attrib &&& ~~~(dDir ||| dRdonly ||| dArchive) = 0
  dots : (dotEntries (dirOpen v fnode path false).2.2 (dirOpen v fnode path false).2.1).1 = true

/-- An entry in use that the scan can reach: one from the third on, with a number below 65535, and
the accesses of the scan up to it succeed. -/
def Noticed (v : Volume) (fnode : FNode) (path : Path) (dir n : ℕ) (e : Dirent) : Prop :=
  Reached (begun v fnode path).2 dir (begun v fnode path).1 n e ∧ occupied e = true

/-- `dir_open` leaves the fnode at the first cluster of the directory. -/
theorem openLoop_offset (split : Bool) (n : ℕ) (dirname : Path) (h0 : fnp.clusterOffset = 0)
    (h : (openLoop split n dirname v fnp).1 = true) :
    (openLoop split n dirname v fnp).2.1.clusterOffset = 0 := by
  induction n generalizing dirname v fnp with
  | zero => exact h0
  | succ n ih =>
    rcases dirname with - | ⟨c, dirname⟩
    · exact h0
    · rw [openLoop] at h ⊢
      dsimp only at h ⊢
      by_cases h1 : dirname.isEmpty = true
      · rw [if_pos h1]
        exact h0
      · rw [if_neg h1] at h ⊢
        by_cases h2 : (split && (convertNameSZToName83 dirname).2.isEmpty) = true
        · rw [if_pos h2]
          exact h0
        · rw [if_neg h2] at h ⊢
          split at h
          · rename_i h3
            rw [if_pos h3]
            exact ih _ rfl h
          · exact absurd h Bool.false_ne_true

/-- The fnode is behind the first two entries once these have passed for `.` and `..`. -/
theorem dotEntries_spec (hst : Ahead v dir fnp) (h0 : fnp.dmEntry = 0)
    (h : (dotEntries v fnp).1 = true) : ReadOnly v (dotEntries v fnp).2.2 ∧
      Ahead (dotEntries v fnp).2.2 dir (dotEntries v fnp).2.1 ∧
      (dotEntries v fnp).2.1.dmEntry = 2 := by
  have hfirst := (dirRead_spec hst.stands).readOnly
  obtain ⟨hst', hentry⟩ := dirRead_ahead hst rfl
  rw [dotEntries] at h ⊢
  dsimp only at h ⊢
  split at h
  · exact absurd h Bool.false_ne_true
  · rename_i h1
    rw [if_neg h1]
    generalize (dirRead v fnp).2.2 = v' at hfirst hst' h ⊢
    generalize ({ (dirRead v fnp).2.1 with dmEntry := (dirRead v fnp).2.1.dmEntry + 1 } : FNode) =
      next at hst' hentry h ⊢
    have hsecond := (dirRead_spec hst'.stands).readOnly
    obtain ⟨hst'', hentry'⟩ := dirRead_ahead hst' rfl
    split at h
    · exact absurd h Bool.false_ne_true
    · rename_i h2
      rw [if_neg h2]
      exact ⟨hfirst.trans hsecond, hst'', by dsimp only at hentry' ⊢; omega⟩

/-- The call fails, or the scan finds nothing and the directory is removed. -/
theorem dosRmdir_cases (v : Volume) (fnode : FNode) (cdsCurrentPath path : Path) :
    (dosRmdir v fnode cdsCurrentPath path).1 ≠ success ∧
        (GetsToScan v fnode cdsCurrentPath path → (scan v fnode path).1 = 1) ∨
      GetsToScan v fnode cdsCurrentPath path ∧ (scan v fnode path).1 ≠ 1 ∧
        dosRmdir v fnode cdsCurrentPath path =
          removeDir (scan v fnode path).2.2 (scan v fnode path).2.1 path := by
  have herr : deAccess ≠ success ∧ dePathNotFnd ≠ success ∧ deRmvCuDir ≠ success := by decide
  rw [dosRmdir]
  dsimp only
  by_cases h1 : path = cdsCurrentPath
  · rw [if_pos h1]
    exact Or.inl ⟨herr.2.2, fun h => absurd h1 h.notCurrent⟩
  rw [if_neg h1]
  by_cases h2 : path.drop 2 = [backslash]
  · rw [if_pos h2]
    exact Or.inl ⟨herr.1, fun h => absurd h2 h.notRoot⟩
  rw [if_neg h2]
  cases h3 : (dirOpen v fnode path false).1 with
  | false =>
    exact Or.inl ⟨herr.2.1, fun h => absurd (h3.symm.trans h.opened) Bool.false_ne_true⟩
  | true =>
    rw [if_neg (by simp)]
    by_cases h4 : (dirOpen v fnode path false).2.1.dir.attrib &&& ~~~(dDir ||| dRdonly ||| dArchive) = 0
    swap
    · rw [if_pos h4]
      exact Or.inl ⟨herr.1, fun h => absurd h.attrib h4⟩
    rw [if_neg (not_not_intro h4)]
    cases h5 : (dotEntries (dirOpen v fnode path false).2.2 (dirOpen v fnode path false).2.1).1 with
    | false =>
      exact Or.inl ⟨herr.1, fun h => absurd (h5.symm.trans h.dots) Bool.false_ne_true⟩
    | true =>
      rw [if_neg (by simp)]
      by_cases h6 : (scan v fnode path).1 = 1
      · rw [if_pos (by exact h6)]
        exact Or.inl ⟨herr.1, fun _ => h6⟩
      · rw [if_neg (by exact h6)]
        exact Or.inr ⟨⟨h1, h2, h3, h4, h5⟩, h6, rfl⟩

theorem Names.unique {path : Path} {dir dir' : ℕ} (h : Names v path dir) (h' : Names v path dir') :
    dir = dir' := by
  obtain ⟨_, s, hs, rfl⟩ := h
  obtain ⟨_, s', hs', rfl⟩ := h'
  exact (hs.unique_dir hs' rfl).1

/-- The scan begins at the third entry of the directory that the path leads to. -/
theorem GetsToScan.begun {cdsCurrentPath path : Path} {fnode : FNode}
    (h : GetsToScan v fnode cdsCurrentPath path) : ∃ dir, Names v path dir ∧
      ReadOnly v (begun v fnode path).2 ∧ Ahead (begun v fnode path).2 dir (begun v fnode path).1 ∧
      (begun v fnode path).1.dmEntry = 2 := by
  have hopen := dirOpen_spec v fnode path false
  obtain ⟨-, h0, s, hleads, hst, -⟩ | ⟨hrc, -⟩ := hopen.result
  · have hro := hopen.readOnly
    have hoffset : (dirOpen v fnode path false).2.1.clusterOffset = 0 :=
      openLoop_offset false _ _ rfl h.opened
    have hst := hst.congr hro.dpb hro.fat
    obtain ⟨hro', hahead, htwo⟩ := dotEntries_spec
      ⟨hst, fun _ => hoffset.trans_le (Nat.zero_le _)⟩ h0 h.dots
    exact ⟨s.1, ⟨_, s, hleads, rfl⟩, hro.trans hro', hahead, htwo⟩
  · exact absurd (h.opened.symm.trans hrc) (Ne.symm Bool.false_ne_true)

/-- The scan finds something if it can reach an entry in use. -/
theorem scan_iff_noticed {cdsCurrentPath path : Path} {fnode : FNode}
    (hgo : GetsToScan v fnode cdsCurrentPath path) : ∃ dir, Names v path dir ∧
      ((scan v fnode path).1 = 1 ↔ ∃ n e, Noticed v fnode path dir n e) := by
  obtain ⟨dir, hnames, -, hahead, -⟩ := hgo.begun
  exact ⟨dir, hnames, search_found_iff occupied hahead⟩

/-- If all accesses succeed, an entry in use is noticed wherever it is, but for the first two and
those from number 65535 on. -/
theorem noticed_of_sound (hs : Sound v) {cdsCurrentPath path : Path} {fnode : FNode}
    (hgo : GetsToScan v fnode cdsCurrentPath path) {n : ℕ} {e : Dirent} (h : Listed v dir n e)
    (h2 : 2 ≤ n) (hn : n < 65535) (he : occupied e = true) : Noticed v fnode path dir n e := by
  obtain ⟨-, -, hro, -, htwo⟩ := hgo.begun
  rw [Noticed, hro.eq_of_sound hs]
  exact ⟨⟨htwo.trans_le h2, hn, h.dirent, h.used, fun k _ hk => h.passed k hk,
    tableGranted_of_sound hs _, granted_of_sound hs _⟩, he⟩

/-- **Only empty directories are removed**, unless the scan can reach none of the entries in use. -/
theorem rmdir_empty (v : Volume) (fnode : FNode) (cdsCurrentPath path : Path)
    (h : GetsToScan v fnode cdsCurrentPath path →
      ∀ dir, Names v path dir → ¬ Empty v dir → ∃ n e, Noticed v fnode path dir n e) :
    (dosRmdir v fnode cdsCurrentPath path).1 = success → ∃ dir, Names v path dir ∧ Empty v dir := by
  intro hrc
  obtain ⟨hfail, -⟩ | ⟨hgo, hscan, -⟩ := dosRmdir_cases v fnode cdsCurrentPath path
  · exact absurd hrc hfail
  · obtain ⟨dir, hnames, hiff⟩ := scan_iff_noticed hgo
    refine ⟨dir, hnames, ?_⟩
    by_contra hne
    exact hscan (hiff.mpr (h hgo dir hnames hne))

/-- **A directory in which nothing is noticed** is removed like an empty one, whatever is in it. -/
theorem rmdir_unnoticed {cdsCurrentPath path : Path} {fnode : FNode}
    (hgo : GetsToScan v fnode cdsCurrentPath path) (hnames : Names v path dir)
    (h : ∀ n e, ¬ Noticed v fnode path dir n e) : dosRmdir v fnode cdsCurrentPath path =
      removeDir (scan v fnode path).2.2 (scan v fnode path).2.1 path := by
  obtain ⟨dir', hnames', hiff⟩ := scan_iff_noticed hgo
  obtain rfl := hnames.unique hnames'
  obtain ⟨-, hscan⟩ | ⟨-, -, heq⟩ := dosRmdir_cases v fnode cdsCurrentPath path
  · obtain ⟨n, e, hnoticed⟩ := hiff.mp (hscan hgo)
    exact absurd hnoticed (h n e)
  · exact heq

/-! ## A directory that is lost -/

/-- A volume with a directory `A` of two clusters.  In the first one all entries but `.` and `..` are
deleted, and a file `F` is the first in the second. -/
def longTree (outcomes : List Outcome) : Volume :=
  let entry (attrib : UInt8) (cluster : ℕ) (name : Name) : List UInt8 :=
    (initDirentry attrib cluster name 0 0).bytes
  let root := putBytes (fun _ _ => 0) 7 0 (entry dDir 2 (convertNameSZToName83 [0x41]).1)
  let a := putBytes (putBytes root 8 0 (entry dDir 2 dotName)) 8 32 (entry dDir 0 dotDotName)
  { smallVolume (fun c => if c = 2 then 4 else if c = 3 ∨ c = 4 then 0xfff else 0) outcomes with
    disk := putBytes (fun s i => if s = 8 ∧ 64 ≤ i then extDeleted else a s i) 10 0
      (entry dArchive 3 nameF) }

theorem longTree_names {outcomes : List Outcome} {dir : ℕ} (h : Names (longTree outcomes) pathA dir) :
    dir = 2 := by
  have hsound : Names (longTree []) pathA dir := by
    obtain ⟨pat, s, hleads, hdir⟩ := h
    have hdpb : (longTree outcomes).dpb = (longTree []).dpb := rfl
    exact ⟨pat, s, hleads.congr hdpb rfl rfl, hdir⟩
  have hopen := dirOpen_spec (longTree []) smallFNode pathA false
  have hrc : (dirOpen (longTree []) smallFNode pathA false).1 = true := by decide +kernel
  have hdir : (dirOpen (longTree []) smallFNode pathA false).2.1.dmDircluster = 2 := by
    decide +kernel
  obtain ⟨-, -, s, hleads, hst, -⟩ | ⟨hfail, -⟩ := hopen.result
  · rw [← hdir, hst.dmDircluster]
    exact hsound.unique ⟨_, s, hleads, rfl⟩
  · exact absurd (hrc.symm.trans hfail) (Ne.symm Bool.false_ne_true)

/-- The entries do not depend on the outcomes of the reads. -/
theorem longTree_dirent (outcomes : List Outcome) (dir n : ℕ) :
    dirent (longTree outcomes) dir n = dirent (longTree []) dir n :=
  dirent_congr (show (longTree outcomes).dpb = (longTree []).dpb from rfl) rfl rfl dir n

theorem longTree_passable (outcomes : List Outcome) : ∀ n < 17, Passable (longTree outcomes) 2 n := by
  have hslot : ∀ n < 17, slot (longTree []) 2 n = some (if n < 16 then (8, n) else (10, 0)) := by
    decide +kernel
  have hused : ∀ n < 17,
      firstOf (entryAt (longTree []) (if n < 16 then (8, n) else (10, 0))).name ≠ 0 := by
    decide +kernel
  intro n hn
  refine ⟨_, ?_, hused n hn⟩
  rw [longTree_dirent, dirent, hslot n hn]
  rfl

/-- The file keeps the directory from being empty. -/
theorem longTree_file (outcomes : List Outcome) :
    Listed (longTree outcomes) 2 16 (entryAt (longTree []) (10, 0)) ∧
      Alive (entryAt (longTree []) (10, 0)) := by
  obtain ⟨e, hdirent, hused⟩ := longTree_passable outcomes 16 (by decide)
  have hslot : slot (longTree []) 2 16 = some (10, 0) := by decide +kernel
  have hsame : dirent (longTree outcomes) 2 16 = some (entryAt (longTree []) (10, 0)) := by
    rw [longTree_dirent, dirent, hslot]
    rfl
  obtain rfl := Option.some.inj (hdirent.symm.trans hsame)
  refine ⟨⟨hdirent, hused, fun k hk => longTree_passable outcomes k (by omega)⟩, ?_, ?_, ?_⟩
  all_goals decide +kernel

/-- If all accesses succeed the file is noticed, and the directory stays. -/
theorem rmdir_empty_longTree : (dosRmdir (longTree []) smallFNode [] pathA).1 ≠ success := by
  intro hrc
  obtain ⟨hlisted, halive⟩ := longTree_file []
  obtain ⟨dir, hnames, hempty⟩ := rmdir_empty (longTree []) smallFNode [] pathA
    (fun hgo dir hnames _ => by
      obtain rfl := longTree_names hnames
      exact ⟨16, _, noticed_of_sound ⟨rfl, rfl⟩ hgo hlisted (by decide) (by decide)
        halive.occupied⟩) hrc
  obtain rfl := longTree_names hnames
  exact hempty 16 _ hlisted halive

/-- The sector with `F` cannot be read: 17 accesses find the sectors of the root directory and of the
first cluster of `A`. -/
def lostTree : Volume := longTree (List.replicate 17 none ++ [some fun _ _ => 0])

/-- **A directory that is not empty is removed** as a sector cannot be read. -/
theorem lostTree_removed : ¬ ((dosRmdir lostTree smallFNode [] pathA).1 = success →
    ∃ dir, Names lostTree pathA dir ∧ Empty lostTree dir) := by
  intro h
  obtain ⟨dir, hnames, hempty⟩ := h (by decide +kernel)
  obtain rfl := longTree_names hnames
  obtain ⟨hlisted, halive⟩ := longTree_file (List.replicate 17 none ++ [some fun _ _ => 0])
  exact hempty 16 _ hlisted halive

end Dir
end BurdahDos
