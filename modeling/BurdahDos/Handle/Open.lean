import BurdahDos.Dir.View
import BurdahDos.Handle.Defs
import BurdahDos.Share.Spec
import Mathlib

/-!
# Opening is all or nothing

An open takes an SFT, and then perhaps a slot of SHARE and a handle.  On an error it has to give
them back.  It does, except for a device whose driver refuses to open: `DeviceOpenSft` has counted
a reference by then, and nobody drops it.
-/

set_option autoImplicit false

namespace BurdahDos
namespace Handle

open File (System Sft FNode success deAccess deInvldHndl)
open Share (Filename FileT Tables inc16 dec16)

variable {s s' : State} {k : Env} {fname : Path.Str} {flags attrib : ℕ}

/-! ## What is looked at -/

/-- What a slot of SHARE's file table says: nothing, if it is not in use. -/
def shareSlot (t : Tables) (i : ℕ) : Option FileT :=
  if (t.file i).inUse then some (t.file i) else none

/-- The reference counts, the handles and SHARE's slots are as they were. -/
structure Untouched (s s' : State) : Prop where
  count : ∀ i, (s'.sys.sft i).count = (s.sys.sft i).count
  jft : s'.jft = s.jft
  share : ∀ i, shareSlot s'.share i = shareSlot s.share i

/-- An SFT has been taken, and at most one handle and one slot of SHARE. -/
structure Taken (s s' : State) : Prop where
  count : ∃ idx < s.sys.total, (s.sys.sft idx).count = 0 ∧ (s'.sys.sft idx).count = 1 ∧
    ∀ i ≠ idx, (s'.sys.sft i).count = (s.sys.sft i).count
  handle : ∃ (p : Seg) (hndl : ℕ), ∀ (p' : Seg) (hndl' : ℕ), (p', hndl') ≠ (p, hndl) →
    (s'.jft p')[hndl']? = (s.jft p')[hndl']?
  share : ∃ i, ∀ i' ≠ i, shareSlot s'.share i' = shareSlot s.share i'

/-- An open that returns an error has left everything alone, and one that succeeds has taken one of
each thing at most. -/
def AllOrNothing (s : State) (r : Opened × State) : Prop :=
  (∀ e, r.1 = some (.error e) → Untouched s r.2) ∧ ∀ x, r.1 = some (.ok x) → Taken s r.2

/-! ## The file system leaves the counts alone -/

/-- The counts and the number of SFTs are the same, and so is whether SHARE is installed. -/
structure SameCounts (s s' : System) : Prop where
  count : ∀ i, (s'.sft i).count = (s.sft i).count
  total : s'.total = s.total
  shareInstalled : s'.shareInstalled = s.shareInstalled

theorem SameCounts.refl (s : System) : SameCounts s s := ⟨fun _ => rfl, rfl, rfl⟩

theorem SameCounts.trans {s s' s'' : System} (h : SameCounts s s') (h' : SameCounts s' s'') :
    SameCounts s s'' :=
  ⟨fun i => (h'.count i).trans (h.count i), h'.total.trans h.total,
    h'.shareInstalled.trans h.shareInstalled⟩

/-- The volume does not matter. -/
theorem SameCounts.vol {s s' : System} (h : SameCounts s s') (v : Fat.Volume) :
    SameCounts s { s' with vol := v } :=
  ⟨h.count, h.total, h.shareInstalled⟩

theorem fnodeToSft_counts (s : System) (fnp : FNode) : SameCounts s (File.fnodeToSft s fnp) := by
  refine ⟨fun i => ?_, rfl, rfl⟩
  by_cases h : i = fnp.sftIdx
  · simp [File.fnodeToSft, h]
  · simp [File.fnodeToSft, Function.update_of_ne h]

theorem mergeFileChanges_counts (s : System) (fnp : FNode) :
    SameCounts s (File.mergeFileChanges s fnp) := by
  refine ⟨fun i => ?_, rfl, rfl⟩
  dsimp only [File.mergeFileChanges]
  split <;> rfl

theorem dirOpen_counts (s : System) (path : Dir.Path) (flags : ℕ) (attrib : UInt8) (fd : ℕ) :
    SameCounts s (Dir.dosOpen s path flags attrib fd).2 := by
  have hvol : ∀ v, SameCounts s { s with vol := v } := (SameCounts.refl s).vol
  rw [Dir.dosOpen]
  dsimp only
  split
  · exact hvol _
  · split
    · exact hvol _
    · split
      · exact (hvol _).trans (fnodeToSft_counts _ _)
      · split
        · exact hvol _
        · exact (hvol _).trans ((mergeFileChanges_counts _ _).trans (fnodeToSft_counts _ _))

theorem dirClose_counts (s : System) (fd : ℕ) : SameCounts s (Dir.dosClose s fd).2 := by
  rw [Dir.dosClose]
  dsimp only
  have hmerge (c : Prop) [Decidable c] (fnp : FNode) :
      SameCounts s (if c then s else File.mergeFileChanges s fnp) := by
    split
    · exact .refl s
    · exact mergeFileChanges_counts s fnp
  exact (hmerge _ _).vol _

/-! ## SHARE's slots -/

theorem shareSlot_eq_some {t : Tables} {i : ℕ} {p : FileT} :
    shareSlot t i = some p ↔ p.inUse = true ∧ t.fileTable[i]? = some p := by
  rw [shareSlot]
  constructor
  · intro h
    split at h
    · rename_i hu
      obtain rfl := Option.some.inj h
      exact ⟨hu, Share.Tables.getElem?_of_inUse hu⟩
    · exact (nomatch h)
  · rintro ⟨hu, hp⟩
    have hfile := Share.Tables.file_eq hp
    rw [hfile, if_pos hu]

theorem shareSlot_of_sameUse {t t' : Tables} (h : Share.SameUse t t') (i : ℕ) :
    shareSlot t' i = shareSlot t i := by
  refine Option.ext fun p => ?_
  rw [shareSlot_eq_some, shareSlot_eq_some]
  exact and_congr_right fun hu => h i p hu

theorem shareSlot_of_set {t t' : Tables} {fileno : ℕ} {p : FileT}
    (h : t'.fileTable = t.fileTable.set fileno p) {i : ℕ} (hi : i ≠ fileno) :
    shareSlot t' i = shareSlot t i := by
  refine Option.ext fun p => ?_
  rw [shareSlot_eq_some, shareSlot_eq_some, h, List.getElem?_set_ne (Ne.symm hi)]

/-- A slot has been entered that was not in use. -/
def EnteredSlot (t t' : Tables) (fileno : ℕ) : Prop :=
  (∃ p, t.fileTable[fileno]? = some p ∧ p.inUse = false) ∧
    ∃ e, t'.fileTable = t.fileTable.set fileno e

/-- Closing the slot takes that back. -/
theorem EnteredSlot.closed {t t' : Tables} {fileno : ℕ} (h : EnteredSlot t t' fileno) (i : ℕ) :
    shareSlot (Share.closeFile t' fileno) i = shareSlot t i := by
  obtain ⟨hunused, e, he⟩ := h
  refine shareSlot_of_sameUse (Share.sameUse_of_set (k := fileno)
    (e := { (Share.removeAllLocks t' fileno).file fileno with filename := [] }) ?_ rfl hunused) i
  rw [Share.closeFile, Share.freeFileTableEntry]
  exact (congrArg (List.set · fileno _) he).trans (List.set_set ..)

/-! ## The steps of an open -/

theorem setSft_count (s : State) (idx : ℕ) (f : Sft) (r : Rest) (i : ℕ) :
    ((s.setSft idx f r).sys.sft i).count = if i = idx then f.count else (s.sys.sft i).count := by
  by_cases h : i = idx
  · subst h
    simp [State.setSft]
  · simp [State.setSft, h]

theorem modifyCount_count (s : State) (idx : ℕ) (f : ℕ → ℕ) (i : ℕ) :
    ((s.modifyCount idx f).sys.sft i).count =
      if i = idx then f (s.sys.sft idx).count else (s.sys.sft i).count :=
  setSft_count s idx _ _ i

theorem getFreeSft_some {idx : ℕ} (h : s.getFreeSft = some idx) :
    idx < s.sys.total ∧ (s.sys.sft idx).count = 0 :=
  ⟨List.mem_range.mp (List.mem_of_find?_eq_some h), by simpa using List.find?_some h⟩

/-- What the check with SHARE comes to for an SFT without a slot. -/
structure HasChecked (s : State) (idx : ℕ) (s' : State) : Prop where
  jft : s'.jft = s.jft
  cuPsp : s'.cuPsp = s.cuPsp
  sys : s'.sys = s.sys
  result : (s.sys.shareInstalled = true ∧ (s'.rest idx).shroff < 0 ∧
      ∀ i, shareSlot s'.share i = shareSlot s.share i) ∨
    (∃ fileno : ℕ, (s'.rest idx).shroff = fileno ∧ EnteredSlot s.share s'.share fileno) ∨
    s.sys.shareInstalled = false ∧ (s'.rest idx).shroff = -1 ∧ s'.share = s.share

theorem shareOpenCheck_spec {idx : ℕ} (h : (s.rest idx).shroff = -1) (path : Filename)
    (flags : ℕ) : HasChecked s idx (shareOpenCheck s idx path flags) := by
  rw [shareOpenCheck]
  split
  · rename_i hshare
    have hcases := Share.openCheck_cases s.share path (.ofNat s.cuPsp) (flags &&& 0x03)
      (flags / 2 ^ 4 &&& 0x07)
    refine ⟨rfl, rfl, ?_, ?_⟩
    · simp [State.setSft]
    · simp only [State.setSft, Function.update_self]
      rcases hcases with ⟨hneg, hsame, -⟩ | ⟨fileno, fs, fo, hent⟩
      · exact Or.inl ⟨hshare, hneg, shareSlot_of_sameUse hsame⟩
      · exact Or.inr (Or.inl ⟨fileno, hent.answer, hent.slot, _, hent.table⟩)
  · rename_i hshare
    exact ⟨rfl, rfl, rfl, Or.inr (Or.inr ⟨Bool.eq_false_iff.mpr hshare, h, rfl⟩)⟩

/-- What an open of an SFT comes to. -/
structure HasOpened (s : State) (r : Opened × State) : Prop where
  jft : r.2.jft = s.jft
  cuPsp : r.2.cuPsp = s.cuPsp
  total : r.2.sys.total = s.sys.total
  error : ∀ e, r.1 = some (.error e) → (∀ i, (r.2.sys.sft i).count = (s.sys.sft i).count) ∧
    ∀ i, shareSlot r.2.share i = shareSlot s.share i
  ok : ∀ x, r.1 = some (.ok x) → s.getFreeSft = some x.1 ∧ (r.2.sys.sft x.1).count = 1 ∧
    (∀ i ≠ x.1, (r.2.sys.sft i).count = (s.sys.sft i).count) ∧
    ∃ i, ∀ i' ≠ i, shareSlot r.2.share i' = shareSlot s.share i'

/-- An open that fails before anything is done. -/
theorem HasOpened.refused (s : State) (e : ℤ) : HasOpened s (some (.error e), s) :=
  ⟨rfl, rfl, rfl, fun _ _ => ⟨fun _ => rfl, fun _ => rfl⟩, fun _ h => (nomatch h)⟩

theorem localOpenSft_spec {idx : ℕ} (hfree : s.getFreeSft = some idx)
    (hshroff : (s.rest idx).shroff = -1) (path : Filename) (flags attrib : ℕ) :
    HasOpened s (localOpenSft s idx path flags attrib) := by
  have hcount := (getFreeSft_some hfree).2
  rw [localOpenSft]
  split
  · exact .refused s _
  · split
    · exact .refused s _
    · have hchecked := shareOpenCheck_spec hshroff path flags
      generalize shareOpenCheck s idx path flags = s₁ at hchecked ⊢
      dsimp only
      split
      · rename_i hneg
        refine ⟨hchecked.jft, hchecked.cuPsp, by rw [hchecked.sys], fun _ _ => ?_,
          fun _ h => (nomatch h)⟩
        refine ⟨fun i => by rw [hchecked.sys], ?_⟩
        rcases hchecked.result with ⟨-, -, h⟩ | ⟨fileno, h, -⟩ | ⟨h, -⟩
        · exact h
        · omega
        · rw [hchecked.sys, h] at hneg
          exact absurd hneg.1 Bool.false_ne_true
      · rename_i hnot
        have hcounts := dirOpen_counts (s₁.modifyCount idx inc16).sys path.chars flags
          (.ofNat attrib) idx
        generalize Dir.dosOpen (s₁.modifyCount idx inc16).sys path.chars flags (.ofNat attrib) idx
          = o at hcounts ⊢
        have htotal : o.2.total = s.sys.total := by
          rw [hcounts.total, ← hchecked.sys]
          rfl
        -- the counts once the reference is counted
        have hone : (o.2.sft idx).count = 1 := by
          rw [hcounts.count, modifyCount_count, if_pos rfl, hchecked.sys, hcount]
          rfl
        have hother : ∀ i ≠ idx, (o.2.sft i).count = (s.sys.sft i).count := by
          intro i hi
          rw [hcounts.count, modifyCount_count, if_neg hi, hchecked.sys]
        cases hres : o.1 with
        | none =>
          exact ⟨hchecked.jft, hchecked.cuPsp, htotal, fun _ h => (nomatch h),
            fun _ h => (nomatch h)⟩
        | some result =>
          have hrest : ((s₁.modifyCount idx inc16).rest idx).shroff = (s₁.rest idx).shroff := by
            simp [State.modifyCount, State.setSft]
          have hslot : ∃ i, ∀ i' ≠ i, shareSlot s₁.share i' = shareSlot s.share i' := by
            rcases hchecked.result with ⟨-, -, h⟩ | ⟨fileno, -, -, e, he⟩ | ⟨-, -, h⟩
            · exact ⟨0, fun i _ => h i⟩
            · exact ⟨fileno, fun i hi => shareSlot_of_set he hi⟩
            · exact ⟨0, fun i _ => by rw [h]⟩
          dsimp only
          split
          · refine ⟨?_, ?_, ?_, fun _ _ => ⟨fun i => ?_, fun i => ?_⟩, fun _ h => (nomatch h)⟩
            · split <;> exact hchecked.jft
            · split <;> exact hchecked.cuPsp
            · split <;> exact htotal
            · -- the reference is dropped
              rw [modifyCount_count]
              split
              · rename_i hi
                subst hi
                rw [hcount]
                split
                · simp only [State.releaseShare, setSft_count, if_true]
                  rw [hone]
                  rfl
                · dsimp only
                  rw [hone]
                  rfl
              · rename_i hi
                split
                · simp only [State.releaseShare, setSft_count, if_neg hi]
                  exact hother i hi
                · exact hother i hi
            · -- and the slot freed
              rcases hchecked.result with ⟨hshare, hneg, -⟩ | ⟨fileno, h, hent⟩ | ⟨-, hneg, h⟩
              · exact absurd ⟨by rw [hchecked.sys]; exact hshare, hneg⟩ hnot
              · rw [if_pos (by rw [hrest, h]; omega)]
                simp only [State.modifyCount, State.releaseShare, State.setSft, Function.update_self]
                rw [if_pos (by rw [h]; omega), h]
                exact hent.closed i
              · rw [if_neg (by rw [hrest, hneg]; omega)]
                exact congrArg (shareSlot · i) h
          · refine ⟨hchecked.jft, hchecked.cuPsp, htotal, fun _ h => (nomatch h), fun x hx => ?_⟩
            obtain rfl : (idx, result.toNat) = x := by simpa using hx
            exact ⟨hfree, hone, hother, hslot⟩

theorem getFreeSft_congr (hcount : ∀ i, (s'.sys.sft i).count = (s.sys.sft i).count)
    (htotal : s'.sys.total = s.sys.total) : s'.getFreeSft = s.getFreeSft := by
  rw [State.getFreeSft, State.getFreeSft, htotal]
  congr 1
  exact funext fun i => by rw [hcount]

/-- What comes before an open and touches none of that. -/
theorem HasOpened.of_untouched {r : Opened × State} (h : HasOpened s' r)
    (hu : Untouched s s') (hcu : s'.cuPsp = s.cuPsp) (htotal : s'.sys.total = s.sys.total) :
    HasOpened s r where
  jft := h.jft.trans hu.jft
  cuPsp := h.cuPsp.trans hcu
  total := h.total.trans htotal
  error e he := ⟨fun i => ((h.error e he).1 i).trans (hu.count i),
    fun i => ((h.error e he).2 i).trans (hu.share i)⟩
  ok x hx := by
    obtain ⟨hfree, hone, hother, j, hslot⟩ := h.ok x hx
    rw [getFreeSft_congr hu.count htotal] at hfree
    exact ⟨hfree, hone, fun i hi => (hother i hi).trans (hu.count i), j,
      fun i hi => (hslot i hi).trans (hu.share i)⟩

/-- The return value of `truename` has the bit `IS_NETWORK`. -/
def onNetwork (k : Env) (fname : Path.Str) : Prop :=
  (k.truename fname).1.toNat &&& Path.isNetworkBit ≠ 0

/-- The driver of the device that a name stands for. -/
def localDevice (k : Env) (fname : Path.Str) : Option Path.Dhdr :=
  let bits := (k.truename fname).1.toNat
  if bits &&& Path.isDeviceBit ≠ 0 ∧ bits &&& Path.isNetworkBit = 0 then k.isDevice fname else none

/-- The name stands for a device whose driver is asked and refuses to open it. -/
def Refused (k : Env) (fname : Path.Str) : Prop :=
  success ≤ (k.truename fname).1 ∧
    ∃ dhp, localDevice k fname = some dhp ∧ focrm dhp = true ∧ k.charIO dhp .open = false

/-- It is a request to open a file. -/
def RemCmd.opens : RemCmd → Bool
  | .create _ => true
  | .extoc .. => true
  | .open _ => true
  | .close => false
  | .flush => false

/-- A redirector counts the reference to a file that it opens, or leaves that to the kernel, and
drops it when it closes the file. -/
structure Env.Redirects (k : Env) : Prop where
  opened : ∀ cmd f r, cmd.opens = true → f.count = 0 → (k.redirector cmd f r).2.1.count ≤ 1
  refused : ∀ cmd f r, cmd.opens = true → f.count = 0 → (k.redirector cmd f r).1 < success →
    (k.redirector cmd f r).2.1.count = 0
  closed : ∀ f r, f.count ≠ 0 → (k.redirector .close f r).1 = success ∧
    (k.redirector .close f r).2.1.count = dec16 f.count

theorem remoteOpenSft_spec {idx : ℕ} (hk : k.Redirects) (hfree : s.getFreeSft = some idx)
    (flags attrib : ℕ) : HasOpened s (remoteOpenSft k s idx flags attrib) := by
  have hcount := (getFreeSft_some hfree).2
  simp only [remoteOpenSft]
  generalize hcmd : (if flags &&& oLegacy = 0 then _ else _ : RemCmd) = cmd
  have hopens : cmd.opens = true := by
    rw [← hcmd]
    split
    · rfl
    · split <;> rfl
  have hle := hk.opened cmd (s.sys.sft idx) (s.rest idx) hopens hcount
  have hzero := hk.refused cmd (s.sys.sft idx) (s.rest idx) hopens hcount
  generalize k.redirector cmd (s.sys.sft idx) (s.rest idx) = r at hle hzero ⊢
  split
  · refine ⟨?_, ?_, ?_, fun _ h => (nomatch h), fun x hx => ?_⟩
    · split <;> rfl
    · split <;> rfl
    · split <;> rfl
    · obtain rfl : (idx, r.1.toNat) = x := by simpa using hx
      refine ⟨hfree, ?_, fun i hi => ?_, 0, fun i _ => ?_⟩
      · split
        · rename_i h
          rw [modifyCount_count, if_pos rfl, h]
          rfl
        · rename_i h
          rw [setSft_count, if_pos rfl] at h ⊢
          omega
      · split
        · rw [modifyCount_count, if_neg hi, setSft_count, if_neg hi]
        · rw [setSft_count, if_neg hi]
      · split <;> rfl
  · rename_i hneg
    refine ⟨rfl, rfl, rfl, fun _ _ => ⟨fun i => ?_, fun _ => rfl⟩, fun _ h => (nomatch h)⟩
    rw [setSft_count]
    split
    · rename_i hi
      rw [hzero (Int.not_le.mp hneg), hi, hcount]
    · rfl

/-- **`DosOpenSft`** takes one SFT or none, unless a driver refuses. -/
theorem dosOpenSft_spec (hrefused : ¬ Refused k fname) (hremote : onNetwork k fname → k.Redirects)
    (s : State) (flags attrib : ℕ) : HasOpened s (dosOpenSft k s fname flags attrib) := by
  simp only [dosOpenSft]
  split
  · exact .refused s _
  · rename_i hcode
    split
    · exact .refused s _
    · rename_i idx hfree
      have hcount := (getFreeSft_some hfree).2
      generalize hs₁ : s.setSft idx _ _ = s₁
      have hu : Untouched s s₁ := by
        refine ⟨fun i => ?_, by rw [← hs₁]; rfl, fun i => by rw [← hs₁]; rfl⟩
        rw [← hs₁, setSft_count]
        split
        · rename_i hi
          rw [hi, hcount]
          rfl
        · rfl
      have hfree₁ : s₁.getFreeSft = some idx := by
        rw [getFreeSft_congr hu.count (by rw [← hs₁]; rfl), hfree]
      have hshroff : (s₁.rest idx).shroff = -1 := by
        rw [← hs₁]
        simp [State.setSft]
      refine HasOpened.of_untouched ?_ hu (by rw [← hs₁]; rfl) (by rw [← hs₁]; rfl)
      split
      · rename_i dhp hdhp
        have hopens : (focrm dhp && !k.charIO dhp .open) = false := by
          by_contra h
          rw [Bool.not_eq_false, Bool.and_eq_true, Bool.not_eq_true'] at h
          exact hrefused ⟨Int.not_lt.mp hcode, dhp, hdhp, h⟩
        simp only [deviceOpenSft, hopens, Bool.false_eq_true, if_false, Int.lt_irrefl]
        refine ⟨rfl, rfl, rfl, fun _ h => (nomatch h), fun x hx => ?_⟩
        obtain rfl : (idx, 0) = x := by simpa using hx
        refine ⟨hfree₁, ?_, fun i hi => ?_, 0, fun _ _ => rfl⟩
        · rw [setSft_count, if_pos rfl]
          dsimp only
          rw [(getFreeSft_some hfree₁).2]
          rfl
        · rw [setSft_count, if_neg hi]
      · split
        · rename_i hnet
          exact remoteOpenSft_spec (hremote hnet) hfree₁ _ _
        · exact localOpenSft_spec hfree₁ hshroff _ _ _

/-- If the driver refuses, the reference stays counted. -/
theorem dosOpenSft_refused {idx : ℕ} (hrefused : Refused k fname) (hfree : s.getFreeSft = some idx)
    (flags attrib : ℕ) : (dosOpenSft k s fname flags attrib).1 = some (.error deAccess) ∧
      ((dosOpenSft k s fname flags attrib).2.sys.sft idx).count = 1 := by
  obtain ⟨hcode, dhp, hdhp, hfocrm, hio⟩ := hrefused
  have hanswer : (focrm dhp && !k.charIO dhp .open) = true := by rw [hfocrm, hio]; rfl
  rw [localDevice] at hdhp
  simp only [dosOpenSft, if_neg (Int.not_lt.mpr hcode), hfree, hdhp, deviceOpenSft, hanswer, if_true]
  refine ⟨congrArg some (if_pos (by decide)), ?_⟩
  rw [setSft_count, if_pos rfl]
  simp [State.setSft, zeroSft]
  decide

/-- What an open of a handle comes to. -/
theorem dosOpen_cases (k : Env) (s : State) (fname : Path.Str) (mode attrib : ℕ) :
    ((mode &&& oInvalid ≠ 0 ∨ s.getFreeHndl = none) ∧
        ∃ e, dosOpen k s fname mode attrib = (some (.error e), s)) ∨
      ∃ hndl, mode &&& oInvalid = 0 ∧ s.getFreeHndl = some hndl ∧
        ((∃ x, (dosOpenSft k s fname mode attrib).1 = some (.ok x) ∧
          dosOpen k s fname mode attrib = (some (.ok (hndl, x.2)),
            (dosOpenSft k s fname mode attrib).2.setHandle
              (dosOpenSft k s fname mode attrib).2.cuPsp hndl (.ofNat x.1))) ∨
          (∀ x, (dosOpenSft k s fname mode attrib).1 ≠ some (.ok x)) ∧
            dosOpen k s fname mode attrib = dosOpenSft k s fname mode attrib) := by
  rw [dosOpen]
  split
  · rename_i hmode
    exact Or.inl ⟨Or.inl hmode, _, rfl⟩
  · rename_i hmode
    split
    · rename_i hfree
      exact Or.inl ⟨Or.inr hfree, _, rfl⟩
    · rename_i hndl hfree
      refine Or.inr ⟨hndl, not_not.mp hmode, hfree, ?_⟩
      generalize dosOpenSft k s fname mode attrib = r
      dsimp only
      split
      · rename_i x hx
        exact Or.inl ⟨x, hx, rfl⟩
      · rename_i hx
        exact Or.inr ⟨hx, rfl⟩

theorem HasOpened.allOrNothing {r : Opened × State} (h : HasOpened s r) : AllOrNothing s r := by
  refine ⟨fun e he => ⟨(h.error e he).1, h.jft, (h.error e he).2⟩, fun x hx => ?_⟩
  obtain ⟨hfree, hone, hother, hslot⟩ := h.ok x hx
  obtain ⟨hlt, hcount⟩ := getFreeSft_some hfree
  exact ⟨⟨x.1, hlt, hcount, hone, hother⟩, ⟨0, 0, fun _ _ _ => by rw [h.jft]⟩, hslot⟩

/-- Setting one more handle. -/
theorem Taken.setHandle {s' : State} (h : Taken s s') (hjft : s'.jft = s.jft) (p : Seg) (hndl : ℕ)
    (b : UInt8) : Taken s (s'.setHandle p hndl b) := by
  refine ⟨h.count, ⟨p, hndl, fun p' hndl' hne => ?_⟩, h.share⟩
  simp only [State.setHandle]
  by_cases hp : p' = p
  · subst hp
    have : hndl ≠ hndl' := fun hh => hne (by rw [hh])
    rw [Function.update_self, List.getElem?_set_ne this, hjft]
  · rw [Function.update_of_ne hp, hjft]

/-- **An open is all or nothing exactly if no driver is asked that refuses.**  One is asked if there
is an SFT and, for `DosOpen`, a handle, and the mode is valid. -/
theorem allOrNothing_iff (k : Env) (s : State) (fname : Path.Str) (flags attrib : ℕ)
    (hlocal : ¬ onNetwork k fname) :
    (AllOrNothing s (dosOpenSft k s fname flags attrib) ↔
      ¬ (Refused k fname ∧ s.getFreeSft.isSome)) ∧
    (AllOrNothing s (dosOpen k s fname flags attrib) ↔
      ¬ (Refused k fname ∧ s.getFreeSft.isSome ∧ s.getFreeHndl.isSome ∧
        flags &&& oInvalid = 0)) := by
  have hleak (hr : Refused k fname) (hfree : s.getFreeSft.isSome) :
      ¬ AllOrNothing s (dosOpenSft k s fname flags attrib) := by
    intro h
    obtain ⟨idx, hidx⟩ := Option.isSome_iff_exists.mp hfree
    obtain ⟨hres, hone⟩ := dosOpenSft_refused hr hidx flags attrib
    have := (h.1 _ hres).count idx
    rw [hone, (getFreeSft_some hidx).2] at this
    exact absurd this (by decide)
  have hopened (hr : ¬ (Refused k fname ∧ s.getFreeSft.isSome)) :
      HasOpened s (dosOpenSft k s fname flags attrib) := by
    by_cases hrefused : Refused k fname
    · have hnone : s.getFreeSft = none := by
        rw [← Option.not_isSome_iff_eq_none]
        exact fun h => hr ⟨hrefused, h⟩
      simp only [dosOpenSft, if_neg (Int.not_lt.mpr hrefused.1), hnone]
      exact .refused s _
    · exact dosOpenSft_spec hrefused (fun h => absurd h hlocal) s flags attrib
  refine ⟨⟨fun h hr => hleak hr.1 hr.2 h, fun hr => (hopened hr).allOrNothing⟩, ?_⟩
  rcases dosOpen_cases k s fname flags attrib with
    ⟨hwhy, e, he⟩ | ⟨hndl, hmode, hfree, ⟨x, hx, he⟩ | ⟨hx, he⟩⟩
  · rw [he]
    refine ⟨fun _ hr => ?_, fun _ => (HasOpened.refused s e).allOrNothing⟩
    rcases hwhy with h | h
    · exact h hr.2.2.2
    · rw [h] at hr
      exact absurd hr.2.2.1 Bool.false_ne_true
  · have hnot : ¬ (Refused k fname ∧ s.getFreeSft.isSome) := by
      rintro ⟨hr, hsome⟩
      obtain ⟨idx, hidx⟩ := Option.isSome_iff_exists.mp hsome
      rw [(dosOpenSft_refused hr hidx flags attrib).1] at hx
      exact (nomatch hx)
    refine ⟨fun _ hr => hnot ⟨hr.1, hr.2.1⟩, fun _ => ?_⟩
    have h := hopened hnot
    rw [he]
    exact ⟨fun _ h => (nomatch h), fun _ _ => (h.allOrNothing.2 x hx).setHandle h.jft _ _ _⟩
  · rw [he]
    exact ⟨fun h hr => hleak hr.1 hr.2.1 h, fun hr => (hopened fun h =>
      hr ⟨h.1, h.2, by rw [hfree]; rfl, hmode⟩).allOrNothing⟩

/-! ## A device that does not open -/

/-- `AUX`, which takes open and close requests. -/
def aux : Path.Dhdr where
  attr := 0x8800
  name := ⟨#[0x41, 0x55, 0x58, 0x20, 0x20, 0x20, 0x20, 0x20], rfl⟩

/-- Every name is that of `AUX`, whose driver answers `answer`. -/
def auxEnv (answer : Bool) : Env where
  truename := fun _ => (0x20, Share.fileA)
  isDevice := fun _ => some aux
  charIO := fun _ _ => answer
  redirector := fun _ f r => (deAccess, f, r)
  upFChar := id

/-- Two SFTs, neither of which is open, and a process with two handles. -/
def smallState : State where
  sys := File.smallSystem (File.smallVolume (fun _ => Fat.free) []) zeroSft zeroSft
  rest := fun _ => ⟨false, none, -1, 0⟩
  share := Share.initTables 1 1
  jft := fun p => if p = 0 then [0xff, 0xff] else []
  cuPsp := 0

theorem auxEnv_local (answer : Bool) (fname : Path.Str) : ¬ onNetwork (auxEnv answer) fname :=
  not_not.mpr (show (0x20 : ℕ) &&& Path.isNetworkBit = 0 by decide)

theorem allOrNothing_iff_aux : ¬ onNetwork (auxEnv true) [0x41, 0x55, 0x58] ∧
    ((AllOrNothing smallState (dosOpenSft (auxEnv true) smallState [0x41, 0x55, 0x58] 2 0) ↔
      ¬ (Refused (auxEnv true) [0x41, 0x55, 0x58] ∧ smallState.getFreeSft.isSome)) ∧
    (AllOrNothing smallState (dosOpen (auxEnv true) smallState [0x41, 0x55, 0x58] 2 0) ↔
      ¬ (Refused (auxEnv true) [0x41, 0x55, 0x58] ∧ smallState.getFreeSft.isSome ∧
        smallState.getFreeHndl.isSome ∧ 2 &&& oInvalid = 0))) :=
  ⟨auxEnv_local true _, allOrNothing_iff (auxEnv true) smallState [0x41, 0x55, 0x58] 2 0
    (auxEnv_local true _)⟩

/-- `AUX` refuses, and its SFT has a reference that belongs to nobody. -/
theorem aux_not_allOrNothing : ¬ ∀ (k : Env) (s : State) (fname : Path.Str) (flags attrib : ℕ),
    ¬ onNetwork k fname → AllOrNothing s (dosOpenSft k s fname flags attrib) ∧
      AllOrNothing s (dosOpen k s fname flags attrib) := by
  intro h
  have hall := (h (auxEnv false) smallState [0x41, 0x55, 0x58] 2 0 (auxEnv_local false _)).1
  have hres : (dosOpenSft (auxEnv false) smallState [0x41, 0x55, 0x58] 2 0).1 =
      some (.error deAccess) := by decide +kernel
  have hcount := (hall.1 _ hres).count 0
  revert hcount
  decide +kernel

end Handle
end BurdahDos
