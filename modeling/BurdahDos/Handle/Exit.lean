import BurdahDos.Fcbs.Defs
import BurdahDos.Handle.References
import Mathlib

/-!
# Files at the end of a process

A process opens files by handle and by FCB.  An FCB is in the memory of the process; the SFT it
stands for has `O_FCB` in its mode and the PSP of the process, and counts one reference that no
handle holds.  `return_user` closes the handles of the process and then looks for such SFTs
(`FcbCloseAll`).

It looks for them with `idx_to_sft`, which takes an SFT that is not in use for the end of the table.
So it finds them all exactly if none of them is behind a free SFT by then (`returnUser_cleans`).
-/

set_option autoImplicit false

namespace BurdahDos
namespace Handle

open File (System Sft FNode success deAccess deInvldHndl)
open Fcbs (Fcb fcbSuccess fcbError)
open Share (inc16 dec16)

/-! ## The code -/

/-- `FcbOpen`, on the name and drive of the FCB.  `fcb_curec` and `fcb_rndm` "should not be cleared,
programs e.g. GEM depend on these values remaining unchanged". -/
def fcbOpen (k : Env) (s : State) (fcb : Fcb) (secPathName : Path.Str) (fcbDrive flags attr : ℕ) :
    Option UInt8 × Fcb × State :=
  let r := dosOpenSft k s secPathName flags attr
  match r.1 with
  | none => (none, fcb, r.2)
  | some (.error _) => (some fcbError, fcb, r.2)
  | some (.ok (idx, _)) =>
    let sft := r.2.sys.sft idx
    let s := r.2.setSft idx { sft with mode := sft.mode ||| Dir.oFcb } (r.2.rest idx)
    let isDevice := (s.rest idx).dev.isSome
    (some fcbSuccess,
      { fcb with
        drive := if isDevice then fcb.drive else fcbDrive
        sftno := .ofNat idx
        cublock := 0
        recsiz := if isDevice then 0 else 128
        fsize := sft.size
        date := sft.date
        time := sft.time }, s)

/-- `DosSetFtimeSft`, on an SFT that is open. -/
def dosSetFtimeSft (s : State) (idx date time : ℕ) : State :=
  if (s.rest idx).dev.isSome then s
  else s.setSft idx { s.sys.sft idx with fdate := true, date := date, time := time } (s.rest idx)

/-- `FcbClose`.  "An already closed FCB can be closed again without error." -/
def fcbClose (k : Env) (s : State) (fcb : Fcb) : UInt8 × Fcb × State :=
  let idx := fcb.sftno.toNat
  if fcb.sftno = 0xff then (fcbSuccess, fcb, s)
  else if !s.isOpen idx then (fcbError, fcb, s)
  else
    let s := s.setSft idx { s.sys.sft idx with size := fcb.fsize } (s.rest idx)
    let s := if (s.rest idx).fshared then s
      else { s with sys := File.mergeFileChanges s.sys (File.sftToFnode s.sys idx) }
    let r := dosCloseSft k (dosSetFtimeSft s idx fcb.date fcb.time) idx false
    if r.1 = success then (fcbSuccess, { fcb with sftno := 0xff }, r.2) else (fcbError, fcb, r.2)

/-- An SFT that the process has open by FCB, if it is open. -/
def State.ownFcb (s : State) (idx : ℕ) : Bool :=
  (s.sys.sft idx).mode &&& Dir.oFcb != 0 && (s.rest idx).psp == s.cuPsp

/-- The loop of `FcbCloseAll`, for `n` SFTs from `idx` on.  Behind the last one of the table
`idx_to_sft` finds nothing. -/
def fcbCloseFrom (k : Env) : ℕ → ℕ → State → State
  | 0, _, s => s
  | n + 1, idx, s =>
    if s.isOpen idx then
      fcbCloseFrom k n (idx + 1) (if s.ownFcb idx then (dosCloseSft k s idx false).2 else s)
    else s

/-- `FcbCloseAll`: close all files the current process opened by FCBs. -/
def fcbCloseAll (k : Env) (s : State) : State := fcbCloseFrom k s.sys.total 0 s

/-- `return_user`, the loop over the handles. -/
def closeHandles (k : Env) (s : State) : State :=
  (List.range (s.jft s.cuPsp).length).foldl (fun s i => (dosClose k s i).2) s

/-- What `return_user` does to files, without a network redirector.  A process stays resident with
`term_type` 3, and a shell is its own parent. -/
def returnUser (k : Env) (s : State) (termType : ℕ) (psParent : Seg) : State :=
  { if termType ≠ 3 ∧ psParent ≠ s.cuPsp then fcbCloseAll k (closeHandles k s) else s with
    cuPsp := psParent }

variable {s s' : State} {k : Env} {idx : ℕ}

/-! ## Whose SFTs they are -/

/-- The bit `O_FCB` and the PSP of each SFT are the same. -/
structure SameOwners (s s' : State) : Prop where
  mode : ∀ i, (s'.sys.sft i).mode &&& Dir.oFcb = (s.sys.sft i).mode &&& Dir.oFcb
  psp : ∀ i, (s'.rest i).psp = (s.rest i).psp

theorem SameOwners.refl (s : State) : SameOwners s s := ⟨fun _ => rfl, fun _ => rfl⟩

theorem SameOwners.trans {s'' : State} (h : SameOwners s s') (h' : SameOwners s' s'') :
    SameOwners s s'' :=
  ⟨fun i => (h'.mode i).trans (h.mode i), fun i => (h'.psp i).trans (h.psp i)⟩

/-- A redirector does not make a file that of another process or an FCB's. -/
def Env.KeepsOwners (k : Env) : Prop :=
  ∀ cmd f r, (k.redirector cmd f r).2.1.mode &&& Dir.oFcb = f.mode &&& Dir.oFcb ∧
    (k.redirector cmd f r).2.2.psp = r.psp

/-- An SFT is written that stays its owner's. -/
theorem sameOwners_setSft {f : Sft} {r : Rest}
    (hmode : f.mode &&& Dir.oFcb = (s.sys.sft idx).mode &&& Dir.oFcb)
    (hpsp : r.psp = (s.rest idx).psp) : SameOwners s (s.setSft idx f r) := by
  refine ⟨fun i => ?_, fun i => ?_⟩ <;> simp only [State.setSft]
  · by_cases h : i = idx
    · rw [h, Function.update_self, hmode]
    · rw [Function.update_of_ne h]
  · by_cases h : i = idx
    · rw [h, Function.update_self, hpsp]
    · rw [Function.update_of_ne h]

theorem sameOwners_modifyCount (s : State) (idx : ℕ) (f : ℕ → ℕ) :
    SameOwners s (s.modifyCount idx f) :=
  sameOwners_setSft rfl rfl

/-- The file system writes no modes. -/
theorem sameOwners_sys {sys : System} (h : ∀ i, (sys.sft i).mode = (s.sys.sft i).mode) :
    SameOwners s { s with sys := sys } :=
  ⟨fun i => congrArg (· &&& Dir.oFcb) (h i), fun _ => rfl⟩

theorem fnodeToSft_mode (s : System) (fnp : FNode) (i : ℕ) :
    ((File.fnodeToSft s fnp).sft i).mode = (s.sft i).mode := by
  by_cases h : i = fnp.sftIdx
  · simp [File.fnodeToSft, h]
  · simp [File.fnodeToSft, Function.update_of_ne h]

theorem mergeFileChanges_mode (s : System) (fnp : FNode) (i : ℕ) :
    ((File.mergeFileChanges s fnp).sft i).mode = (s.sft i).mode := by
  dsimp only [File.mergeFileChanges]
  split <;> rfl

theorem dirOpen_mode (s : System) (path : Dir.Path) (flags : ℕ) (attrib : UInt8) (fd i : ℕ) :
    ((Dir.dosOpen s path flags attrib fd).2.sft i).mode = (s.sft i).mode := by
  rw [Dir.dosOpen]
  dsimp only
  split
  · rfl
  · split
    · rfl
    · split
      · exact fnodeToSft_mode ..
      · split
        · rfl
        · exact (fnodeToSft_mode ..).trans (mergeFileChanges_mode ..)

theorem dirClose_mode (s : System) (fd i : ℕ) :
    ((Dir.dosClose s fd).2.sft i).mode = (s.sft i).mode := by
  have hmerge (c : Prop) [Decidable c] (fnp : FNode) :
      ((if c then s else File.mergeFileChanges s fnp).sft i).mode = (s.sft i).mode := by
    split
    · rfl
    · exact mergeFileChanges_mode ..
  rw [Dir.dosClose]
  exact hmerge _ _

theorem sameOwners_releaseShare (s : State) (idx : ℕ) : SameOwners s (s.releaseShare idx) := by
  have h : SameOwners s (s.setSft idx (s.sys.sft idx) { s.rest idx with shroff := -1 }) :=
    sameOwners_setSft rfl rfl
  exact ⟨h.mode, h.psp⟩

theorem dosCloseSft_owners (hk : k.KeepsOwners) (s : State) (idx : ℕ) (commitonly : Bool) :
    SameOwners s (dosCloseSft k s idx commitonly).2 := by
  rw [dosCloseSft]
  split
  · exact .refl s
  · split
    · exact sameOwners_setSft (hk ..).1 (hk ..).2
    · split
      · split
        · exact .refl s
        · dsimp only
          split
          · exact .refl s
          · exact sameOwners_modifyCount ..
      · have hsys : SameOwners s { s with sys := (Dir.dosClose s.sys idx).2 } :=
          sameOwners_sys (dirClose_mode s.sys idx)
        dsimp only
        split
        · exact hsys
        · split
          · exact hsys.trans ((sameOwners_releaseShare ..).trans (sameOwners_modifyCount ..))
          · exact hsys.trans (sameOwners_modifyCount ..)

theorem dosClose_owners (hk : k.KeepsOwners) (s : State) (hndl : ℕ) :
    SameOwners s (dosClose k s hndl).2 := by
  rw [dosClose]
  split
  · exact .refl s
  · exact ⟨(dosCloseSft_owners hk ..).mode, (dosCloseSft_owners hk ..).psp⟩

/-! ## The account -/

/-- The SFT was opened by FCB. -/
def State.byFcb (s : State) (idx : ℕ) : Prop := (s.sys.sft idx).mode &&& Dir.oFcb ≠ 0

instance (s : State) (idx : ℕ) : Decidable (s.byFcb idx) := inferInstanceAs (Decidable (_ ≠ _))

/-- The references to an SFT are its handles; one that was opened by FCB has no handles, and one
reference or none. -/
structure Accounted (s : State) : Prop where
  handle : ∀ idx < s.sys.total, ¬ s.byFcb idx →
    (s.sys.sft idx).count = s.handles idx ∧ (s.sys.sft idx).count < 2 ^ 16
  fcb : ∀ idx < s.sys.total, s.byFcb idx → s.handles idx = 0 ∧ (s.sys.sft idx).count ≤ 1

theorem Accounted.word (h : Accounted s) (hidx : idx < s.sys.total) :
    (s.sys.sft idx).count < 2 ^ 16 := by
  by_cases hfcb : s.byFcb idx
  · have := (h.fcb idx hidx hfcb).2
    omega
  · exact (h.handle idx hidx hfcb).2

/-- The number of handles of a process that hold an SFT. -/
def State.handlesOf (s : State) (p : Seg) (idx : ℕ) : ℕ := (s.jft p).countP (holds idx)

/-- The number of handles of the other processes that hold an SFT. -/
def State.others (s : State) (idx : ℕ) : ℕ := ∑ p ∈ Finset.univ.erase s.cuPsp, s.handlesOf p idx

theorem handles_eq (s : State) (idx : ℕ) :
    s.handles idx = s.handlesOf s.cuPsp idx + s.others idx :=
  (Finset.add_sum_erase _ _ (Finset.mem_univ _)).symm

theorem others_congr (hcu : s'.cuPsp = s.cuPsp) (hjft : ∀ p ≠ s.cuPsp, s'.jft p = s.jft p)
    (idx : ℕ) : s'.others idx = s.others idx := by
  rw [State.others, State.others, hcu]
  refine Finset.sum_congr rfl fun p hp => ?_
  rw [State.handlesOf, State.handlesOf, hjft p (Finset.ne_of_mem_erase hp)]

theorem byFcb_congr (h : SameOwners s s') (idx : ℕ) : s'.byFcb idx ↔ s.byFcb idx := by
  rw [State.byFcb, State.byFcb, h.mode]

/-- An SFT that a handle holds was not opened by FCB. -/
theorem Accounted.not_byFcb (h : Accounted s) {p : Seg} {b : UInt8} (hb : b ∈ s.jft p)
    (hholds : holds idx b = true) (hidx : idx < s.sys.total) : ¬ s.byFcb idx := by
  intro hfcb
  have hzero := (h.fcb idx hidx hfcb).1
  rw [State.handles, Finset.sum_eq_zero_iff] at hzero
  exact List.countP_eq_zero.mp (hzero p (Finset.mem_univ p)) b hb hholds

/-! ## Closing the handles -/

/-- A close by handle. -/
theorem Accounted.dosClose (h : Accounted s) (hw : Works s k) (hk : k.KeepsOwners) {hndl : ℕ}
    (hidx : s.getSft hndl = some idx) : Accounted (Handle.dosClose k s hndl).2 := by
  have hclosed := dosClose_spec hw hidx
  have howners := dosClose_owners hk s hndl
  obtain ⟨b, hb, hholds, hopen⟩ := getSft_some hidx
  obtain ⟨hlt, hcount⟩ := isOpen_iff.mp hopen
  have hbal := hclosed.balanced hidx (h.word hlt)
  have hnot := h.not_byFcb (List.mem_of_getElem? hb) hholds hlt
  have hdec := Share.dec16_eq (Nat.pos_of_ne_zero hcount) (h.word hlt)
  have hsum := hclosed.count
  generalize Handle.dosClose k s hndl = r at hbal howners hsum
  refine ⟨fun i hi hi' => ?_, fun i hi hi' => ?_⟩ <;> rw [hbal.total] at hi <;>
    rw [byFcb_congr howners] at hi' <;> have hs := hbal.surplus i hi <;>
    rw [State.surplus, State.surplus] at hs
  · have heq := h.handle i hi hi'
    have hword := h.word hlt
    refine ⟨by omega, ?_⟩
    rw [hsum, hdec]
    split <;> omega
  · have heq := h.fcb i hi hi'
    have hne : i ≠ idx := fun hne => hnot (hne ▸ hi')
    rw [hsum, if_neg hne] at hs ⊢
    omega

/-- What the first `n` rounds of the loop over the handles come to. -/
structure HandlesClosed (s : State) (n : ℕ) (s' : State) : Prop where
  accounted : Accounted s'
  owners : SameOwners s s'
  vol : Dir.Sound s'.sys.vol
  total : s'.sys.total = s.sys.total
  cuPsp : s'.cuPsp = s.cuPsp
  jft : ∀ p ≠ s.cuPsp, s'.jft p = s.jft p
  length : (s'.jft s.cuPsp).length = (s.jft s.cuPsp).length
  closed : ∀ i < n, s'.getSft i = none
  fcb : ∀ i < s.sys.total, s.byFcb i → (s'.sys.sft i).count = (s.sys.sft i).count

theorem dosCloseSft_vol (hs : Dir.Sound s.sys.vol) (idx : ℕ) :
    Dir.Sound (dosCloseSft k s idx false).2.sys.vol := by
  rw [dosCloseSft]
  split
  · exact hs
  · split
    · exact hs
    · split
      · split <;> exact hs
      · dsimp only
        split
        · exact Dir.dosClose_vol hs idx
        · split <;> exact Dir.dosClose_vol hs idx

theorem dosClose_vol (hs : Dir.Sound s.sys.vol) (hndl : ℕ) :
    Dir.Sound (dosClose k s hndl).2.sys.vol := by
  rw [dosClose]
  split
  · exact hs
  · exact dosCloseSft_vol (s := s.setHandle s.cuPsp hndl 0xff) hs _

theorem getSft_eq_none {hndl : ℕ} : s.getSft hndl = none ↔
    ∀ b, (s.jft s.cuPsp)[hndl]? = some b → b ≠ 0xff → s.isOpen b.toNat = false := by
  rw [State.getSft]
  cases (s.jft s.cuPsp)[hndl]? with
  | none => simp
  | some b =>
    by_cases hb : b = 0xff
    · simp [hb]
    · cases s.isOpen b.toNat <;> simp [hb]

/-- A handle without an SFT has none after a close. -/
theorem HasClosed.getSft_none {hndl i : ℕ} {r : ℤ × State} (h : HasClosed s hndl idx r)
    (hopen : (s.sys.sft idx).count ≠ 0)
    (hi : i = hndl ∨ s.getSft i = none) : r.2.getSft i = none := by
  rw [getSft_eq_none, h.cuPsp, h.jft]
  simp only [State.setHandle, Function.update_self]
  intro b hb hff
  by_cases hn : hndl = i
  · subst hn
    rw [List.getElem?_set_self'] at hb
    cases hs : (s.jft s.cuPsp)[hndl]? with
    | none => rw [hs] at hb; cases hb
    | some c =>
      rw [hs] at hb
      exact absurd (Option.some.inj hb).symm hff
  · rw [List.getElem?_set_ne hn] at hb
    have hclosed := getSft_eq_none.mp (hi.resolve_left (Ne.symm hn)) b hb hff
    rw [State.isOpen, h.total, h.count]
    rw [State.isOpen] at hclosed
    split
    · rename_i hb'
      have hge : ¬ idx < s.sys.total := by simpa [hb', hopen] using hclosed
      rw [hb', decide_eq_false hge]
      rfl
    · exact hclosed

/-- A round of the loop over the handles. -/
theorem HandlesClosed.round {n : ℕ} (h : HandlesClosed s n s') (hw : Works s k)
    (hk : k.KeepsOwners) : HandlesClosed s (n + 1) (dosClose k s' n).2 := by
  have hw' : Works s' k := ⟨hw.charIO, hw.redirects, h.vol⟩
  cases hidx : s'.getSft n with
  | none =>
    rw [dosClose_none hidx]
    refine ⟨h.accounted, h.owners, h.vol, h.total, h.cuPsp, h.jft, h.length, fun i hi => ?_, h.fcb⟩
    rcases Nat.lt_succ_iff_lt_or_eq.mp hi with hi | rfl
    · exact h.closed i hi
    · exact hidx
  | some idx =>
    have hclosed := dosClose_spec hw' hidx
    have haccounted := h.accounted.dosClose hw' hk hidx
    have howners := dosClose_owners hk s' n
    have hvol := dosClose_vol (k := k) h.vol n
    obtain ⟨b, hb, hholds, hopen⟩ := getSft_some hidx
    obtain ⟨hlt, hcount⟩ := isOpen_iff.mp hopen
    have hnot := h.accounted.not_byFcb (List.mem_of_getElem? hb) hholds hlt
    generalize dosClose k s' n = r at hclosed haccounted howners hvol
    refine ⟨haccounted, h.owners.trans howners, hvol, hclosed.total.trans h.total,
      hclosed.cuPsp.trans h.cuPsp, fun p hp => ?_, ?_, fun i hi => ?_, fun i hi hfcb => ?_⟩
    · simp only [hclosed.jft, h.cuPsp, State.setHandle, Function.update_of_ne hp, h.jft p hp]
    · simp only [hclosed.jft, h.cuPsp, State.setHandle, Function.update_self, List.length_set,
        h.length]
    · refine hclosed.getSft_none hcount ?_
      rcases Nat.lt_succ_iff_lt_or_eq.mp hi with hi | rfl
      · exact Or.inr (h.closed i hi)
      · exact Or.inl rfl
    · have hne : i ≠ idx := fun hne => hnot (hne ▸ (byFcb_congr h.owners i).mpr hfcb)
      rw [hclosed.count, if_neg hne, h.fcb i hi hfcb]

/-- **What the loop over the handles does.** -/
theorem closeHandles_spec (h : Accounted s) (hw : Works s k) (hk : k.KeepsOwners) :
    HandlesClosed s (s.jft s.cuPsp).length (closeHandles k s) := by
  rw [closeHandles]
  generalize (s.jft s.cuPsp).length = n
  induction n with
  | zero =>
    exact ⟨h, .refl s, hw.sound, rfl, rfl, fun _ _ => rfl, rfl, fun _ hi => absurd hi (by omega),
      fun _ _ _ => rfl⟩
  | succ n ih =>
    rw [List.range_succ, List.foldl_append]
    exact ih.round hw hk

/-- Then the process has no handle of an SFT that is open. -/
theorem HandlesClosed.handles {s' : State} (h : HandlesClosed s (s.jft s.cuPsp).length s')
    (hidx : idx < s.sys.total) : s'.handles idx = s.others idx := by
  rw [handles_eq, others_congr h.cuPsp h.jft]
  have hidx' : idx < s'.sys.total := h.total.symm ▸ hidx
  by_cases hzero : s'.handlesOf s'.cuPsp idx = 0
  · rw [hzero, Nat.zero_add]
  · obtain ⟨b, hb, hholds⟩ := List.countP_pos_iff.mp (Nat.pos_of_ne_zero hzero)
    obtain ⟨i, hi, rfl⟩ := List.getElem_of_mem hb
    have hnot := h.accounted.not_byFcb hb hholds hidx'
    have hcount := (h.accounted.handle idx hidx' hnot).1
    rw [handles_eq] at hcount
    rw [holds, Bool.and_eq_true, bne_iff_ne, beq_iff_eq] at hholds
    have hi' : i < (s.jft s.cuPsp).length := by
      rw [← h.length, ← h.cuPsp]
      exact hi
    -- its slot would have been cleared
    have hclosed := getSft_eq_none.mp (h.closed i hi') _ (List.getElem?_eq_getElem hi) hholds.1
    rw [hholds.2, State.isOpen, decide_eq_true hidx', Bool.true_and, bne_eq_false_iff_eq] at hclosed
    omega

/-! ## Closing the SFTs of FCBs -/

theorem ownFcb_congr (h : SameOwners s s') (hcu : s'.cuPsp = s.cuPsp) (idx : ℕ) :
    s'.ownFcb idx = s.ownFcb idx := by
  rw [State.ownFcb, State.ownFcb, h.mode, h.psp, hcu]

/-- What one round of the loop of `FcbCloseAll` comes to, on an SFT that is open. -/
structure HasSwept (s : State) (idx : ℕ) (s' : State) : Prop where
  owners : SameOwners s s'
  vol : Dir.Sound s'.sys.vol
  jft : s'.jft = s.jft
  cuPsp : s'.cuPsp = s.cuPsp
  total : s'.sys.total = s.sys.total
  self : (s'.sys.sft idx).count = if s.ownFcb idx then 0 else (s.sys.sft idx).count
  other : ∀ i ≠ idx, (s'.sys.sft i).count = (s.sys.sft i).count

theorem sweep_spec (hw : Works s k) (hk : k.KeepsOwners) (hopen : s.isOpen idx = true)
    (hone : s.ownFcb idx = true → (s.sys.sft idx).count ≤ 1) :
    HasSwept s idx (if s.ownFcb idx then (dosCloseSft k s idx false).2 else s) := by
  cases hown : s.ownFcb idx with
  | false =>
    exact ⟨.refl s, hw.sound, rfl, rfl, rfl, by rw [hown]; rfl, fun _ _ => rfl⟩
  | true =>
    have hdropped := dosCloseSft_spec hw hopen
    have hcount : (s.sys.sft idx).count = 1 := by
      have := (isOpen_iff.mp hopen).2
      have := hone hown
      omega
    refine ⟨dosCloseSft_owners hk s idx false, dosCloseSft_vol hw.sound idx, hdropped.jft,
      hdropped.cuPsp, hdropped.total, ?_, fun i hi => ?_⟩
    · rw [hown, if_pos rfl]
      exact (hdropped.count idx).trans (by rw [if_pos rfl, hcount]; rfl)
    · exact (hdropped.count i).trans (if_neg hi)

/-- The loop, from `idx` to `e`, comes to the SFT `i`, and it is the process's. -/
def State.reaches (s : State) (idx e i : ℕ) : Prop :=
  s.ownFcb i = true ∧ i ∈ Set.Ico idx e ∧ ∀ j ∈ Set.Icc idx i, s.isOpen j = true

/-- What the loop of `FcbCloseAll` comes to for the SFTs from `idx` to `e`. -/
structure Swept (s : State) (idx e : ℕ) (s' : State) : Prop where
  owners : SameOwners s s'
  jft : s'.jft = s.jft
  total : s'.sys.total = s.sys.total
  closed : ∀ i, s.reaches idx e i → (s'.sys.sft i).count = 0
  other : ∀ i, ¬ s.reaches idx e i → (s'.sys.sft i).count = (s.sys.sft i).count

/-- One round and the rest. -/
theorem HasSwept.trans {s'' : State} {e : ℕ} (h : HasSwept s idx s') (hopen : s.isOpen idx = true)
    (hlt : idx < e) (h' : Swept s' (idx + 1) e s'') : Swept s idx e s'' := by
  have hown := ownFcb_congr h.owners h.cuPsp
  have hlater : ∀ j, j ≠ idx → s'.isOpen j = s.isOpen j := by
    intro j hj
    rw [State.isOpen, State.isOpen, h.total, h.other j hj]
  have hreach : ∀ i, i ≠ idx → (s'.reaches (idx + 1) e i ↔ s.reaches idx e i) := by
    intro i hi
    rw [State.reaches, State.reaches, hown]
    refine and_congr_right fun _ => ⟨fun h => ⟨⟨?_, h.1.2⟩, fun j hj => ?_⟩,
      fun h => ⟨⟨?_, h.1.2⟩, fun j hj => ?_⟩⟩
    · have := h.1.1
      omega
    · by_cases hjx : j = idx
      · exact hjx ▸ hopen
      · rw [← hlater j hjx]
        exact h.2 j ⟨by have := hj.1; omega, hj.2⟩
    · have := h.1.1
      omega
    · have hjx := hj.1
      rw [hlater j (by omega)]
      exact h.2 j ⟨by omega, hj.2⟩
  have hself : ¬ s'.reaches (idx + 1) e idx := fun hr => by
    have := hr.2.1.1
    omega
  refine ⟨h.owners.trans h'.owners, h'.jft.trans h.jft, h'.total.trans h.total, fun i hi => ?_,
    fun i hi => ?_⟩
  · by_cases hix : i = idx
    · rw [hix, h'.other idx hself, h.self, if_pos (hix ▸ hi.1)]
    · exact h'.closed i ((hreach i hix).mpr hi)
  · by_cases hix : i = idx
    · subst hix
      rw [h'.other i hself, h.self, if_neg]
      intro ho
      refine hi ⟨ho, ⟨Nat.le_refl i, hlt⟩, fun j hj => ?_⟩
      rw [Nat.le_antisymm hj.2 hj.1]
      exact hopen
    · rw [h'.other i fun hr => hi ((hreach i hix).mp hr), h.other i hix]

/-- **What the loop of `FcbCloseAll` does**: it closes the SFTs of the process up to the first free
one. -/
theorem fcbCloseFrom_spec (hw : Works s k) (hk : k.KeepsOwners) (n idx : ℕ)
    (hone : ∀ i, s.isOpen i = true → s.ownFcb i = true → (s.sys.sft i).count ≤ 1) :
    Swept s idx (idx + n) (fcbCloseFrom k n idx s) := by
  induction n generalizing s idx with
  | zero =>
    refine ⟨.refl s, rfl, rfl, fun i hi => ?_, fun _ _ => rfl⟩
    have := hi.2.1.1
    have := hi.2.1.2
    omega
  | succ n ih =>
    rw [fcbCloseFrom]
    split
    · rename_i hopen
      have hround := sweep_spec hw hk hopen (hone idx hopen)
      generalize (if s.ownFcb idx then _ else _ : State) = s₁ at hround
      have hown := ownFcb_congr hround.owners hround.cuPsp
      have hrest := ih (s := s₁) ⟨hw.charIO, hw.redirects, hround.vol⟩ (idx + 1) fun i hi hi' => by
        rw [hown] at hi'
        by_cases hix : i = idx
        · rw [hix, hround.self, if_pos (hix ▸ hi')]
          exact Nat.zero_le 1
        · have hi₁ := isOpen_iff.mp hi
          rw [hround.total, hround.other i hix] at hi₁
          rw [hround.other i hix]
          exact hone i (isOpen_iff.mpr hi₁) hi'
      refine hround.trans hopen (by omega) ?_
      rwa [Nat.add_right_comm] at hrest
    · rename_i hclosed
      refine ⟨.refl s, rfl, rfl, fun i hi => ?_, fun _ _ => rfl⟩
      exact absurd (hi.2.2 idx ⟨Nat.le_refl _, hi.2.1.1⟩) hclosed

/-! ## `return_user` -/

theorem byFcb_of_ownFcb (h : s.ownFcb idx = true) : s.byFcb idx := by
  rw [State.ownFcb, Bool.and_eq_true, bne_iff_ne] at h
  exact h.1

theorem Accounted.one (h : Accounted s) (hopen : s.isOpen idx = true)
    (hown : s.ownFcb idx = true) : (s.sys.sft idx).count ≤ 1 :=
  (h.fcb idx (isOpen_iff.mp hopen).1 (byFcb_of_ownFcb hown)).2

/-- The account after `FcbCloseAll`. -/
theorem Swept.accounted {e : ℕ} (h : Accounted s) (hs : Swept s idx e s') : Accounted s' := by
  have hhandles : ∀ i, s'.handles i = s.handles i := fun i => by
    rw [State.handles, State.handles, hs.jft]
  refine ⟨fun i hi hi' => ?_, fun i hi hi' => ?_⟩ <;> rw [hs.total] at hi <;>
    rw [byFcb_congr hs.owners] at hi' <;> rw [hhandles]
  · rw [hs.other i fun hr => hi' (byFcb_of_ownFcb hr.1)]
    exact h.handle i hi hi'
  · refine ⟨(h.fcb i hi hi').1, ?_⟩
    by_cases hr : s.reaches idx e i
    · rw [hs.closed i hr]
      exact Nat.zero_le 1
    · rw [hs.other i hr]
      exact (h.fcb i hi hi').2

/-- The SFTs that the process opened by FCB are closed.  The SFTs that others opened have the
references that others have: their handles, or the one of an FCB. -/
structure Cleaned (s s' : State) : Prop where
  own : ∀ idx < s.sys.total, s'.byFcb idx → (s'.rest idx).psp = s.cuPsp →
    (s'.sys.sft idx).count = 0
  others : ∀ idx < s.sys.total, (s'.rest idx).psp ≠ s.cuPsp → (s'.sys.sft idx).count =
    s.others idx + if s.byFcb idx then (s.sys.sft idx).count else 0

/-- No SFT that the process has open by FCB is behind one that is free, or becomes free when the
handles of the process are closed. -/
def NoneBehindFree (s : State) : Prop :=
  ∀ idx < s.sys.total, s.ownFcb idx = true → (s.sys.sft idx).count ≠ 0 →
    ∀ j < idx, (s.sys.sft j).count ≠ s.handlesOf s.cuPsp j

/-- The references that are left when the handles of the process are closed. -/
theorem HandlesClosed.count (h : Accounted s) (hc : HandlesClosed s (s.jft s.cuPsp).length s')
    (hidx : idx < s.sys.total) : (s'.sys.sft idx).count = s.others idx +
      if s.byFcb idx then (s.sys.sft idx).count else 0 := by
  have hhandles := hc.handles hidx
  have hidx' : idx < s'.sys.total := hc.total.symm ▸ hidx
  split
  · rename_i hfcb
    have hzero := (h.fcb idx hidx hfcb).1
    rw [handles_eq] at hzero
    rw [hc.fcb idx hidx hfcb]
    omega
  · rename_i hfcb
    rw [(hc.accounted.handle idx hidx' fun h' => hfcb ((byFcb_congr hc.owners idx).mp h')).1]
    omega

theorem HandlesClosed.count_ne_zero (h : Accounted s)
    (hc : HandlesClosed s (s.jft s.cuPsp).length s') (hidx : idx < s.sys.total) :
    (s'.sys.sft idx).count ≠ 0 ↔ (s.sys.sft idx).count ≠ s.handlesOf s.cuPsp idx := by
  have hcount := hc.count h hidx
  by_cases hfcb : s.byFcb idx
  · have hzero := (h.fcb idx hidx hfcb).1
    rw [handles_eq] at hzero
    rw [if_pos hfcb] at hcount
    omega
  · have heq := (h.handle idx hidx hfcb).1
    rw [handles_eq] at heq
    rw [if_neg hfcb] at hcount
    omega

/-- `FcbCloseAll` after the loop over the handles. -/
theorem fcbCloseAll_spec (h : Accounted s) (hw : Works s k) (hk : k.KeepsOwners) :
    HandlesClosed s (s.jft s.cuPsp).length (closeHandles k s) ∧
      Swept (closeHandles k s) 0 s.sys.total (fcbCloseAll k (closeHandles k s)) := by
  have hc := closeHandles_spec h hw hk
  refine ⟨hc, ?_⟩
  have hswept := fcbCloseFrom_spec (s := closeHandles k s) ⟨hw.charIO, hw.redirects, hc.vol⟩ hk
    (closeHandles k s).sys.total 0 fun i hi hi' => hc.accounted.one hi hi'
  rw [Nat.zero_add] at hswept
  rw [fcbCloseAll, ← hc.total]
  exact hswept

theorem ownFcb_iff : s.ownFcb idx = true ↔ s.byFcb idx ∧ (s.rest idx).psp = s.cuPsp := by
  rw [State.ownFcb, Bool.and_eq_true, bne_iff_ne, beq_iff_eq, State.byFcb]

/-- **The end of a process closes its files** and no others, exactly if no SFT that it has open by
FCB is behind a free one. -/
theorem fcbCloseAll_cleans (h : Accounted s) (hw : Works s k) (hk : k.KeepsOwners) :
    Cleaned s (fcbCloseAll k (closeHandles k s)) ↔ NoneBehindFree s := by
  obtain ⟨hc, hs⟩ := fcbCloseAll_spec h hw hk
  generalize closeHandles k s = s₁ at hc hs
  generalize fcbCloseAll k s₁ = s₂ at hs
  have howners := hc.owners.trans hs.owners
  have hown := ownFcb_congr hc.owners hc.cuPsp
  constructor
  · intro hclean idx hidx hfcb hcount j hj hfree
    obtain ⟨hby, hpsp⟩ := ownFcb_iff.mp hfcb
    have hzero := hclean.own idx hidx ((byFcb_congr howners idx).mpr hby)
      ((howners.psp idx).trans hpsp)
    -- the loop does not come to it
    have hnot : ¬ s₁.reaches 0 s.sys.total idx := fun hr => by
      have hopen := (isOpen_iff.mp (hr.2.2 j ⟨Nat.zero_le j, hj.le⟩)).2
      exact (hc.count_ne_zero h (hj.trans hidx)).mp hopen hfree
    rw [hs.other idx hnot, hc.fcb idx hidx hby] at hzero
    exact hcount hzero
  · intro hnone
    refine ⟨fun idx hidx hby hpsp => ?_, fun idx hidx hpsp => ?_⟩
    · rw [byFcb_congr howners] at hby
      rw [howners.psp] at hpsp
      have hfcb := ownFcb_iff.mpr ⟨hby, hpsp⟩
      by_cases hcount : (s.sys.sft idx).count = 0
      · rw [hs.other idx fun hr => ?_, hc.fcb idx hidx hby, hcount]
        have hopen := (isOpen_iff.mp (hr.2.2 idx ⟨Nat.zero_le idx, Nat.le_refl idx⟩)).2
        rw [hc.fcb idx hidx hby] at hopen
        exact hopen hcount
      · refine hs.closed idx ⟨hown idx ▸ hfcb, ⟨Nat.zero_le idx, hidx⟩, fun j hj => ?_⟩
        have hj' : j < s.sys.total := hj.2.trans_lt hidx
        refine isOpen_iff.mpr ⟨hc.total.symm ▸ hj', ?_⟩
        rcases Nat.lt_or_eq_of_le hj.2 with hlt | rfl
        · exact (hc.count_ne_zero h hj').mpr (hnone idx hidx hfcb hcount j hlt)
        · rw [hc.fcb j hidx hby]
          exact hcount
    · rw [howners.psp] at hpsp
      rw [hs.other idx fun hr => ?_, hc.count h hidx]
      rw [State.reaches, hown] at hr
      exact hpsp (ownFcb_iff.mp hr.1).2

/-! ## Opening -/

theorem remoteOpenSft_owners (hk : k.KeepsOwners) (s : State) (idx flags attrib : ℕ) :
    SameOwners s (remoteOpenSft k s idx flags attrib).2 := by
  simp only [remoteOpenSft]
  generalize (if flags &&& oLegacy = 0 then _ else _ : RemCmd) = cmd
  have hset : SameOwners s (s.setSft idx (k.redirector cmd (s.sys.sft idx) (s.rest idx)).2.1
      (k.redirector cmd (s.sys.sft idx) (s.rest idx)).2.2) :=
    sameOwners_setSft (hk ..).1 (hk ..).2
  split
  · split
    · exact hset.trans (sameOwners_modifyCount ..)
    · exact hset
  · exact hset

theorem shareOpenCheck_owners (s : State) (idx : ℕ) (path : Share.Filename) (flags : ℕ) :
    SameOwners s (shareOpenCheck s idx path flags) := by
  rw [shareOpenCheck]
  split
  · generalize Share.openCheck s.share path (.ofNat s.cuPsp) (flags &&& 0x03)
      (flags / 2 ^ 4 &&& 0x07) = c
    have hset : SameOwners s (s.setSft idx (s.sys.sft idx) { s.rest idx with shroff := c.1 }) :=
      sameOwners_setSft rfl rfl
    exact ⟨hset.mode, hset.psp⟩
  · exact .refl s

theorem localOpenSft_owners (s : State) (idx : ℕ) (path : Share.Filename) (flags attrib : ℕ) :
    SameOwners s (localOpenSft s idx path flags attrib).2 := by
  rw [localOpenSft]
  split
  · exact .refl s
  · split
    · exact .refl s
    · have hcheck := shareOpenCheck_owners s idx path flags
      generalize shareOpenCheck s idx path flags = s₁ at hcheck
      dsimp only
      split
      · exact hcheck
      · have hopen : SameOwners s { s₁.modifyCount idx inc16 with
            sys := (Dir.dosOpen (s₁.modifyCount idx inc16).sys path.chars flags (.ofNat attrib)
              idx).2 } :=
          hcheck.trans ((sameOwners_modifyCount s₁ idx inc16).trans
            (sameOwners_sys (dirOpen_mode _ _ _ _ _)))
        split
        · exact hopen
        · split
          · split
            · exact hopen.trans ((sameOwners_releaseShare ..).trans (sameOwners_modifyCount ..))
            · exact hopen.trans (sameOwners_modifyCount ..)
          · exact hopen

/-- An open makes the free SFT the process's, and leaves the others to whom they belong. -/
theorem dosOpenSft_owners (hk : k.KeepsOwners) (s : State) (fname : Path.Str) (flags attrib : ℕ) :
    (∃ e, dosOpenSft k s fname flags attrib = (some (.error e), s)) ∨
      ∃ (idx : ℕ) (f : Sft) (r : Rest), s.getFreeSft = some idx ∧ f.mode = flags &&& 0xf0ff ∧
        r.psp = s.cuPsp ∧ SameOwners (s.setSft idx f r) (dosOpenSft k s fname flags attrib).2 := by
  rw [dosOpenSft]
  dsimp only
  split
  · exact Or.inl ⟨_, rfl⟩
  · split
    · exact Or.inl ⟨_, rfl⟩
    · rename_i idx hfree
      refine Or.inr ⟨idx, { zeroSft with
          mode := flags &&& 0xf0ff, attrib := .ofNat (attrib ||| File.dArchive.toNat) },
        { fshared := false, dev := none, shroff := -1, psp := s.cuPsp }, hfree, rfl, rfl, ?_⟩
      split
      · exact sameOwners_setSft rfl rfl
      · split
        · exact remoteOpenSft_owners hk ..
        · exact localOpenSft_owners ..

/-- What becomes of the bit `O_FCB` in an open. -/
theorem byFcb_dosOpenSft (hk : k.KeepsOwners) (s : State) (fname : Path.Str) (flags attrib i : ℕ) :
    (s.getFreeSft ≠ some i → ((dosOpenSft k s fname flags attrib).2.byFcb i ↔ s.byFcb i)) ∧
      (s.getFreeSft = some i → flags &&& Dir.oFcb = 0 →
        (∀ e, (dosOpenSft k s fname flags attrib).1 ≠ some (.error e)) →
          ¬ (dosOpenSft k s fname flags attrib).2.byFcb i) := by
  rcases dosOpenSft_owners hk s fname flags attrib with ⟨e, h⟩ | ⟨idx, f, r, hfree, hf, -, howners⟩
  · rw [h]
    exact ⟨fun _ => Iff.rfl, fun _ _ he => absurd rfl (he e)⟩
  · generalize dosOpenSft k s fname flags attrib = r' at howners
    have hiff := byFcb_congr howners i
    rw [hfree]
    by_cases hi : i = idx
    · subst hi
      refine ⟨fun h => absurd rfl h, fun _ hflags _ hby => hiff.mp hby ?_⟩
      simp only [State.setSft, Function.update_self, hf]
      rw [Nat.and_assoc, show 0xf0ff &&& Dir.oFcb = Dir.oFcb by decide, hflags]
    · refine ⟨fun _ => hiff.trans ?_, fun h => absurd (Option.some.inj h).symm hi⟩
      simp only [State.byFcb, State.setSft, Function.update_of_ne hi]

theorem free_handles (h : Accounted s) (hfree : s.getFreeSft = some idx) : s.handles idx = 0 := by
  obtain ⟨hlt, hzero⟩ := getFreeSft_some hfree
  by_cases hfcb : s.byFcb idx
  · exact (h.fcb idx hlt hfcb).1
  · exact ((h.handle idx hlt hfcb).1.symm.trans hzero)

/-- Nothing about the SFT has changed, or its account is right by itself. -/
theorem Accounted.of_step (h : Accounted s) (htotal : s'.sys.total = s.sys.total)
    (hstep : ∀ i < s.sys.total,
      ((s'.byFcb i ↔ s.byFcb i) ∧ s'.handles i = s.handles i ∧
        (s'.sys.sft i).count = (s.sys.sft i).count) ∨
      ((s'.sys.sft i).count = 0 ∧ s'.handles i = 0) ∨
      (s'.byFcb i ∧ (s'.sys.sft i).count = 1 ∧ s'.handles i = 0) ∨
      (¬ s'.byFcb i ∧ (s'.sys.sft i).count = 1 ∧ s'.handles i = 1)) : Accounted s' := by
  refine ⟨fun i hi hi' => ?_, fun i hi hi' => ?_⟩ <;> rw [htotal] at hi <;>
    rcases hstep i hi with ⟨hby, hhandles, hcount⟩ | ⟨hcount, hhandles⟩ | ⟨hby, hcount, hhandles⟩ |
      ⟨hby, hcount, hhandles⟩ <;> rw [hcount, hhandles]
  · exact h.handle i hi fun h' => hi' (hby.mpr h')
  · exact ⟨rfl, by decide⟩
  · exact absurd hby hi'
  · exact ⟨rfl, by decide⟩
  · exact h.fcb i hi (hby.mp hi')
  · exact ⟨rfl, Nat.zero_le 1⟩
  · exact ⟨rfl, Nat.le_refl 1⟩
  · exact absurd hi' hby

/-- The account after an open that fails. -/
theorem Accounted.of_error (h : Accounted s) (hk : k.KeepsOwners) {fname : Path.Str}
    {flags attrib : ℕ} (hopened : HasOpened s (dosOpenSft k s fname flags attrib)) {e : ℤ}
    (he : (dosOpenSft k s fname flags attrib).1 = some (.error e)) :
    Accounted (dosOpenSft k s fname flags attrib).2 := by
  have hby := byFcb_dosOpenSft hk s fname flags attrib
  have hcount := (hopened.error e he).1
  have hhandles : ∀ i, (dosOpenSft k s fname flags attrib).2.handles i = s.handles i := fun i => by
    rw [State.handles, State.handles, hopened.jft]
  have htotal := hopened.total
  generalize dosOpenSft k s fname flags attrib = r at hby hcount hhandles htotal
  refine h.of_step htotal fun i hi => ?_
  rw [hcount, hhandles]
  by_cases hfree : s.getFreeSft = some i
  · have hzero := (getFreeSft_some hfree).2
    exact Or.inr (Or.inl ⟨hzero, free_handles h hfree⟩)
  · exact Or.inl ⟨(hby i).1 hfree, rfl, rfl⟩

/-- **An open by handle keeps the account.** -/
theorem Accounted.dosOpen (h : Accounted s) (hw : Works s k) (hk : k.KeepsOwners)
    (fname : Path.Str) {mode : ℕ} (attrib : ℕ) (hmode : mode &&& Dir.oFcb = 0)
    (hbyte : ∀ idx, s.getFreeSft = some idx → idx < 0xff) :
    Accounted (Handle.dosOpen k s fname mode attrib).2 := by
  have hopened := dosOpenSft_spec (hw.not_refused fname) (fun _ => hw.redirects) s mode attrib
  have hret := dosOpenSft_returns hw.sound k fname mode attrib
  rcases dosOpen_cases k s fname mode attrib with
    ⟨-, e, he⟩ | ⟨hndl, -, hfree, ⟨x, hx, he⟩ | ⟨hx, he⟩⟩
  · rw [he]
    exact h
  · rw [he]
    have hby := byFcb_dosOpenSft hk s fname mode attrib
    generalize dosOpenSft k s fname mode attrib = r at hopened hx hby ⊢
    obtain ⟨hfreeSft, hone, hother, -⟩ := hopened.ok x hx
    change Accounted (r.2.setHandle r.2.cuPsp hndl (.ofNat x.1))
    have hslot : (r.2.jft r.2.cuPsp)[hndl]? = some 0xff := by
      rw [hopened.jft, hopened.cuPsp, getFreeHndl_some hfree]
    refine h.of_step hopened.total fun i hi => ?_
    have hhandles := handles_setHandle hslot (.ofNat x.1) i
    rw [one_unused, one_of_holds (holds_ofNat (hbyte _ hfreeSft))] at hhandles
    have hsame : r.2.handles i = s.handles i := by
      rw [State.handles, State.handles, hopened.jft]
    by_cases hix : i = x.1
    · subst hix
      have hzero := free_handles h hfreeSft
      rw [if_pos rfl] at hhandles
      refine Or.inr (Or.inr (Or.inr ⟨?_, hone, by omega⟩))
      exact (hby x.1).2 hfreeSft hmode fun e => by rw [hx]; exact fun h => (by cases h)
    · rw [if_neg hix] at hhandles
      refine Or.inl ⟨(hby i).1 fun h' => ?_, by omega, hother i hix⟩
      exact hix (Option.some.inj (h'.symm.trans hfreeSft))
  · rw [he]
    cases hr : (dosOpenSft k s fname mode attrib).1 with
    | none => exact absurd hr hret
    | some r =>
      cases r with
      | error e => exact h.of_error hk hopened hr
      | ok x => exact absurd hr (hx x)

theorem or_oFcb (m : ℕ) : (m ||| Dir.oFcb) &&& Dir.oFcb = Dir.oFcb := by
  refine Nat.eq_of_testBit_eq fun i => ?_
  rw [Nat.testBit_and, Nat.testBit_or]
  cases Nat.testBit m i <;> cases Nat.testBit Dir.oFcb i <;> rfl

/-- **An open by FCB keeps the account.** -/
theorem Accounted.fcbOpen (h : Accounted s) (hw : Works s k) (hk : k.KeepsOwners) (fcb : Fcb)
    (fname : Path.Str) (fcbDrive flags attr : ℕ) :
    Accounted (Handle.fcbOpen k s fcb fname fcbDrive flags attr).2.2 := by
  have hopened := dosOpenSft_spec (hw.not_refused fname) (fun _ => hw.redirects) s flags attr
  have hret := dosOpenSft_returns hw.sound k fname flags attr
  rw [Handle.fcbOpen]
  dsimp only
  match hr : (dosOpenSft k s fname flags attr).1 with
  | none => exact absurd hr hret
  | some (.error e) => exact h.of_error hk hopened hr
  | some (.ok x) =>
    have hby := byFcb_dosOpenSft hk s fname flags attr
    generalize dosOpenSft k s fname flags attr = r at hopened hr hby ⊢
    obtain ⟨hfreeSft, hone, hother, -⟩ := hopened.ok x hr
    have hhandles : ∀ i, r.2.handles i = s.handles i := fun i => by
      rw [State.handles, State.handles, hopened.jft]
    refine h.of_step hopened.total fun i hi => ?_
    by_cases hix : i = x.1
    · subst hix
      refine Or.inr (Or.inr (Or.inl ⟨?_, ?_, (hhandles _).trans (free_handles h hfreeSft)⟩))
      · simp only [State.byFcb, State.setSft, Function.update_self]
        rw [or_oFcb]
        decide
      · simp only [State.setSft, Function.update_self, hone]
    · refine Or.inl ⟨?_, hhandles i, ?_⟩
      · refine Iff.trans ?_ ((hby i).1 fun h' => hix (Option.some.inj (h'.symm.trans hfreeSft)))
        simp only [State.byFcb, State.setSft, Function.update_of_ne hix]
      · simp only [State.setSft, Function.update_of_ne hix, hother i hix]

/-! ## Closing an FCB -/

/-- The references are the same, and whose they are. -/
structure SameRefs (s s' : State) : Prop where
  owners : SameOwners s s'
  jft : s'.jft = s.jft
  cuPsp : s'.cuPsp = s.cuPsp
  total : s'.sys.total = s.sys.total
  vol : s'.sys.vol = s.sys.vol
  count : ∀ i, (s'.sys.sft i).count = (s.sys.sft i).count

theorem SameRefs.refl (s : State) : SameRefs s s := ⟨.refl s, rfl, rfl, rfl, rfl, fun _ => rfl⟩

theorem SameRefs.trans {s'' : State} (h : SameRefs s s') (h' : SameRefs s' s'') :
    SameRefs s s'' where
  owners := h.owners.trans h'.owners
  jft := h'.jft.trans h.jft
  cuPsp := h'.cuPsp.trans h.cuPsp
  total := h'.total.trans h.total
  vol := h'.vol.trans h.vol
  count i := (h'.count i).trans (h.count i)

/-- An SFT is written, but not its mode or count. -/
theorem sameRefs_setSft {f : Sft} (hmode : f.mode = (s.sys.sft idx).mode)
    (hcount : f.count = (s.sys.sft idx).count) : SameRefs s (s.setSft idx f (s.rest idx)) where
  owners := sameOwners_setSft (by rw [hmode]) rfl
  jft := rfl
  cuPsp := rfl
  total := rfl
  vol := rfl
  count i := by
    rw [setSft_count]
    split
    · rename_i hi
      rw [hi, hcount]
    · rfl

theorem sameRefs_mergeFileChanges (s : State) (fnp : FNode) :
    SameRefs s { s with sys := File.mergeFileChanges s.sys fnp } where
  owners := sameOwners_sys (mergeFileChanges_mode s.sys fnp)
  jft := rfl
  cuPsp := rfl
  total := rfl
  vol := rfl
  count := (mergeFileChanges_counts s.sys fnp).count

theorem sameRefs_dosSetFtimeSft (s : State) (idx date time : ℕ) :
    SameRefs s (dosSetFtimeSft s idx date time) := by
  rw [dosSetFtimeSft]
  split
  · exact .refl s
  · exact sameRefs_setSft rfl rfl

theorem Accounted.of_sameRefs (h : Accounted s) (hs : SameRefs s s') : Accounted s' := by
  refine h.of_step hs.total fun i _ => Or.inl ⟨byFcb_congr hs.owners i, ?_, hs.count i⟩
  rw [State.handles, State.handles, hs.jft]

/-- **A close by FCB keeps the account**, if the FCB is one of a file that was opened by FCB. -/
theorem Accounted.fcbClose (h : Accounted s) (hw : Works s k) (hk : k.KeepsOwners) (fcb : Fcb)
    (hfcb : fcb.sftno ≠ 0xff → s.byFcb fcb.sftno.toNat) :
    Accounted (Handle.fcbClose k s fcb).2.2 := by
  rw [Handle.fcbClose]
  dsimp only
  split
  · exact h
  · rename_i hff
    split
    · exact h
    · rename_i hopen
      generalize fcb.sftno.toNat = idx at hfcb hopen
      generalize hs₁ : dosSetFtimeSft _ idx fcb.date fcb.time = s₁
      have hsame : SameRefs s s₁ := by
        rw [← hs₁]
        have hset : SameRefs s
            (s.setSft idx { s.sys.sft idx with size := fcb.fsize } (s.rest idx)) :=
          sameRefs_setSft rfl rfl
        split
        · exact hset.trans (sameRefs_dosSetFtimeSft ..)
        · exact hset.trans ((sameRefs_mergeFileChanges ..).trans (sameRefs_dosSetFtimeSft ..))
      have hopen₁ : s₁.isOpen idx = true := by
        rw [State.isOpen, hsame.total, hsame.count, ← State.isOpen]
        simpa using hopen
      have hw₁ : Works s₁ k := ⟨hw.charIO, hw.redirects, hsame.vol ▸ hw.sound⟩
      have hdropped := dosCloseSft_spec hw₁ hopen₁
      have howners := dosCloseSft_owners hk s₁ idx false
      have h₁ := h.of_sameRefs hsame
      generalize dosCloseSft k s₁ idx false = r at hdropped howners
      have hr : Accounted r.2 := by
        refine h₁.of_step hdropped.total fun i hi => ?_
        have hhandles : r.2.handles i = s₁.handles i := by
          rw [State.handles, State.handles, hdropped.jft]
        by_cases hix : i = idx
        · subst hix
          have hone := h₁.fcb i hi ((byFcb_congr hsame.owners i).mpr (hfcb hff))
          have hcount := (isOpen_iff.mp hopen₁).2
          refine Or.inr (Or.inl ⟨?_, hhandles.trans hone.1⟩)
          rw [hdropped.count, if_pos rfl, show (s₁.sys.sft i).count = 1 by omega]
          rfl
        · refine Or.inl ⟨byFcb_congr howners i, hhandles, ?_⟩
          rw [hdropped.count, if_neg hix]
      split <;> exact hr

/-! ## Runs -/

/-- What processes do with files, and their end. -/
inductive FileRequest where
  /-- `DosOpen` -/
  | dosOpen (fname : Path.Str) (mode attrib : ℕ)
  /-- `DosClose` -/
  | dosClose (hndl : ℕ)
  /-- `FcbOpen` -/
  | fcbOpen (fcb : Fcb) (secPathName : Path.Str) (fcbDrive flags attr : ℕ)
  /-- `FcbClose` -/
  | fcbClose (fcb : Fcb)
  /-- `return_user` -/
  | returnUser (termType : ℕ) (psParent : Seg)

/-- A request of a process, and what the rest of the system is like then. -/
structure Turn where
  env : Env
  psp : Seg
  request : FileRequest

/-- The process runs. -/
def State.switch (s : State) (p : Seg) : State := { s with cuPsp := p }

/-- One turn. -/
def turn (s : State) (t : Turn) : State :=
  let s := s.switch t.psp
  match t.request with
  | .dosOpen fname mode attrib => (dosOpen t.env s fname mode attrib).2
  | .dosClose hndl => (dosClose t.env s hndl).2
  | .fcbOpen fcb fname fcbDrive flags attr => (fcbOpen t.env s fcb fname fcbDrive flags attr).2.2
  | .fcbClose fcb => (fcbClose t.env s fcb).2.2
  | .returnUser termType psParent => returnUser t.env s termType psParent

/-- Drivers, redirectors and disk succeed; no open by handle is one by FCB, and its SFT has a number
that fits a job file table; and an FCB that is closed is one of a file opened by FCB. -/
def Ordinary (s : State) (t : Turn) : Prop :=
  Works s t.env ∧ t.env.KeepsOwners ∧
    match t.request with
    | .dosOpen _ mode _ => mode &&& Dir.oFcb = 0 ∧
        ∀ idx, (s.switch t.psp).getFreeSft = some idx → idx < 0xff
    | .fcbClose fcb => fcb.sftno ≠ 0xff → s.byFcb fcb.sftno.toNat
    | _ => True

/-- The process ends, and does not stay resident. -/
def Ends (t : Turn) : Prop :=
  ∃ termType psParent, t.request = .returnUser termType psParent ∧ termType ≠ 3 ∧
    psParent ≠ t.psp

theorem Accounted.switch (h : Accounted s) (p : Seg) : Accounted (s.switch p) := ⟨h.handle, h.fcb⟩

theorem Accounted.turn (h : Accounted s) {t : Turn} (ht : Ordinary s t) :
    Accounted (turn s t) := by
  obtain ⟨k, psp, request⟩ := t
  obtain ⟨hw, hk, hreq⟩ := ht
  have h' := h.switch psp
  have hw' : Works (s.switch psp) k := ⟨hw.charIO, hw.redirects, hw.sound⟩
  cases request with
  | dosOpen fname mode attrib => exact h'.dosOpen hw' hk fname attrib hreq.1 hreq.2
  | dosClose hndl =>
    cases hsft : (s.switch psp).getSft hndl with
    | none =>
      change Accounted (Handle.dosClose k (s.switch psp) hndl).2
      rw [dosClose_none hsft]
      exact h'
    | some idx => exact h'.dosClose hw' hk hsft
  | fcbOpen fcb fname fcbDrive flags attr => exact h'.fcbOpen hw' hk fcb fname fcbDrive flags attr
  | fcbClose fcb => exact h'.fcbClose hw' hk fcb hreq
  | returnUser termType psParent =>
    change Accounted (Handle.returnUser k (s.switch psp) termType psParent)
    rw [returnUser]
    split
    · obtain ⟨hc, hs⟩ := fcbCloseAll_spec h' hw' hk
      exact (hs.accounted hc.accounted).switch psParent
    · exact h'.switch psParent

/-- **The end of each process in a run closes its files** and no others, exactly if no SFT that it
has open by FCB is behind a free one. -/
theorem returnUser_cleans (h : Accounted s) (ts : List Turn) (hts : Along turn Ordinary s ts) :
    Along turn (fun s t => Ends t →
      (Cleaned (s.switch t.psp) (turn s t) ↔ NoneBehindFree (s.switch t.psp))) s ts := by
  refine Along.of_inv (I := Accounted) (fun s t hs ht => ⟨hs.turn ht, fun hends => ?_⟩) h hts
  obtain ⟨k, psp, request⟩ := t
  obtain ⟨termType, psParent, hreq, hterm, hparent⟩ := hends
  obtain rfl : request = .returnUser termType psParent := hreq
  obtain ⟨hw, hk, -⟩ := ht
  have hw' : Works (s.switch psp) k := ⟨hw.charIO, hw.redirects, hw.sound⟩
  have hcleans := fcbCloseAll_cleans (hs.switch psp) hw' hk
  have hturn : turn s ⟨k, psp, .returnUser termType psParent⟩ =
      (fcbCloseAll k (closeHandles k (s.switch psp))).switch psParent := by
    change returnUser k (s.switch psp) termType psParent = _
    rw [returnUser, if_pos ⟨hterm, hparent⟩]
    rfl
  rw [hturn, ← hcleans]
  exact ⟨fun hc => ⟨hc.own, hc.others⟩, fun hc => ⟨hc.own, hc.others⟩⟩

theorem nulEnv_keepsOwners : nulEnv.KeepsOwners := by
  intro cmd f r
  cases cmd <;> simp [nulEnv]

/-- An FCB of the device `NUL`. -/
def nulFcb : Fcb := ⟨1, Vector.replicate 11 0x20, 0, 0, 0, 0, 0, 0, 0, 0, 0, 0⟩

theorem smallState_accounted : Accounted smallState := by
  have hhandles : ∀ idx, smallState.handles idx = 0 := by
    intro idx
    rw [State.handles, Finset.sum_eq_zero]
    intro p _
    rw [smallState]
    dsimp only
    split <;> simp [holds]
  have hcount : ∀ idx < 2, (smallState.sys.sft idx).count = 0 := by decide
  refine ⟨fun idx hidx _ => ?_, fun idx hidx _ => ?_⟩ <;> rw [hhandles, hcount idx hidx] <;>
    decide

/-- Opening `NUL` by handle, then by FCB, and the end of the process. -/
def handleFirst : List Turn :=
  [⟨nulEnv, 0, .dosOpen [] 2 0⟩, ⟨nulEnv, 0, .fcbOpen nulFcb [] 1 0x8002 0⟩,
    ⟨nulEnv, 0, .returnUser 0 1⟩]

theorem handleFirst_ordinary : Along turn Ordinary smallState handleFirst := by
  have hvol : (turn (turn smallState ⟨nulEnv, 0, .dosOpen [] 2 0⟩)
      ⟨nulEnv, 0, .fcbOpen nulFcb [] 1 0x8002 0⟩).sys.vol = nulState.sys.vol := by
    with_unfolding_all rfl
  refine ⟨⟨nulEnv_works rfl, nulEnv_keepsOwners, by decide, fun idx h => ?_⟩,
    ⟨nulEnv_works rfl, nulEnv_keepsOwners, trivial⟩,
    ⟨nulEnv_works hvol, nulEnv_keepsOwners, trivial⟩, trivial⟩
  obtain rfl : 0 = idx := Option.some.inj h
  decide

theorem handleFirst_leaks : ¬ ∀ s ts, Accounted s → Along turn Ordinary s ts →
    Along turn (fun s t => Ends t → Cleaned (s.switch t.psp) (turn s t)) s ts := by
  intro h
  have hends : Ends ⟨nulEnv, 0, .returnUser 0 1⟩ := ⟨0, 1, rfl, by decide, by decide⟩
  have hclean := (h _ _ smallState_accounted handleFirst_ordinary).2.2.1 hends
  have hzero := hclean.own 1 (by decide +kernel) (by decide +kernel) (by decide +kernel)
  revert hzero
  decide +kernel

/-- Only `NUL` has been opened, by FCB. -/
def onlyFcb : State := turn smallState ⟨nulEnv, 0, .fcbOpen nulFcb [] 1 0x8002 0⟩

theorem returnUser_cleans_nul :
    Cleaned (onlyFcb.switch 0) (turn onlyFcb ⟨nulEnv, 0, .returnUser 0 1⟩) := by
  have hvol : onlyFcb.sys.vol = nulState.sys.vol := by with_unfolding_all rfl
  have hcleans := returnUser_cleans smallState_accounted
    [⟨nulEnv, 0, .fcbOpen nulFcb [] 1 0x8002 0⟩, ⟨nulEnv, 0, .returnUser 0 1⟩]
    ⟨⟨nulEnv_works rfl, nulEnv_keepsOwners, trivial⟩,
      ⟨nulEnv_works hvol, nulEnv_keepsOwners, trivial⟩, trivial⟩
  refine (hcleans.2.1 ⟨0, 1, rfl, by decide, by decide⟩).mpr fun idx hidx hown _ j hj => ?_
  have hidx' : idx < 2 := hidx
  obtain rfl | rfl : idx = 0 ∨ idx = 1 := by omega
  · exact absurd hj (Nat.not_lt_zero j)
  · exact absurd hown (by decide +kernel)

end Handle
end BurdahDos
