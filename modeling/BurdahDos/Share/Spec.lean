import BurdahDos.Share.Defs
import Mathlib

/-!
# SHARE: what each function does to the tables

One lemma per function of `Share/Defs.lean`, so that the invariants of the later files never look
inside one.  For the file table the vocabulary is

* `Shrinks s s'`: whatever is in use in `s'` was in use, and the same, in `s`;
* `SameUse s s'`: the slots in use are the same in both;
* `Entered`: a request has been put into an unused slot, with the first modes it was given.

`openCheck_cases` is the main one: it says everything an open can do.
-/

set_option autoImplicit false

namespace BurdahDos
namespace Share

theorem normSharemode_lt (sharemode : Nat) : normSharemode sharemode < 5 := by
  rw [normSharemode]
  split
  · decide
  · rename_i h; exact Nat.lt_succ_of_le (Nat.le_of_not_lt h)

theorem normOpenmode_lt (openmode : Nat) : normOpenmode openmode < 3 := by
  rw [normOpenmode]
  split
  · decide
  · rename_i h; exact Nat.lt_succ_of_le (Nat.le_of_not_lt h)

theorem fnmatches_iff (fn1 fn2 : List UInt8) : fnmatches fn1 fn2 = true ↔ fn1 = fn2 := by
  induction fn1 generalizing fn2 with
  | nil => cases fn2 <;> simp [fnmatches]
  | cons c fn1 ih =>
    cases fn2 with
    | nil => simp [fnmatches]
    | cons d fn2 =>
      rw [fnmatches, List.cons.injEq, ← ih]
      split
      · rename_i h; simp [h]
      · rename_i h; simp [not_not.mp h]

/-- The action found in the tables lets the open proceed. -/
def proceeds (firstSharemode firstOpenmode sharemode openmode : Nat) : Bool :=
  openAction firstSharemode firstOpenmode sharemode openmode != 1 &&
    openAction firstSharemode firstOpenmode sharemode openmode != 2

/-! ## What a request does to the file table -/

/-- Every entry in use in `s'` is in use, and the same, in `s`. -/
def Shrinks (s s' : Tables) : Prop :=
  ∀ (i : Nat) (p : FileT), s'.fileTable[i]? = some p → p.inUse → s.fileTable[i]? = some p

theorem Shrinks.refl (s : Tables) : Shrinks s s := fun _ _ h _ => h

theorem Tables.file_eq {s : Tables} {i : Nat} {p : FileT} (h : s.fileTable[i]? = some p) :
    s.file i = p := by
  rw [Tables.file, List.getD_eq_getElem?_getD, h, Option.getD_some]

/-- The same slots are in use, with the same entries. -/
def SameUse (s s' : Tables) : Prop :=
  ∀ (i : Nat) (p : FileT), p.inUse → (s'.fileTable[i]? = some p ↔ s.fileTable[i]? = some p)

theorem SameUse.shrinks {s s' : Tables} (h : SameUse s s') : Shrinks s s' :=
  fun i p hi hp => (h i p hp).mp hi

theorem SameUse.refl (s : Tables) : SameUse s s := fun _ _ _ => Iff.rfl

/-- Putting an unused slot somewhere takes out what was there and leaves the others alone. -/
theorem shrinks_of_set {s s' : Tables} {k : Nat} {e : FileT}
    (h : s'.fileTable = s.fileTable.set k e) (he : e.inUse = false) : Shrinks s s' := by
  intro i p hi hp
  rw [h, List.getElem?_set] at hi
  split at hi
  · split at hi
    · cases hi; rw [he] at hp; exact absurd hp (by decide)
    · cases hi
  · exact hi

/-- Putting an unused slot in the place of an unused slot changes nothing. -/
theorem sameUse_of_set {s s' : Tables} {k : Nat} {e : FileT}
    (h : s'.fileTable = s.fileTable.set k e) (he : e.inUse = false)
    (hk : ∃ p, s.fileTable[k]? = some p ∧ p.inUse = false) : SameUse s s' := by
  refine fun i p hp => ⟨fun hi => shrinks_of_set h he i p hi hp, fun hi => ?_⟩
  obtain ⟨q, hq, hqu⟩ := hk
  have hik : k ≠ i := by
    rintro rfl
    rw [hi] at hq; cases hq; rw [hp] at hqu; exact absurd hqu (by decide)
  rw [h, List.getElem?_set_ne hik, hi]

theorem shrinks_freeFileTableEntry (s : Tables) (fileno : Nat) :
    Shrinks s (freeFileTableEntry s fileno) :=
  shrinks_of_set rfl rfl

theorem shrinks_closeFile (s : Tables) (fileno : Nat) : Shrinks s (closeFile s fileno) :=
  shrinks_of_set (s := s) rfl rfl

theorem shrinks_accessCheck (s : Tables) (psp : UInt16) (fileno : Nat) (ofs len : UInt32)
    (allowcriter : Bool) : Shrinks s (accessCheck s psp fileno ofs len allowcriter).2 := by
  rw [accessCheck]
  split
  · exact Shrinks.refl s
  · split
    · cases allowcriter
      · exact Shrinks.refl s
      · exact shrinks_freeFileTableEntry s fileno
    · exact Shrinks.refl s

theorem lockUnlock_fileTable (s : Tables) (psp : UInt16) (fileno : Nat) (ofs len : UInt32)
    (unlock : Bool) : (lockUnlock s psp fileno ofs len unlock).2.fileTable = s.fileTable := by
  rw [lockUnlock]
  repeat' split
  all_goals rfl

/-- The slot the lookup of `do_open_check` stops at holds another entry in use of the same file. -/
theorem firstMatch_some {s : Tables} {k i : Nat} (h : firstMatch s k = some i) :
    i ≠ k ∧ ∃ p, s.fileTable[i]? = some p ∧ p.inUse = true ∧
      p.filename = (s.file k).filename := by
  have hi := List.mem_range.mp (List.mem_of_find?_eq_some h)
  have hm := List.find?_some h
  rw [Tables.file_eq (List.getElem?_eq_getElem hi)] at hm
  simp only [Bool.and_eq_true, bne_iff_ne, ne_eq, fnmatches_iff] at hm
  exact ⟨hm.1.1, _, List.getElem?_eq_getElem hi, hm.1.2, hm.2⟩

theorem firstMatch_none {s : Tables} {k i : Nat} {p : FileT} (h : firstMatch s k = none)
    (hi : s.fileTable[i]? = some p) (hik : i ≠ k) (hp : p.inUse = true) :
    p.filename ≠ (s.file k).filename := by
  intro hn
  rw [firstMatch, List.find?_eq_none] at h
  have hlt : i < s.fileTable.length := (List.getElem?_eq_some_iff.mp hi).1
  apply h i (List.mem_range.mpr hlt)
  rw [Tables.file_eq hi, (fnmatches_iff _ _).mpr hn]
  simp [hik, hp]

/-- **Everything `do_open_check` can do** to the open entered in slot `k`: accept it with its own
modes as the first ones, if no other entry has its file; accept it with the first modes of another
entry of the file that let it proceed; or free the slot again. -/
theorem doOpenCheck_cases (s : Tables) (k : Nat) :
    (firstMatch s k = none ∧ (doOpenCheck s k).1 = k ∧ (doOpenCheck s k).2 = s.setFile k
        { s.file k with
          firstSharemode := (s.file k).sharemode, firstOpenmode := (s.file k).openmode }) ∨
      ∃ i, firstMatch s k = some i ∧
        let fs := (s.file i).firstSharemode
        let fo := (s.file i).firstOpenmode
        (proceeds fs fo (s.file k).sharemode (s.file k).openmode = true ∧
            (doOpenCheck s k).1 = k ∧ (doOpenCheck s k).2 =
              s.setFile k { s.file k with firstSharemode := fs, firstOpenmode := fo }) ∨
          (proceeds fs fo (s.file k).sharemode (s.file k).openmode = false ∧
            (doOpenCheck s k).1 < 0 ∧ (doOpenCheck s k).2 = freeFileTableEntry
              (s.setFile k { s.file k with firstSharemode := fs, firstOpenmode := fo }) k) := by
  rw [doOpenCheck]
  cases hm : firstMatch s k with
  | none => exact Or.inl ⟨rfl, rfl, rfl⟩
  | some i =>
    refine Or.inr ⟨i, rfl, ?_⟩
    simp only [proceeds]
    split
    · rename_i h; exact Or.inr ⟨by simp [h], by simp, rfl⟩
    · rename_i h; exact Or.inr ⟨by simp [h], by simp, rfl⟩
    · rename_i h1 h2; exact Or.inl ⟨by simpa using ⟨h1, h2⟩, rfl, rfl⟩

/-- The entry `open_check` writes for a request, with the first modes it ends up with. -/
def newEntry (filename : Filename) (psp : UInt16) (openmode sharemode : Nat)
    (firstSharemode firstOpenmode : Nat) : FileT where
  filename := filename.chars
  psp := psp
  openmode := normOpenmode openmode
  sharemode := normSharemode sharemode
  firstOpenmode := firstOpenmode
  firstSharemode := firstSharemode

theorem newEntry_inUse (filename : Filename) (psp : UInt16) (om sm fs fo : Nat) :
    (newEntry filename psp om sm fs fo).inUse = true := by
  have h := filename.ne_nil
  cases hc : filename.chars with
  | nil => exact absurd hc h
  | cons c cs => simp [FileT.inUse, newEntry, hc]

/-- The table has room, and some entry of the file does not let an open in these modes proceed. -/
def Refused (s : Tables) (filename : Filename) (openmode sharemode : Nat) : Prop :=
  ∃ p ∈ s.fileTable, p.inUse = true ∧ p.filename = filename.chars ∧
    proceeds p.firstSharemode p.firstOpenmode (normSharemode sharemode) (normOpenmode openmode)
      = false

/-- `open_check` puts the request in the unused slot `k`, and `fs`, `fo` are the first modes it
records: the request's own if the file was not open, else those of an entry of the file which let
the request in. -/
structure Entered (s : Tables) (filename : Filename) (psp : UInt16) (openmode sharemode : Nat)
    (k fs fo : Nat) : Prop where
  answer : (openCheck s filename psp openmode sharemode).1 = k
  slot : ∃ p, s.fileTable[k]? = some p ∧ p.inUse = false
  table : (openCheck s filename psp openmode sharemode).2.fileTable =
    s.fileTable.set k (newEntry filename psp openmode sharemode fs fo)
  first : (fs = normSharemode sharemode ∧ fo = normOpenmode openmode ∧
      ∀ q ∈ s.fileTable, q.inUse = true → q.filename ≠ filename.chars) ∨
    (proceeds fs fo (normSharemode sharemode) (normOpenmode openmode) = true ∧
      ∃ q ∈ s.fileTable, q.inUse = true ∧ q.filename = filename.chars ∧
        q.firstSharemode = fs ∧ q.firstOpenmode = fo)

/-- **Everything `open_check` can do.**  It refuses, and no entry in use has changed, or it enters
the request in an unused slot. -/
theorem openCheck_cases (s : Tables) (filename : Filename) (psp : UInt16) (om sm : Nat) :
    ((openCheck s filename psp om sm).1 < 0 ∧ SameUse s (openCheck s filename psp om sm).2 ∧
        ((∃ p ∈ s.fileTable, p.inUse = false) → Refused s filename om sm)) ∨
      ∃ k fs fo, Entered s filename psp om sm k fs fo := by
  cases hfree : s.fileTable.findIdx? (fun p => !p.inUse) with
  | none =>
    rw [openCheck, hfree]
    rw [List.findIdx?_eq_none_iff] at hfree
    refine Or.inl ⟨Int.negSucc_lt_zero 0, SameUse.refl s, fun ⟨p, hp, hpu⟩ => ?_⟩
    simpa [hpu] using hfree p hp
  | some k =>
    obtain ⟨hk, hku, -⟩ := List.findIdx?_eq_some_iff_getElem.mp hfree
    have hslot : ∃ p, s.fileTable[k]? = some p ∧ p.inUse = false :=
      ⟨_, List.getElem?_eq_getElem hk, by simpa using hku⟩
    -- the tables `do_open_check` is called with: the request entered in slot `k`
    generalize hs1 : ({ s.setFile k { s.file k with
        filename := filename.chars, psp := psp, openmode := normOpenmode om,
        sharemode := normSharemode sm } with fileTableFree := dec16 s.fileTableFree } : Tables) = s1
    have hopen : openCheck s filename psp om sm = doOpenCheck s1 k := by
      rw [openCheck, hfree, ← hs1]
    have htab : ∀ e, s1.fileTable.set k e = s.fileTable.set k e := by
      intro e; rw [← hs1]; exact List.set_set ..
    have hself : s1.file k = { s.file k with
        filename := filename.chars, psp := psp, openmode := normOpenmode om,
        sharemode := normSharemode sm } := by
      rw [← hs1]; exact Tables.file_eq (List.getElem?_set_self hk)
    have hother : ∀ i, i ≠ k → s1.fileTable[i]? = s.fileTable[i]? := by
      intro i hi; rw [← hs1]; exact List.getElem?_set_ne (Ne.symm hi)
    rw [hopen]
    rcases doOpenCheck_cases s1 k with ⟨hm, hr, hs⟩ | ⟨i, hm, h⟩
    · refine Or.inr ⟨k, normSharemode sm, normOpenmode om, hopen ▸ hr, hslot, ?_,
        Or.inl ⟨rfl, rfl, fun q hq hqu => ?_⟩⟩
      · rw [hopen, hs]; exact (htab _).trans (by rw [hself]; rfl)
      · obtain ⟨i, hi⟩ := List.mem_iff_getElem?.mp hq
        have hik : i ≠ k := by
          rintro rfl
          obtain ⟨p, hp, hpu⟩ := hslot
          rw [hp] at hi; cases hi; rw [hpu] at hqu; exact absurd hqu (by decide)
        have := firstMatch_none hm ((hother i hik).trans hi) hik hqu
        rwa [hself] at this
    · obtain ⟨hik, p, hp, hpu, hpn⟩ := firstMatch_some hm
      rw [hself] at hpn
      simp only [Tables.file_eq hp, hself] at h
      have hmem : p ∈ s.fileTable := List.mem_of_getElem? ((hother i hik) ▸ hp)
      rcases h with ⟨hpr, hr, hs⟩ | ⟨hpr, hr, hs⟩
      · refine Or.inr ⟨k, p.firstSharemode, p.firstOpenmode, hopen ▸ hr, hslot, ?_,
          Or.inr ⟨hpr, p, hmem, hpu, hpn, rfl, rfl⟩⟩
        rw [hopen, hs]; exact htab _
      · refine Or.inl ⟨hr, ?_, fun _ => ⟨p, hmem, hpu, hpn, hpr⟩⟩
        rw [hs]
        exact sameUse_of_set ((List.set_set ..).trans (htab _)) rfl hslot

/-! ## What an open leaves alone -/

theorem openCheck_lockTable (s : Tables) (filename : Filename) (psp : UInt16) (om sm : Nat) :
    (openCheck s filename psp om sm).2.lockTable = s.lockTable := by
  rw [openCheck]
  split
  · rfl
  · rw [doOpenCheck]
    split
    · rfl
    · simp only
      split <;> rfl

theorem Tables.getElem?_of_inUse {s : Tables} {i : Nat} (h : (s.file i).inUse = true) :
    s.fileTable[i]? = some (s.file i) := by
  rw [Tables.file, List.getD_eq_getElem?_getD] at h ⊢
  cases hi : s.fileTable[i]? with
  | none => rw [hi] at h; exact absurd h (by decide)
  | some p => rfl

/-- An open changes no slot in use. -/
theorem openCheck_file {s : Tables} {i : Nat} (hi : (s.file i).inUse = true) (filename : Filename)
    (psp : UInt16) (om sm : Nat) : (openCheck s filename psp om sm).2.file i = s.file i := by
  have hget := Tables.getElem?_of_inUse hi
  rcases openCheck_cases s filename psp om sm with ⟨-, h, -⟩ | ⟨k, fs, fo, h⟩
  · exact Tables.file_eq ((h i _ hi).mpr hget)
  · obtain ⟨p, hp, hpu⟩ := h.slot
    have hik : k ≠ i := by
      rintro rfl
      rw [hget] at hp; cases hp; rw [hi] at hpu; exact absurd hpu (by decide)
    exact Tables.file_eq (by rw [h.table, List.getElem?_set_ne hik, hget])

/-- Closing a slot leaves the other slots alone. -/
theorem closeFile_file {s : Tables} {i fileno : Nat} (h : i ≠ fileno) :
    (closeFile s fileno).file i = s.file i := by
  simp only [closeFile, freeFileTableEntry, Tables.setFile, Tables.file,
    List.getD_eq_getElem?_getD, List.getElem?_set_ne (Ne.symm h), removeAllLocks]

end Share
end BurdahDos
