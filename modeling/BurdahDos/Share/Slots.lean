import BurdahDos.Share.Spec
import Mathlib

/-!
# SHARE and the kernel: who owns a slot

The kernel keeps the slot number an open was given in `sft_shroff` for as long as the SFT is open,
and hands it back to SHARE for each access, for locks and for the final close.  So the slot must
stay with that SFT until then.

SHARE frees slots in four places.  Three of them are fine: an open it refuses never reaches an SFT,
and a close is the last use of the slot.  The fourth is the critical error of `access_check`, after
which the SFT is still open but its slot is free for the next open.  `allocated_run_iff` says that
this is all that can go wrong.
-/

set_option autoImplicit false

namespace BurdahDos
namespace Share

/-! ## The kernel's side -/

/-- An open SFT that has a slot in SHARE. -/
structure OpenSft where
  /-- `sft_shroff`: the file table entry number. -/
  sftShroff : Nat
  /-- The name it was opened under. -/
  filename : Filename

/-- SHARE together with the SFTs that hold its slots. -/
structure System where
  tables : Tables
  /-- The open SFTs, by their index. -/
  sft : Nat → Option OpenSft

/-- What a process asks of the kernel, as far as SHARE hears of it. -/
inductive KernelRequest where
  /-- `DosOpenSft` with a free SFT. -/
  | open (sftIdx : Nat) (filename : Filename) (cuPsp : UInt16) (openmode sharemode : Nat)
  /-- `DosRWSft` on `n` bytes at `sft_posit`. -/
  | rw (sftIdx : Nat) (cuPsp : UInt16) (sftPosit n : UInt32)
  /-- `DosLockUnlock` -/
  | lockUnlock (sftIdx : Nat) (cuPsp : UInt16) (pos len : UInt32) (unlock : Bool)
  /-- `DosCloseSft` on the last reference. -/
  | close (sftIdx : Nat)

namespace System

/-- `DosOpenSft`: ask SHARE first; the SFT gets the slot number unless the answer is an error. -/
def dosOpenSft (s : System) (sftIdx : Nat) (filename : Filename) (cuPsp : UInt16)
    (openmode sharemode : Nat) : System :=
  match s.sft sftIdx with
  | some _ => s
  | none =>
    let res := openCheck s.tables filename cuPsp openmode sharemode
    { tables := res.2
      sft := if res.1 < 0 then s.sft else
        Function.update s.sft sftIdx (some ⟨res.1.toNat, filename⟩) }

/-- `DosRWSft`: the access is checked with critical errors. -/
def dosRwSft (s : System) (sftIdx : Nat) (cuPsp : UInt16) (sftPosit n : UInt32) : System :=
  match s.sft sftIdx with
  | none => s
  | some h => { s with tables := (accessCheck s.tables cuPsp h.sftShroff sftPosit n true).2 }

/-- `DosLockUnlock` -/
def dosLockUnlock (s : System) (sftIdx : Nat) (cuPsp : UInt16) (pos len : UInt32)
    (unlock : Bool) : System :=
  match s.sft sftIdx with
  | none => s
  | some h => { s with tables := (lockUnlock s.tables cuPsp h.sftShroff pos len unlock).2 }

/-- `DosCloseSft`: SHARE is told, and `sft_shroff` becomes `-1`. -/
def dosCloseSft (s : System) (sftIdx : Nat) : System :=
  match s.sft sftIdx with
  | none => s
  | some h =>
    { tables := closeFile s.tables h.sftShroff
      sft := Function.update s.sft sftIdx none }

/-- The kernel serves one request. -/
def serve (s : System) : KernelRequest → System
  | .open sftIdx filename cuPsp openmode sharemode =>
    s.dosOpenSft sftIdx filename cuPsp openmode sharemode
  | .rw sftIdx cuPsp sftPosit n => s.dosRwSft sftIdx cuPsp sftPosit n
  | .lockUnlock sftIdx cuPsp pos len unlock => s.dosLockUnlock sftIdx cuPsp pos len unlock
  | .close sftIdx => s.dosCloseSft sftIdx

/-- SHARE just loaded, and no SFT opened through it. -/
def start (fileTableSize lockTableSize : Nat) : System :=
  ⟨initTables fileTableSize lockTableSize, fun _ => none⟩

end System

/-! ## The counters -/

/-- The number of unused slots of the file table. -/
def Tables.unusedFiles (s : Tables) : Nat := s.fileTable.countP fun p => !p.inUse

/-- The number of unused locks. -/
def Tables.unusedLocks (s : Tables) : Nat := s.lockTable.countP fun l => !l.used

/-- The two counters count what they say, and cannot overflow. -/
structure Counted (s : Tables) : Prop where
  files : s.fileTableFree = s.unusedFiles
  locks : s.lockTableFree = s.unusedLocks
  fileSize : s.fileTable.length < 2 ^ 16
  lockSize : s.lockTable.length < 2 ^ 16

theorem inc16_eq {n : Nat} (h : n + 1 < 2 ^ 16) : inc16 n = n + 1 := Nat.mod_eq_of_lt h

theorem dec16_eq {n : Nat} (h0 : 0 < n) (h : n < 2 ^ 16) : dec16 n = n - 1 := by
  rw [dec16]
  omega

theorem countP_set_add {α : Type*} {p : α → Bool} {l : List α} {i : Nat} {a b : α}
    (h : l[i]? = some a) : (l.set i b).countP p + (if p a then 1 else 0) =
      l.countP p + (if p b then 1 else 0) := by
  obtain ⟨hi, rfl⟩ := List.getElem?_eq_some_iff.mp h
  rw [List.countP_set hi]
  have : (if p l[i] then 1 else 0) ≤ l.countP p := by
    split
    · rename_i hp
      exact List.countP_pos_iff.mpr ⟨_, List.getElem_mem hi, hp⟩
    · exact Nat.zero_le _
  omega

/-- Writing an entry in use over an entry in use. -/
theorem Counted.setFile {s : Tables} (h : Counted s) {k : Nat} {p e : FileT}
    (hk : s.fileTable[k]? = some p) (hp : p.inUse = true) (he : e.inUse = true) :
    Counted (s.setFile k e) where
  files := by
    have := countP_set_add (p := fun p : FileT => !p.inUse) (b := e) hk
    simp only [hp, he, Bool.not_true, Bool.false_eq_true, if_false, Nat.add_zero] at this
    exact h.files.trans this.symm
  locks := h.locks
  fileSize := (List.length_set ..).trans_lt h.fileSize
  lockSize := h.lockSize

/-- Writing an entry over one which is in use exactly if it is not, and counting it. -/
theorem Counted.countFile {s : Tables} (h : Counted s) {k : Nat} {p e : FileT} {n : Nat}
    (hk : s.fileTable[k]? = some p)
    (hn : p.inUse = true ∧ e.inUse = false ∧ n = inc16 s.fileTableFree ∨
      p.inUse = false ∧ e.inUse = true ∧ n = dec16 s.fileTableFree) :
    Counted { s.setFile k e with fileTableFree := n } where
  files := by
    have hset := countP_set_add (p := fun p : FileT => !p.inUse) (b := e) hk
    have hle : (s.fileTable.set k e).countP (fun p => !p.inUse) ≤ (s.fileTable.set k e).length :=
      List.countP_le_length
    have hle' : s.unusedFiles ≤ s.fileTable.length := List.countP_le_length
    rw [List.length_set] at hle
    have hlt := h.fileSize
    change n = (s.fileTable.set k e).countP fun p => !p.inUse
    rw [h.files] at hn
    rw [Tables.unusedFiles] at hle' hn
    rcases hn with ⟨hp, he, hn⟩ | ⟨hp, he, hn⟩ <;>
      simp only [hp, he, Bool.not_true, Bool.not_false, Bool.false_eq_true, if_false, if_true,
        Nat.add_zero] at hset
    · rw [hn, inc16_eq (by omega), hset]
    · rw [hn, dec16_eq (by omega) (by omega)]
      omega
  locks := h.locks
  fileSize := (List.length_set ..).trans_lt h.fileSize
  lockSize := h.lockSize

theorem Counted.freeFileTableEntry {s : Tables} (h : Counted s) {k : Nat}
    (hk : (s.file k).inUse = true) : Counted (freeFileTableEntry s k) :=
  h.countFile (Tables.getElem?_of_inUse hk) (Or.inl ⟨hk, rfl, rfl⟩)

theorem countP_map_release (fileno : Nat) (ls : List LockT) :
    (ls.map (LockT.release fileno)).countP (fun l => !l.used) =
      ls.countP (fun l => !l.used) + ls.countP fun l => l.used && l.fileno == fileno := by
  induction ls with
  | nil => rfl
  | cons l ls ih =>
    simp only [List.map_cons, List.countP_cons, ih, LockT.release]
    cases hu : l.used <;> cases hf : l.fileno == fileno <;> simp [hu] <;> omega

theorem Counted.removeAllLocks {s : Tables} (h : Counted s) (fileno : Nat) :
    Counted (removeAllLocks s fileno) where
  files := h.files
  locks := by
    have hmap := countP_map_release fileno s.lockTable
    have hle : (s.lockTable.map (LockT.release fileno)).countP (fun l => !l.used) ≤
        (s.lockTable.map (LockT.release fileno)).length := List.countP_le_length
    rw [List.length_map] at hle
    have hlt := h.lockSize
    change (s.lockTableFree + _) % 2 ^ 16 = (s.lockTable.map _).countP _
    rw [h.locks, Tables.unusedLocks]
    omega
  fileSize := h.fileSize
  lockSize := (List.length_map ..).trans_lt h.lockSize

theorem Counted.openCheck {s : Tables} (h : Counted s) (filename : Filename) (psp : UInt16)
    (om sm : Nat) : Counted (openCheck s filename psp om sm).2 := by
  rw [Share.openCheck]
  cases hfree : s.fileTable.findIdx? (fun p => !p.inUse) with
  | none => exact h
  | some k =>
    obtain ⟨hk, hku, -⟩ := List.findIdx?_eq_some_iff_getElem.mp hfree
    -- the request entered in slot `k`, before `do_open_check`
    have hin : ∀ fs fo, FileT.inUse { s.file k with
        filename := filename.chars, psp := psp, openmode := fo, sharemode := fs } = true := by
      intro fs fo
      exact newEntry_inUse filename psp om sm fs fo
    have h1 := h.countFile (List.getElem?_eq_getElem hk)
      (Or.inr ⟨by simpa using hku, hin (normSharemode sm) (normOpenmode om), rfl⟩)
    have hself : (Tables.file { s.setFile k { s.file k with
        filename := filename.chars, psp := psp, openmode := normOpenmode om,
        sharemode := normSharemode sm } with fileTableFree := dec16 s.fileTableFree } k).inUse
          = true := by
      rw [Tables.file_eq (List.getElem?_set_self hk)]
      exact hin _ _
    simp only
    generalize ({ s.setFile k { s.file k with
        filename := filename.chars, psp := psp, openmode := normOpenmode om,
        sharemode := normSharemode sm } with fileTableFree := dec16 s.fileTableFree } : Tables) = s1
      at h1 hself ⊢
    have hset : ∀ fs fo, Counted (s1.setFile k
        { s1.file k with firstSharemode := fs, firstOpenmode := fo }) :=
      fun _ _ => h1.setFile (Tables.getElem?_of_inUse hself) hself hself
    rcases doOpenCheck_cases s1 k with ⟨-, -, hs⟩ | ⟨i, -, ⟨-, -, hs⟩ | ⟨-, -, hs⟩⟩
    · rw [hs]; exact hset _ _
    · rw [hs]; exact hset _ _
    · rw [hs]
      refine (hset _ _).freeFileTableEntry ?_
      have hlt := (List.getElem?_eq_some_iff.mp (Tables.getElem?_of_inUse hself)).1
      rw [Tables.file_eq (List.getElem?_set_self hlt)]
      exact hself

theorem Counted.closeFile {s : Tables} (h : Counted s) {fileno : Nat}
    (hu : (s.file fileno).inUse = true) : Counted (closeFile s fileno) :=
  (h.removeAllLocks fileno).freeFileTableEntry hu

/-- Writing a lock over one which is used exactly if it is not, and counting it. -/
theorem Counted.setLock {s : Tables} (h : Counted s) {i : Nat} {l m : LockT} {n : Nat}
    (hi : s.lockTable[i]? = some l)
    (hn : l.used = true ∧ m.used = false ∧ n = inc16 s.lockTableFree ∨
      l.used = false ∧ m.used = true ∧ n = dec16 s.lockTableFree) :
    Counted { s.setLock i m with lockTableFree := n } where
  files := h.files
  locks := by
    have hset := countP_set_add (p := fun l : LockT => !l.used) (b := m) hi
    have hle : (s.lockTable.set i m).countP (fun l => !l.used) ≤ (s.lockTable.set i m).length :=
      List.countP_le_length
    have hle' : s.unusedLocks ≤ s.lockTable.length := List.countP_le_length
    rw [List.length_set] at hle
    have hlt := h.lockSize
    change n = (s.lockTable.set i m).countP fun l => !l.used
    rw [h.locks] at hn
    rw [Tables.unusedLocks] at hle' hn
    rcases hn with ⟨hl, hm, hn⟩ | ⟨hl, hm, hn⟩ <;>
      simp only [hl, hm, Bool.not_true, Bool.not_false, Bool.false_eq_true, if_false, if_true,
        Nat.add_zero] at hset
    · rw [hn, inc16_eq (by omega), hset]
    · rw [hn, dec16_eq (by omega) (by omega)]
      omega
  fileSize := h.fileSize
  lockSize := (List.length_set ..).trans_lt h.lockSize

theorem Counted.lockUnlock {s : Tables} (h : Counted s) (psp : UInt16) (fileno : Nat)
    (ofs len : UInt32) (unlock : Bool) : Counted (lockUnlock s psp fileno ofs len unlock).2 := by
  rw [Share.lockUnlock]
  split
  · exact h
  split
  · split
    · exact h
    · rename_i i hf
      obtain ⟨hi, hn, -⟩ := List.findIdx?_eq_some_iff_getElem.mp hf
      simp only [lockNamed, Bool.and_eq_true] at hn
      exact h.setLock (List.getElem?_eq_getElem hi) (Or.inl ⟨hn.1.1.1.1, rfl, rfl⟩)
  · split
    · exact h
    · split
      · exact h
      · rename_i i hf
        obtain ⟨hi, hu, -⟩ := List.findIdx?_eq_some_iff_getElem.mp hf
        exact h.setLock (List.getElem?_eq_getElem hi) (Or.inr ⟨by simpa using hu, rfl, rfl⟩)

/-! ## Slots stay with their SFT -/

/-- Each open SFT has a slot of its own, in use under its name, and the counters are right. -/
structure Owned (s : System) : Prop where
  named : ∀ i h, s.sft i = some h → (s.tables.file h.sftShroff).filename = h.filename.chars
  distinct : ∀ i j h k, s.sft i = some h → s.sft j = some k → h.sftShroff = k.sftShroff → i = j
  counted : Counted s.tables

theorem Owned.inUse {s : System} (ho : Owned s) {i : Nat} {h : OpenSft} (hi : s.sft i = some h) :
    (s.tables.file h.sftShroff).inUse = true := by
  rw [FileT.inUse, ho.named i h hi]
  have := h.filename.ne_nil
  cases hc : h.filename.chars with
  | nil => exact absurd hc this
  | cons => rfl

/-- What the kernel relies on at one request: afterwards every open SFT owns its slot, the request
has not touched the slot of an SFT that it does not close, and closing an SFT has not touched the
locks of another. -/
structure Allocated (s : System) (r : KernelRequest) : Prop where
  owned : Owned (s.serve r)
  kept : ∀ i h, s.sft i = some h → r ≠ .close i → (s.serve r).sft i = some h ∧
    (s.serve r).tables.file h.sftShroff = s.tables.file h.sftShroff
  locks : ∀ i h j, s.sft i = some h → r = .close j → j ≠ i →
    ∀ (n : Nat) (l : LockT), l.used = true → l.fileno = h.sftShroff →
      s.tables.lockTable[n]? = some l → (s.serve r).tables.lockTable[n]? = some l

/-- No lock of the table stops the access. -/
def NotHit (s : System) : KernelRequest → Prop
  | .rw sftIdx cuPsp sftPosit n => ∀ h, s.sft sftIdx = some h → 1 ≤ clippedLen sftPosit n →
      ∀ l ∈ s.tables.lockTable,
        lockHit s.tables cuPsp h.sftShroff sftPosit (endofs sftPosit n) l = false
  | _ => True

/-- A request that changes nothing. -/
theorem Owned.idle {s : System} (ho : Owned s) {r : KernelRequest} (h : s.serve r = s) :
    Allocated s r where
  owned := h.symm ▸ ho
  kept _ _ hi _ := by rw [h]; exact ⟨hi, rfl⟩
  locks _ _ _ _ _ _ _ _ _ _ hl := by rw [h]; exact hl

/-- An open that is refused leaves the SFTs and the slots in use alone; one that is let in gets a
slot that no SFT has. -/
theorem Owned.open {s : System} (ho : Owned s) (i : Nat) (filename : Filename) (psp : UInt16)
    (om sm : Nat) : Allocated s (.open i filename psp om sm) := by
  cases hi : s.sft i with
  | some o => exact ho.idle (by rw [System.serve, System.dosOpenSft, hi])
  | none =>
    have hfile : ∀ j h, s.sft j = some h →
        (openCheck s.tables filename psp om sm).2.file h.sftShroff = s.tables.file h.sftShroff :=
      fun j h hj => openCheck_file (ho.inUse hj) filename psp om sm
    have hcount := ho.counted.openCheck filename psp om sm
    rcases openCheck_cases s.tables filename psp om sm with ⟨hneg, -, -⟩ | ⟨k, fs, fo, h⟩
    · have heq : s.serve (.open i filename psp om sm) =
          ⟨(openCheck s.tables filename psp om sm).2, s.sft⟩ := by
        rw [System.serve, System.dosOpenSft, hi]
        simp only [hneg, if_true]
      refine ⟨?_, fun j h hj _ => ?_, fun _ _ _ _ h => nomatch h⟩
      · rw [heq]
        exact ⟨fun j h hj => (congrArg _ (hfile j h hj)).trans (ho.named j h hj), ho.distinct,
          hcount⟩
      · rw [heq]
        exact ⟨hj, hfile j h hj⟩
    · have heq : s.serve (.open i filename psp om sm) =
          ⟨(openCheck s.tables filename psp om sm).2,
            Function.update s.sft i (some ⟨k, filename⟩)⟩ := by
        have hpos : ¬ ((k : ℤ) < 0) := by omega
        rw [System.serve, System.dosOpenSft, hi]
        simp only [h.answer, hpos, if_false, Int.toNat_natCast]
      obtain ⟨p, hp, hpu⟩ := h.slot
      have hnew : ∀ j h, s.sft j = some h → h.sftShroff ≠ k := by
        rintro j h hj rfl
        have := ho.inUse hj
        rw [Tables.file_eq hp, hpu] at this
        exact Bool.false_ne_true this
      have hk : (openCheck s.tables filename psp om sm).2.file k =
          newEntry filename psp om sm fs fo := by
        refine Tables.file_eq ?_
        rw [h.table, List.getElem?_set_self (List.getElem?_eq_some_iff.mp hp).1]
      have hold : ∀ j h, s.sft j = some h → j ≠ i := by
        rintro j h hj rfl
        rw [hi] at hj; cases hj
      refine ⟨?_, fun j h hj _ => ?_, fun _ _ _ _ h => nomatch h⟩
      · rw [heq]
        refine ⟨fun j h hj => ?_, fun j j' h h' hj hj' hs => ?_, hcount⟩
        · simp only [Function.update_apply] at hj
          split at hj
          · cases hj
            exact congrArg FileT.filename hk
          · exact (congrArg _ (hfile j h hj)).trans (ho.named j h hj)
        · simp only [Function.update_apply] at hj hj'
          split at hj <;> split at hj'
          · omega
          · cases hj; exact absurd hs.symm (hnew j' h' hj')
          · cases hj'; exact absurd hs (hnew j h hj)
          · exact ho.distinct j j' h h' hj hj' hs
      · rw [heq]
        exact ⟨(Function.update_of_ne (hold j h hj) ..).trans hj, hfile j h hj⟩

/-- An access that no lock stops changes nothing. -/
theorem serve_rw {s : System} {i : Nat} {psp : UInt16} {ofs n : UInt32}
    (h : NotHit s (.rw i psp ofs n)) : s.serve (.rw i psp ofs n) = s := by
  rw [System.serve, System.dosRwSft]
  split
  · rfl
  · rename_i o ho
    have hacc : (accessCheck s.tables psp o.sftShroff ofs n true).2 = s.tables := by
      rw [accessCheck]
      split
      · rfl
      · rename_i hlen
        rw [if_neg]
        rw [List.any_eq_true]
        rintro ⟨l, hl, hhit⟩
        have := h o ho (UInt32.not_lt.mp hlen) l hl
        rw [this] at hhit
        exact Bool.false_ne_true hhit
    rw [hacc]

theorem Owned.lockUnlock {s : System} (ho : Owned s) (i : Nat) (psp : UInt16) (pos len : UInt32)
    (unlock : Bool) : Allocated s (.lockUnlock i psp pos len unlock) := by
  cases hi : s.sft i with
  | none => exact ho.idle (by rw [System.serve, System.dosLockUnlock, hi])
  | some o =>
    have heq : s.serve (.lockUnlock i psp pos len unlock) =
        { s with tables := (Share.lockUnlock s.tables psp o.sftShroff pos len unlock).2 } := by
      rw [System.serve, System.dosLockUnlock, hi]
    have hfile : ∀ k, (Share.lockUnlock s.tables psp o.sftShroff pos len unlock).2.file k =
        s.tables.file k := by
      intro k; rw [Tables.file, lockUnlock_fileTable, Tables.file]
    refine ⟨?_, fun j h hj _ => ?_, fun _ _ _ _ h => (by cases h)⟩
    · rw [heq]
      exact ⟨fun j h hj => (congrArg _ (hfile _)).trans (ho.named j h hj), ho.distinct,
        ho.counted.lockUnlock ..⟩
    · rw [heq]
      exact ⟨hj, hfile _⟩

/-- A close frees the slot and the locks of its own SFT only. -/
theorem Owned.close {s : System} (ho : Owned s) (i : Nat) : Allocated s (.close i) := by
  cases hi : s.sft i with
  | none => exact ho.idle (by rw [System.serve, System.dosCloseSft, hi])
  | some o =>
    have heq : s.serve (.close i) =
        ⟨closeFile s.tables o.sftShroff, Function.update s.sft i none⟩ := by
      rw [System.serve, System.dosCloseSft, hi]
    have hother : ∀ j h, s.sft j = some h → j ≠ i → h.sftShroff ≠ o.sftShroff :=
      fun j h hj hji hs => hji (ho.distinct j i h o hj hi hs)
    refine ⟨?_, fun j h hj hji => ?_, ?_⟩
    · rw [heq]
      refine ⟨fun j h hj => ?_, fun j j' h h' hj hj' hs => ?_, ho.counted.closeFile (ho.inUse hi)⟩
      · simp only [Function.update_apply] at hj
        split at hj
        · cases hj
        · rename_i hji
          rw [← ho.named j h hj]
          exact congrArg _ (closeFile_file (hother j h hj hji))
      · simp only [Function.update_apply] at hj hj'
        split at hj <;> split at hj'
        · cases hj
        · cases hj
        · cases hj'
        · exact ho.distinct j j' h h' hj hj' hs
    · have hji : j ≠ i := fun h => hji (h ▸ rfl)
      rw [heq]
      exact ⟨(Function.update_of_ne hji ..).trans hj, closeFile_file (hother j h hj hji)⟩
    · rintro j h _ hj ⟨⟩ hij n l hl hln hget
      have hne := hother j h hj (Ne.symm hij)
      rw [heq]
      change (s.tables.lockTable.map (LockT.release o.sftShroff))[n]? = some l
      rw [List.getElem?_map, hget, Option.map_some, LockT.release, if_neg (by simp [hln, hne])]

theorem freeFileTableEntry_file_self (s : Tables) (k : Nat) :
    ((freeFileTableEntry s k).file k).inUse = false := by
  simp only [freeFileTableEntry, Tables.setFile, Tables.file, List.getD_eq_getElem?_getD,
    List.getElem?_set_self']
  cases s.fileTable[k]? <;> rfl

/-- An access that a lock stops frees the slot of its SFT, which stays open. -/
theorem not_owned_of_hit {s : System} {r : KernelRequest} (h : ¬ NotHit s r) :
    ¬ Owned (s.serve r) := by
  cases r with
  | «open» => exact absurd trivial h
  | lockUnlock => exact absurd trivial h
  | close => exact absurd trivial h
  | rw i psp ofs n =>
    simp only [NotHit, not_forall, Bool.not_eq_false] at h
    obtain ⟨o, ho, hlen, l, hl, hhit⟩ := h
    have heq : s.serve (.rw i psp ofs n) =
        { s with tables := freeFileTableEntry s.tables o.sftShroff } := by
      rw [System.serve, System.dosRwSft, ho]
      simp only [accessCheck]
      rw [if_neg (UInt32.not_lt.mpr hlen), if_pos (List.any_eq_true.mpr ⟨l, hl, hhit⟩)]
      rfl
    intro hown
    rw [heq] at hown
    have hin := hown.inUse ho
    rw [freeFileTableEntry_file_self] at hin
    exact Bool.false_ne_true hin

theorem allocated_iff {s : System} (ho : Owned s) (r : KernelRequest) :
    Allocated s r ↔ NotHit s r := by
  refine ⟨fun h => not_not.mp fun hn => not_owned_of_hit hn h.owned, fun h => ?_⟩
  cases r with
  | «open» i filename psp om sm => exact ho.open i filename psp om sm
  | rw i psp ofs n => exact ho.idle (serve_rw h)
  | lockUnlock i psp pos len unlock => exact ho.lockUnlock i psp pos len unlock
  | close i => exact ho.close i

theorem owned_start {n m : Nat} (hn : n < 2 ^ 16) (hm : m < 2 ^ 16) : Owned (System.start n m) where
  named _ _ h := nomatch h
  distinct _ _ _ _ h := nomatch h
  counted :=
    { files := by
        simp only [System.start, initTables, Tables.unusedFiles, List.countP_replicate]
        exact Nat.mod_eq_of_lt hn
      locks := by
        simp only [System.start, initTables, Tables.unusedLocks, List.countP_replicate]
        exact Nat.mod_eq_of_lt hm
      fileSize := List.length_replicate.trans_lt hn
      lockSize := List.length_replicate.trans_lt hm }

/-- **Slots, exactly.**  In a run of the kernel from empty tables every open SFT owns its slot at
every point, and the counters are right, if and only if no lock stops any access of the run.  The
tables are as large as their `uint16_t` sizes can say. -/
theorem allocated_run_iff (fileTableSize lockTableSize : Nat) (hf : fileTableSize < 2 ^ 16)
    (hl : lockTableSize < 2 ^ 16) (reqs : List KernelRequest) :
    Along System.serve Allocated (System.start fileTableSize lockTableSize) reqs ↔
      Along System.serve NotHit (System.start fileTableSize lockTableSize) reqs :=
  along_iff (fun _ _ => True) (I := Owned)
    (fun _ r ho _ hok => ((allocated_iff ho r).mpr hok).owned)
    (fun _ r ho _ => allocated_iff ho r) (owned_start hf hl) (along_true _ _)

/-- Two opens of one file, a lock through the first, a read through the second that the lock
stops, and a third open, which gets the slot of the second. -/
def slotReused : List KernelRequest :=
  [.open 0 fileA 1 openReadWrite shareDenyNone,
   .open 1 fileA 2 openReadWrite shareDenyNone,
   .lockUnlock 0 1 0 10 false,
   .rw 1 2 0 5,
   .open 2 fileA 3 openReadWrite shareDenyNone]

theorem allocated_run_iff_slotReused : Along System.serve Allocated (System.start 15 20) slotReused ↔
    Along System.serve NotHit (System.start 15 20) slotReused :=
  allocated_run_iff 15 20 (by decide) (by decide) slotReused

theorem slotReused_not_allocated : ¬ ∀ (fileTableSize lockTableSize : Nat),
    fileTableSize < 2 ^ 16 → lockTableSize < 2 ^ 16 → ∀ reqs : List KernelRequest,
    Along System.serve Allocated (System.start fileTableSize lockTableSize) reqs := by
  intro h
  obtain ⟨-, -, -, -, hlast, -⟩ := h 15 20 (by decide) (by decide) slotReused
  -- SFTs 1 and 2 are both open and have the same slot
  have := hlast.owned.distinct 1 2 ⟨1, fileA⟩ ⟨1, fileA⟩ rfl rfl rfl
  exact absurd this (by decide)

end Share
end BurdahDos
