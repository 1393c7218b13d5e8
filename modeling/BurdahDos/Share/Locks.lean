import BurdahDos.Lib.Interval
import BurdahDos.Share.Spec
import Mathlib

/-!
# SHARE: which locks are respected

A lock keeps other processes out of a byte range.  `access_check` looks for a lock one of whose
sides contains an end of the requested region, so a region that sticks out of a lock at both ends
slips through (`Inside`), for data access and, since `lock_unlock` asks `access_check`, for
locking as well.

Everything rests on `accessCheck_iff`, which reads the test of the code as a statement about
intervals.  From it come, for every state that requests on open slots can reach:

* when a request that reaches into a lock it has to respect is refused (`respects_iff`);
* that a region meeting no such lock is let through (`letsIn`);
* that a lock stays until it is unlocked or its slot is closed (`serve_keeps_lock`);
* that locks on one file stay disjoint (`LocksDisjoint.step`).

`guarded_run_iff` puts them together along a run.
-/

set_option autoImplicit false

namespace BurdahDos
namespace Share

/-! ## Regions -/

/-- The end of a region, clipped at `0xffffffff`. -/
def regionEnd (ofs len : UInt32) : ℕ := min (ofs.toNat + len.toNat) 0xffffffff

/-- The bytes a request is about. -/
def region (ofs len : UInt32) : Set ℕ := Set.Ico ofs.toNat (regionEnd ofs len)

/-- The bytes a lock covers. -/
def LockT.region (l : LockT) : Set ℕ := Set.Ico l.start.toNat l.stop.toNat

/-- `ofs + len` wraps exactly if the sum does not fit 32 bits. -/
theorem add_lt_iff (ofs len : UInt32) :
    ofs + len < ofs ↔ 2 ^ 32 ≤ ofs.toNat + len.toNat := by
  rw [UInt32.lt_iff_toNat_lt, UInt32.toNat_add]
  have := ofs.toNat_lt
  have := len.toNat_lt
  omega

theorem endofs_toNat (ofs len : UInt32) : (endofs ofs len).toNat = regionEnd ofs len := by
  rw [endofs, regionEnd]
  split
  · rename_i h
    rw [add_lt_iff] at h
    have : (0xffffffff : UInt32).toNat = 4294967295 := rfl
    omega
  · rename_i h
    rw [add_lt_iff] at h
    rw [UInt32.toNat_add]
    omega

theorem clippedLen_toNat (ofs len : UInt32) :
    (clippedLen ofs len).toNat = regionEnd ofs len - ofs.toNat := by
  have hofs := ofs.toNat_lt
  rw [clippedLen, regionEnd]
  split
  · rename_i h
    rw [add_lt_iff] at h
    rw [UInt32.toNat_sub_of_le _ _ (UInt32.le_iff_toNat_le.mpr (Nat.le_of_lt_succ hofs))]
    have : (0xffffffff : UInt32).toNat = 4294967295 := rfl
    omega
  · rename_i h
    rw [add_lt_iff] at h
    rw [Nat.min_eq_left (by omega), Nat.add_sub_cancel_left]

/-- The code's test for an empty region. -/
theorem clippedLen_lt_one_iff (ofs len : UInt32) :
    clippedLen ofs len < 1 ↔ regionEnd ofs len ≤ ofs.toNat := by
  rw [UInt32.lt_iff_toNat_lt, clippedLen_toNat]
  have : (1 : UInt32).toNat = 1 := rfl
  omega

/-- Clipping twice is clipping once. -/
theorem regionEnd_clippedLen (ofs len : UInt32) (h : ofs.toNat < regionEnd ofs len) :
    regionEnd ofs (clippedLen ofs len) = regionEnd ofs len := by
  have hl := clippedLen_toNat ofs len
  have hle : regionEnd ofs len ≤ 0xffffffff := Nat.min_le_right _ _
  rw [regionEnd, hl]
  omega

/-! ## The test on a lock -/

/-- The lock `l` is in use and covers a byte of the requested region of the file in `fileno`. -/
def Meets (s : Tables) (fileno : Nat) (ofs len : UInt32) (l : LockT) : Prop :=
  l.used = true ∧ (s.file fileno).filename = (s.file l.fileno).filename ∧
    ¬ Disjoint (region ofs len) l.region

/-- The lock `l` lies inside the region, away from both of its ends. -/
def Inside (ofs len : UInt32) (l : LockT) : Prop :=
  Interval.Encloses ofs.toNat (regionEnd ofs len) l.start.toNat l.stop.toNat

/-- What SHARE keeps of its locks: they are not empty, and their slot is open. -/
def LockInv (s : Tables) : Prop :=
  ∀ l ∈ s.lockTable, l.used = true → l.start < l.stop ∧ (s.file l.fileno).inUse = true

theorem lockHit_iff {s : Tables} {psp : UInt16} {fileno : Nat} {ofs len : UInt32} {l : LockT}
    (hl : l.start < l.stop) (hr : ofs.toNat < regionEnd ofs len) :
    lockHit s psp fileno ofs (endofs ofs len) l = true ↔
      (psp = 0 ∨ l.psp ≠ psp) ∧ Meets s fileno ofs len l ∧ ¬ Inside ofs len l := by
  have hends := Interval.endInside_iff hr (UInt32.lt_iff_toNat_lt.mp hl)
  simp only [lockHit, Bool.and_eq_true, Bool.or_eq_true, decide_eq_true_eq, beq_iff_eq,
    bne_iff_ne, fnmatches_iff, UInt32.lt_iff_toNat_lt, UInt32.le_iff_toNat_le, endofs_toNat]
  rw [show (l.start.toNat ≤ ofs.toNat ∧ ofs.toNat < l.stop.toNat ∨
      l.start.toNat < regionEnd ofs len ∧ regionEnd ofs len ≤ l.stop.toNat) ↔ _ from hends]
  simp only [Meets, Inside, region, LockT.region]
  tauto

/-- An empty region meets nothing. -/
theorem not_meets_of_empty {s : Tables} {fileno : Nat} {ofs len : UInt32} {l : LockT}
    (hr : regionEnd ofs len ≤ ofs.toNat) : ¬ Meets s fileno ofs len l := by
  rintro ⟨-, -, h⟩
  exact h (by rw [region, Set.Ico_eq_empty (not_lt.mpr hr)]; exact Set.empty_disjoint _)

/-- **What `access_check` refuses**: a region that meets a lock of another process which is not
`Inside` it.  With `psp = 0` every process counts as another one. -/
theorem accessCheck_iff {s : Tables} (hi : LockInv s) (psp : UInt16) (fileno : Nat)
    (ofs len : UInt32) (allowcriter : Bool) :
    (accessCheck s psp fileno ofs len allowcriter).1 ≠ 0 ↔
      ∃ l ∈ s.lockTable, (psp = 0 ∨ l.psp ≠ psp) ∧ Meets s fileno ofs len l ∧
        ¬ Inside ofs len l := by
  rw [accessCheck]
  split
  · rename_i hlen
    rw [clippedLen_lt_one_iff] at hlen
    simp [not_meets_of_empty hlen]
  · rename_i hlen
    rw [clippedLen_lt_one_iff, not_le] at hlen
    have hiff : s.lockTable.any (lockHit s psp fileno ofs (endofs ofs len)) = true ↔
        ∃ l ∈ s.lockTable, (psp = 0 ∨ l.psp ≠ psp) ∧ Meets s fileno ofs len l ∧
          ¬ Inside ofs len l := by
      rw [List.any_eq_true]
      refine exists_congr fun l => and_congr_right fun hl => ⟨fun h => ?_, fun h => ?_⟩
      · have hu : l.used = true := by
          simp only [lockHit, Bool.and_eq_true] at h; exact h.1.1.1
        exact (lockHit_iff (hi l hl hu).1 hlen).mp h
      · exact (lockHit_iff (hi l hl h.2.1.1).1 hlen).mpr h
    split
    · rename_i h; simpa using hiff.mp h
    · rename_i h; simpa using fun l hl h1 h2 => not_not.mp fun h3 => h (hiff.mpr ⟨l, hl, h1, h2, h3⟩)

/-! ## What a request does to the locks -/

/-- Without a critical error `access_check` changes nothing. -/
theorem accessCheck_tables (s : Tables) (psp : UInt16) (fileno : Nat) (ofs len : UInt32) :
    (accessCheck s psp fileno ofs len false).2 = s := by
  rw [accessCheck]
  repeat' split
  all_goals first | rfl | contradiction

/-- The lock a request is granted. -/
def newLock (psp : UInt16) (fileno : Nat) (ofs len : UInt32) : LockT :=
  ⟨true, ofs, ofs + clippedLen ofs len, fileno, psp⟩

theorem newLock_stop (psp : UInt16) (fileno : Nat) (ofs len : UInt32) :
    (newLock psp fileno ofs len).stop.toNat = max ofs.toNat (regionEnd ofs len) := by
  have hl := clippedLen_toNat ofs len
  have hle : regionEnd ofs len ≤ 0xffffffff := Nat.min_le_right _ _
  have hofs := ofs.toNat_lt
  rw [newLock, UInt32.toNat_add, hl]
  omega

/-- The lock request meets a lock, and it is one whose test sees it. -/
def Blocked (s : Tables) (fileno : Nat) (ofs len : UInt32) : Prop :=
  ∃ l ∈ s.lockTable, Meets s fileno ofs len l ∧ ¬ Inside ofs len l

/-- **Everything a lock request can do.**  It is refused, because it is `Blocked` or because no lock
is left; it is about an empty region; or it takes an unused lock. -/
theorem lock_cases {s : Tables} (hi : LockInv s) (psp : UInt16) (fileno : Nat)
    (ofs len : UInt32) :
    (regionEnd ofs len ≤ ofs.toNat ∧ lockUnlock s psp fileno ofs len false = (0, s)) ∨
    (Blocked s fileno ofs len ∧ lockUnlock s psp fileno ofs len false = (-0x21, s)) ∨
    (¬ Blocked s fileno ofs len ∧ (∀ l ∈ s.lockTable, l.used = true) ∧
      lockUnlock s psp fileno ofs len false = (-0x24, s)) ∨
    (¬ Blocked s fileno ofs len ∧ ofs.toNat < regionEnd ofs len ∧
      ∃ i l, s.lockTable[i]? = some l ∧ l.used = false ∧
        (lockUnlock s psp fileno ofs len false).1 = 0 ∧
        (lockUnlock s psp fileno ofs len false).2.lockTable =
          s.lockTable.set i (newLock psp fileno ofs len)) := by
  rw [lockUnlock]
  split
  · rename_i h
    exact Or.inl ⟨(clippedLen_lt_one_iff ofs len).mp h, rfl⟩
  · rename_i h
    rw [clippedLen_lt_one_iff, not_le] at h
    have hblock : (accessCheck s 0 fileno ofs (clippedLen ofs len) false).1 ≠ 0 ↔
        Blocked s fileno ofs len := by
      rw [accessCheck_iff hi]
      simp only [true_or, true_and, Blocked, Meets, Inside, region, regionEnd_clippedLen ofs len h]
    rw [if_neg (by decide : ¬ (false = true))]
    right
    split
    · rename_i hb; exact Or.inl ⟨hblock.mp hb, rfl⟩
    · rename_i hb
      rw [hblock] at hb
      right
      cases hfree : s.lockTable.findIdx? (fun l => !l.used) with
      | none =>
        rw [List.findIdx?_eq_none_iff] at hfree
        exact Or.inl ⟨hb, fun l hl => by simpa using hfree l hl, rfl⟩
      | some i =>
        obtain ⟨hlt, hu, -⟩ := List.findIdx?_eq_some_iff_getElem.mp hfree
        exact Or.inr ⟨hb, h, i, _, List.getElem?_eq_getElem hlt, by simpa using hu, rfl, rfl⟩

/-- **Everything an unlock request can do**: nothing, or drop the lock it names. -/
theorem unlock_cases (s : Tables) (psp : UInt16) (fileno : Nat) (ofs len : UInt32) :
    (lockUnlock s psp fileno ofs len true).2 = s ∨
      ∃ i l, s.lockTable[i]? = some l ∧ lockNamed psp fileno ofs (endofs ofs len) l = true ∧
        (lockUnlock s psp fileno ofs len true).2.lockTable =
          s.lockTable.set i { l with used := false } := by
  rw [lockUnlock]
  split
  · exact Or.inl rfl
  · rw [if_pos rfl]
    cases hf : s.lockTable.findIdx? (lockNamed psp fileno ofs (endofs ofs len)) with
    | none => exact Or.inl rfl
    | some i =>
      obtain ⟨hlt, hn, -⟩ := List.findIdx?_eq_some_iff_getElem.mp hf
      have hget := List.getElem?_eq_getElem hlt
      refine Or.inr ⟨i, _, hget, hn, ?_⟩
      simp only [Tables.setLock, List.getD_eq_getElem?_getD, hget, Option.getD_some]

/-! ## What every run keeps -/

/-- The requests the lock tables are meant for: a process has a nonzero PSP, `access_check` comes
without critical errors, and a lock is asked for through a slot that is open. -/
def Allowed (s : Tables) : Request → Prop
  | .accessCheck psp _ _ _ allowcriter => psp ≠ 0 ∧ allowcriter = false
  | .lockUnlock psp fileno _ _ unlock =>
    psp ≠ 0 ∧ (unlock = false → (s.file fileno).inUse = true)
  | _ => True

instance (s : Tables) : DecidablePred (Allowed s)
  | .accessCheck .. => inferInstanceAs (Decidable (_ ∧ _))
  | .lockUnlock .. => inferInstanceAs (Decidable (_ ∧ (_ → _)))
  | .openCheck .. => .isTrue trivial
  | .closeFile .. => .isTrue trivial

/-- The request ends the lock `l`: it names it for unlocking, or it closes its slot. -/
def Ends (l : LockT) : Request → Prop
  | .closeFile fileno => fileno = l.fileno
  | .lockUnlock psp fileno ofs len unlock =>
    unlock = true ∧ lockNamed psp fileno ofs (endofs ofs len) l = true
  | _ => False

/-- **A lock stays** where it is, on the same file, until a request ends it. -/
theorem serve_keeps_lock {s : Tables} (hi : LockInv s) {r : Request} (hr : Allowed s r) {i : Nat}
    {l : LockT} (hl : s.lockTable[i]? = some l) (hu : l.used = true) (he : ¬ Ends l r) :
    (serve s r).lockTable[i]? = some l ∧ (serve s r).file l.fileno = s.file l.fileno := by
  have hmem := List.mem_of_getElem? hl
  cases r with
  | openCheck filename psp om sm =>
    rw [serve, innerHandler, openCheck_lockTable]
    exact ⟨hl, openCheck_file (hi l hmem hu).2 ..⟩
  | closeFile fileno =>
    have hne : l.fileno ≠ fileno := fun h => he h.symm
    refine ⟨?_, closeFile_file hne⟩
    change (s.lockTable.map (LockT.release fileno))[i]? = some l
    rw [List.getElem?_map, hl, Option.map_some, LockT.release, if_neg (by simp [hne])]
  | accessCheck psp fileno ofs len allowcriter =>
    obtain ⟨-, rfl⟩ := hr
    rw [serve, innerHandler, accessCheck_tables]
    exact ⟨hl, rfl⟩
  | lockUnlock psp fileno ofs len unlock =>
    have hfile : (serve s (.lockUnlock psp fileno ofs len unlock)).file l.fileno =
        s.file l.fileno := by
      rw [Tables.file, serve, innerHandler, lockUnlock_fileTable, Tables.file]
    refine ⟨?_, hfile⟩
    rw [serve, innerHandler]
    cases unlock with
    | true =>
      rcases unlock_cases s psp fileno ofs len with h | ⟨k, m, hk, hn, h⟩
      · rw [h, hl]
      · have hki : k ≠ i := by
          rintro rfl
          rw [hl] at hk; cases hk; exact he ⟨rfl, hn⟩
        rw [h, List.getElem?_set_ne hki, hl]
    | false =>
      rcases lock_cases hi psp fileno ofs len with
        ⟨-, h⟩ | ⟨-, h⟩ | ⟨-, -, h⟩ | ⟨-, -, k, m, hk, hm, -, h⟩
      · rw [h, hl]
      · rw [h, hl]
      · rw [h, hl]
      · have hki : k ≠ i := by
          rintro rfl
          rw [hl] at hk; cases hk; rw [hu] at hm; exact absurd hm (by decide)
        rw [h, List.getElem?_set_ne hki, hl]

/-- A lock after a request was there before, on the same file, or the request was granted it. -/
theorem lock_of_serve {s : Tables} (hi : LockInv s) {r : Request} (hr : Allowed s r) {i : Nat}
    {l : LockT} (hl : (serve s r).lockTable[i]? = some l) (hu : l.used = true) :
    (s.lockTable[i]? = some l ∧ (serve s r).file l.fileno = s.file l.fileno) ∨
      ∃ psp fileno ofs len, r = .lockUnlock psp fileno ofs len false ∧
        l = newLock psp fileno ofs len ∧ ofs.toNat < regionEnd ofs len ∧
        ¬ Blocked s fileno ofs len ∧ (∃ m, s.lockTable[i]? = some m ∧ m.used = false) ∧
        (serve s r).lockTable = s.lockTable.set i l := by
  cases r with
  | openCheck filename psp om sm =>
    rw [serve, innerHandler, openCheck_lockTable] at hl
    exact Or.inl ⟨hl, openCheck_file (hi l (List.mem_of_getElem? hl) hu).2 ..⟩
  | closeFile fileno =>
    change (s.lockTable.map (LockT.release fileno))[i]? = some l at hl
    rw [List.getElem?_map] at hl
    obtain ⟨m, hm, hml⟩ := Option.map_eq_some_iff.mp hl
    rw [LockT.release] at hml
    split at hml
    · cases hml; exact absurd hu Bool.false_ne_true
    · rename_i hne
      cases hml
      refine Or.inl ⟨hm, closeFile_file fun h => hne ?_⟩
      simp [hu, h]
  | accessCheck psp fileno ofs len allowcriter =>
    obtain ⟨-, rfl⟩ := hr
    rw [serve, innerHandler, accessCheck_tables] at hl ⊢
    exact Or.inl ⟨hl, rfl⟩
  | lockUnlock psp fileno ofs len unlock =>
    have hfile : (serve s (.lockUnlock psp fileno ofs len unlock)).file l.fileno =
        s.file l.fileno := by
      rw [Tables.file, serve, innerHandler, lockUnlock_fileTable, Tables.file]
    rw [serve, innerHandler] at hl
    cases unlock with
    | true =>
      rcases unlock_cases s psp fileno ofs len with h | ⟨k, m, hk, -, h⟩
      · rw [h] at hl; exact Or.inl ⟨hl, hfile⟩
      · rw [h, List.getElem?_set] at hl
        split at hl
        · split at hl <;> cases hl
          exact absurd hu Bool.false_ne_true
        · exact Or.inl ⟨hl, hfile⟩
    | false =>
      rcases lock_cases hi psp fileno ofs len with
        ⟨-, h⟩ | ⟨-, h⟩ | ⟨-, -, h⟩ | ⟨hb, hr, k, m, hk, hm, -, h⟩
      · rw [h] at hl; exact Or.inl ⟨hl, hfile⟩
      · rw [h] at hl; exact Or.inl ⟨hl, hfile⟩
      · rw [h] at hl; exact Or.inl ⟨hl, hfile⟩
      · rw [h, List.getElem?_set] at hl
        split at hl
        · rename_i hki
          split at hl <;> cases hl
          exact Or.inr ⟨psp, fileno, ofs, len, rfl, rfl, hr, hb, hki ▸ ⟨m, hk, hm⟩, hki ▸ h⟩
        · exact Or.inl ⟨hl, hfile⟩

theorem lockInv_init (n m : Nat) : LockInv (initTables n m) := by
  intro l hl hu
  rw [List.eq_of_mem_replicate hl] at hu
  exact absurd hu (by decide)

theorem LockInv.step {s : Tables} (hi : LockInv s) {r : Request} (hr : Allowed s r) :
    LockInv (serve s r) := by
  intro l hl hu
  obtain ⟨i, hget⟩ := List.mem_iff_getElem?.mp hl
  rcases lock_of_serve hi hr hget hu with ⟨h, hf⟩ | ⟨psp, fileno, ofs, len, rfl, rfl, hlt, -⟩
  · rw [hf]; exact hi l (List.mem_of_getElem? h) hu
  · have hstop := newLock_stop psp fileno ofs len
    rw [max_eq_right hlt.le] at hstop
    refine ⟨UInt32.lt_iff_toNat_lt.mpr (hstop ▸ hlt), ?_⟩
    rw [Tables.file, serve, innerHandler, lockUnlock_fileTable]
    exact hr.2 rfl

/-! ## What a lock is for -/

/-- Locks on one file are pairwise disjoint. -/
def LocksDisjoint (s : Tables) : Prop :=
  ∀ (i j : Nat) (l m : LockT), i ≠ j → s.lockTable[i]? = some l → s.lockTable[j]? = some m →
    l.used → m.used → (s.file l.fileno).filename = (s.file m.fileno).filename →
    Disjoint l.region m.region

/-- The request is refused if it reaches into a lock it has to respect: an access into one of
another process, a lock into any. -/
def Respects (s : Tables) : Request → Prop
  | .accessCheck psp fileno ofs len allowcriter =>
    (∃ l ∈ s.lockTable, l.psp ≠ psp ∧ Meets s fileno ofs len l) →
      (accessCheck s psp fileno ofs len allowcriter).1 ≠ 0
  | .lockUnlock psp fileno ofs len false =>
    (∃ l ∈ s.lockTable, Meets s fileno ofs len l) →
      (lockUnlock s psp fileno ofs len false).1 ≠ 0
  | _ => True

/-- The request is let through if it reaches into no such lock. -/
def LetsIn (s : Tables) : Request → Prop
  | .accessCheck psp fileno ofs len allowcriter =>
    (∀ l ∈ s.lockTable, Meets s fileno ofs len l → l.psp = psp) →
      (accessCheck s psp fileno ofs len allowcriter).1 = 0
  | .lockUnlock psp fileno ofs len false =>
    (∀ l ∈ s.lockTable, ¬ Meets s fileno ofs len l) → (∃ l ∈ s.lockTable, l.used = false) →
      (lockUnlock s psp fileno ofs len false).1 = 0
  | _ => True

/-- Each lock the request does not end is still there after it, on the same file. -/
def Keeps (s : Tables) (r : Request) : Prop :=
  ∀ (i : Nat) (l : LockT), s.lockTable[i]? = some l → l.used → ¬ Ends l r →
    (serve s r).lockTable[i]? = some l ∧ (serve s r).file l.fileno = s.file l.fileno

/-- What a lock is for, at one request of a run. -/
structure Guarded (s : Tables) (r : Request) : Prop where
  respects : Respects s r
  letsIn : LetsIn s r
  keeps : Keeps s r
  disjoint : LocksDisjoint (serve s r)

/-- What a request that reaches into locks it has to respect needs in order to be refused: one of
them is not `Inside` its region.  For a lock request, as long as an unused lock is left. -/
def RegionOk (s : Tables) : Request → Prop
  | .accessCheck psp fileno ofs len _ =>
    (∃ l ∈ s.lockTable, l.psp ≠ psp ∧ Meets s fileno ofs len l) →
      ∃ l ∈ s.lockTable, l.psp ≠ psp ∧ Meets s fileno ofs len l ∧ ¬ Inside ofs len l
  | .lockUnlock _ fileno ofs len false =>
    (∃ l ∈ s.lockTable, l.used = false) →
      (∃ l ∈ s.lockTable, Meets s fileno ofs len l) →
      ∃ l ∈ s.lockTable, Meets s fileno ofs len l ∧ ¬ Inside ofs len l
  | _ => True

theorem respects_iff {s : Tables} (hi : LockInv s) {r : Request} (hr : Allowed s r) :
    Respects s r ↔ RegionOk s r := by
  cases r with
  | openCheck => exact Iff.rfl
  | closeFile => exact Iff.rfl
  | accessCheck psp fileno ofs len allowcriter =>
    have hpsp : psp ≠ 0 := hr.1
    simp only [Respects, RegionOk, accessCheck_iff hi, hpsp, false_or]
  | lockUnlock psp fileno ofs len unlock =>
    cases unlock with
    | true => exact Iff.rfl
    | false =>
      simp only [Respects, RegionOk]
      constructor
      · rintro h ⟨m, hm, hmu⟩ hmeet
        have hne := h hmeet
        rcases lock_cases hi psp fileno ofs len with
          ⟨-, h⟩ | ⟨hb, -⟩ | ⟨-, hall, -⟩ | ⟨-, -, -, -, -, -, h, -⟩
        · exact absurd (congrArg Prod.fst h) hne
        · exact hb
        · rw [hall m hm] at hmu; exact absurd hmu (by decide)
        · exact absurd h hne
      · rintro h hmeet
        rcases lock_cases hi psp fileno ofs len with
          ⟨hempty, -⟩ | ⟨-, h⟩ | ⟨-, -, h⟩ | ⟨hb, -, i, m, hm, hmu, -, -⟩
        · obtain ⟨l, -, hl⟩ := hmeet
          exact absurd hl (not_meets_of_empty hempty)
        · rw [h]; exact (by decide : (-0x21 : ℤ) ≠ 0)
        · rw [h]; exact (by decide : (-0x24 : ℤ) ≠ 0)
        · exact absurd (h ⟨m, List.mem_of_getElem? hm, hmu⟩ hmeet) hb

theorem letsIn {s : Tables} (hi : LockInv s) {r : Request} (hr : Allowed s r) : LetsIn s r := by
  cases r with
  | openCheck => trivial
  | closeFile => trivial
  | accessCheck psp fileno ofs len allowcriter =>
    intro hown
    by_contra hne
    obtain ⟨l, hl, hpsp, hmeet, -⟩ := (accessCheck_iff hi psp fileno ofs len allowcriter).mp hne
    exact hpsp.elim hr.1 fun h => h (hown l hl hmeet)
  | lockUnlock psp fileno ofs len unlock =>
    cases unlock with
    | true => trivial
    | false =>
      rintro hno ⟨m, hm, hmu⟩
      rcases lock_cases hi psp fileno ofs len with
        ⟨-, h⟩ | ⟨⟨l, hl, hmeet, -⟩, -⟩ | ⟨-, hall, -⟩ | ⟨-, -, -, -, -, -, h, -⟩
      · rw [h]
      · exact absurd hmeet (hno l hl)
      · rw [hall m hm] at hmu; exact absurd hmu (by decide)
      · exact h

theorem newLock_region {psp : UInt16} {fileno : Nat} {ofs len : UInt32}
    (h : ofs.toNat < regionEnd ofs len) :
    (newLock psp fileno ofs len).region = region ofs len := by
  rw [LockT.region, newLock_stop, max_eq_right h.le]
  rfl

/-- A lock granted to a `RegionOk` request is disjoint from the locks there were on its file. -/
theorem LocksDisjoint.step {s : Tables} (hd : LocksDisjoint s) (hi : LockInv s) {r : Request}
    (hr : Allowed s r) (hok : RegionOk s r) : LocksDisjoint (serve s r) := by
  -- a granted lock against one that was there
  have hnew : ∀ {psp fileno ofs len} {m : LockT}, r = .lockUnlock psp fileno ofs len false →
      ofs.toNat < regionEnd ofs len → (∃ m ∈ s.lockTable, m.used = false) →
      ¬ Blocked s fileno ofs len → m ∈ s.lockTable → m.used = true →
      ((serve s r).file fileno).filename = (s.file m.fileno).filename →
      Disjoint (newLock psp fileno ofs len).region m.region := by
    rintro psp fileno ofs len m rfl hlt hfree hb hm hmu hn
    rw [newLock_region hlt]
    by_contra hmeet
    refine hb (hok hfree ⟨m, hm, hmu, ?_, hmeet⟩)
    rwa [Tables.file, serve, innerHandler, lockUnlock_fileTable] at hn
  intro i j l m hij hl hm hlu hmu hn
  rcases lock_of_serve hi hr hl hlu with
    ⟨hl', hf⟩ | ⟨psp, fileno, ofs, len, hreq, rfl, hlt, hb, ⟨p, hp, hpu⟩, hset⟩ <;>
  rcases lock_of_serve hi hr hm hmu with
    ⟨hm', hg⟩ | ⟨psp', fileno', ofs', len', hreq', rfl, hlt', hb', ⟨q, hq, hqu⟩, hset'⟩
  · rw [hf, hg] at hn
    exact hd i j l m hij hl' hm' hlu hmu hn
  · rw [hf] at hn
    exact (hnew hreq' hlt' ⟨q, List.mem_of_getElem? hq, hqu⟩ hb' (List.mem_of_getElem? hl') hlu
      hn.symm).symm
  · rw [hg] at hn
    exact hnew hreq hlt ⟨p, List.mem_of_getElem? hp, hpu⟩ hb (List.mem_of_getElem? hm') hmu hn
  · -- one request is granted one lock
    rw [hset, List.getElem?_set_ne hij, hq] at hm
    cases hm
    rw [hqu] at hmu
    exact absurd hmu Bool.false_ne_true

theorem guarded_iff {s : Tables} (hi : LockInv s) (hd : LocksDisjoint s) {r : Request}
    (hr : Allowed s r) : Guarded s r ↔ RegionOk s r :=
  ⟨fun h => (respects_iff hi hr).mp h.respects, fun hok =>
    { respects := (respects_iff hi hr).mpr hok
      letsIn := letsIn hi hr
      keeps := fun _ _ hl hu he => serve_keeps_lock hi hr hl hu he
      disjoint := hd.step hi hr hok }⟩

theorem locksDisjoint_init (n m : Nat) : LocksDisjoint (initTables n m) := by
  intro i j l l' _ hl _ hu
  rw [List.eq_of_mem_replicate (List.mem_of_getElem? hl)] at hu
  exact absurd hu Bool.false_ne_true

/-- **Locks, exactly.**  In a run from empty tables, locks are respected, let everything else
through, stay until they are ended and are disjoint on each file, if and only if every request of
the run that reaches into locks it has to respect reaches into one that is not `Inside` its
region. -/
theorem guarded_run_iff (fileTableSize lockTableSize : Nat) (reqs : List Request)
    (h : Along serve Allowed (initTables fileTableSize lockTableSize) reqs) :
    Along serve Guarded (initTables fileTableSize lockTableSize) reqs ↔
      Along serve RegionOk (initTables fileTableSize lockTableSize) reqs :=
  along_iff Allowed (I := fun s => LockInv s ∧ LocksDisjoint s)
    (fun _ _ hi hr hok => ⟨hi.1.step hr, hi.2.step hi.1 hr hok⟩)
    (fun _ _ hi hr => guarded_iff hi.1 hi.2 hr)
    ⟨lockInv_init _ _, locksDisjoint_init _ _⟩ h

/-- Process 1 opens a file and locks its bytes 10 to 20; process 2 opens it too and reads the bytes
0 to 30, which `access_check` allows. -/
def aroundLock : List Request :=
  [.openCheck fileA 1 openReadWrite shareDenyNone,
   .openCheck fileA 2 openReadWrite shareDenyNone,
   .lockUnlock 1 0 10 10 false,
   .accessCheck 2 1 0 30 false]

theorem guarded_run_iff_aroundLock : Along serve Guarded (initTables 15 20) aroundLock ↔
    Along serve RegionOk (initTables 15 20) aroundLock :=
  guarded_run_iff 15 20 aroundLock (by decide)

theorem aroundLock_not_guarded : ¬ ∀ (fileTableSize lockTableSize : Nat) (reqs : List Request),
    Along serve Allowed (initTables fileTableSize lockTableSize) reqs →
    Along serve Guarded (initTables fileTableSize lockTableSize) reqs := by
  intro h
  obtain ⟨-, -, -, hg, -⟩ := h 15 20 aroundLock (by decide)
  have hmem : (⟨true, 10, 20, 0, 1⟩ : LockT) ∈
      (run (initTables 15 20) (aroundLock.take 3)).lockTable := by decide
  refine hg.respects ⟨_, hmem, by decide, ⟨rfl, by decide, ?_⟩⟩ (by decide)
  rw [Set.not_disjoint_iff]
  exact ⟨15, ⟨by decide, by decide⟩, ⟨by decide, by decide⟩⟩

end Share
end BurdahDos
