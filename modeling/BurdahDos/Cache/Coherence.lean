import BurdahDos.Cache.Defs
import Mathlib

/-!
# The buffers against a plain array of sectors

What the callers of the cache want is an array: a sector holds what was last stored to it.  `A k` is
that content, `none` while it is unspecified, which it is after `getblk` with `overwrite` until the
caller stores something.  `Coherent` ties the array to the cache:

* no two valid buffers hold the same sector;
* a valid buffer holds what the array says;
* so does the drive, for a sector without a dirty buffer.

Sectors that are copies of FAT sectors, `M`, are left out: the cache writes them when it flushes a
FAT buffer, and nobody else reads or writes them.

The one thing that breaks this is a read that fails.  `getblk` reads into a buffer that may still be
marked valid for its old sector, and then returns without unmarking it (`staleVictim_reads`).  So
`reads_run` is about runs in which a failing read finds its buffer unmarked, or leaves its contents
alone (`ReadOk`).
-/

set_option autoImplicit false

namespace BurdahDos
namespace Cache

variable {β : Type*}

/-- Sectors are known by their drive and number. -/
abbrev Key := ℕ × UInt32

/-- The sector a buffer claims to hold. -/
def Buffer.key (bp : Buffer β) : Key := (bp.bUnit, bp.bBlkno)

/-- The number of the `c`-th copy of a sector. -/
def copyAt (bOffset : UInt32) : ℕ → UInt32 → UInt32
  | 0, blkno => blkno
  | c + 1, blkno => copyAt bOffset c (blkno + bOffset)

/-- `bCopies` writes `bOffset` apart, beginning at one sector, write that sector and for the rest
sectors of `M`. -/
def MirrorsIn (M : Set Key) (dsk : ℕ) (blkno bOffset : UInt32) (bCopies : ℕ) : Prop :=
  1 ≤ bCopies ∧ ∀ c, 1 ≤ c → c < bCopies → (dsk, copyAt bOffset c blkno) ∈ M

/-- The buffers and the drives agree with the array `A`. -/
structure Agree (M : Set Key) (A : Key → Option β) (bufs : List (Buffer β)) (w : World β) :
    Prop where
  unique : bufs.Pairwise fun b c => b.bFlag.valid = true → c.bFlag.valid = true → b.key ≠ c.key
  cached : ∀ b ∈ bufs, b.bFlag.valid = true → b.key ∉ M → ∀ d, A b.key = some d → b.bBuffer = d
  stored : ∀ k ∉ M, (∀ b ∈ bufs, b.bFlag.valid = true → b.bFlag.dirty = true → b.key ≠ k) →
    ∀ d, A k = some d → w.disk k = d
  mirrors : ∀ b ∈ bufs, b.bFlag.valid = true → b.bFlag.fat = true →
    MirrorsIn M b.bUnit b.bBlkno b.copyOffset b.bCopies

variable {M : Set Key} {A : Key → Option β} {bufs bufs' : List (Buffer β)} {w w' : World β}
  {b : Buffer β}

theorem Agree.perm (h : Agree M A bufs w) (hp : bufs.Perm bufs') : Agree M A bufs' w where
  unique := (hp.pairwise_iff fun hbc hc hb => (hbc hb hc).symm).mp h.unique
  cached b hb := h.cached b (hp.mem_iff.mpr hb)
  stored k hk hno := h.stored k hk fun b hb => hno b (hp.mem_iff.mp hb)
  mirrors b hb := h.mirrors b (hp.mem_iff.mpr hb)

/-- A buffer that need not be written back can be dropped. -/
theorem Agree.drop (h : Agree M A (b :: bufs) w)
    (hb : b.bFlag.valid = true → b.bFlag.dirty = false) : Agree M A bufs w where
  unique := (List.pairwise_cons.mp h.unique).2
  cached c hc := h.cached c (List.mem_cons_of_mem b hc)
  stored k hk hno := h.stored k hk fun c hc hv hd => by
    rcases List.mem_cons.mp hc with rfl | hc
    · rw [hb hv] at hd; exact absurd hd Bool.false_ne_true
    · exact hno c hc hv hd
  mirrors c hc := h.mirrors c (List.mem_cons_of_mem b hc)

/-- A buffer that is not valid makes no difference. -/
theorem Agree.add_invalid (h : Agree M A bufs w) (hb : b.bFlag.valid = false) :
    Agree M A (b :: bufs) w where
  unique := List.pairwise_cons.mpr ⟨fun _ _ hv => by simp [hb] at hv, h.unique⟩
  cached := List.forall_mem_cons.mpr ⟨fun hv => by simp [hb] at hv, h.cached⟩
  stored k hk hno := h.stored k hk fun c hc => hno c (List.mem_cons_of_mem b hc)
  mirrors := List.forall_mem_cons.mpr ⟨fun hv => by simp [hb] at hv, h.mirrors⟩

/-- A buffer with a sector that no other one holds, and with the right contents. -/
theorem Agree.add (h : Agree M A bufs w)
    (hnew : ∀ c ∈ bufs, c.bFlag.valid = true → b.key ≠ c.key)
    (hdata : b.key ∉ M → ∀ d, A b.key = some d → b.bBuffer = d) (hfat : b.bFlag.fat = false) :
    Agree M A (b :: bufs) w where
  unique := List.pairwise_cons.mpr ⟨fun c hc _ hv => hnew c hc hv, h.unique⟩
  cached := List.forall_mem_cons.mpr ⟨fun _ => hdata, h.cached⟩
  stored k hk hno := h.stored k hk fun c hc => hno c (List.mem_cons_of_mem b hc)
  mirrors := List.forall_mem_cons.mpr ⟨fun _ hf => by simp [hfat] at hf, h.mirrors⟩

/-! ## Writing back -/

/-! A write that has failed stays remembered. -/

theorem write_mono (w : World β) (dsk : ℕ) (blkno : UInt32) (buf : β)
    (hw : (w.write dsk blkno buf).2.writeFailed = false) : w.writeFailed = false := by
  rw [World.write] at hw
  split at hw
  · exact hw
  · exact hw
  · exact absurd hw (by simp)

theorem writeCopies_mono (bp : Buffer β) (bOffset : UInt32) (n : ℕ) (blkno : UInt32) (w : World β)
    (hw : (writeCopies bp bOffset n blkno w).2.writeFailed = false) : w.writeFailed = false := by
  induction n generalizing blkno w with
  | zero => exact hw
  | succ n ih => exact write_mono w _ _ _ (ih _ _ hw)

theorem flush1_mono (hw : (flush1 b w).2.2.writeFailed = false) : w.writeFailed = false := by
  rw [flush1, writeBack] at hw
  split at hw
  · split at hw
    · exact writeCopies_mono _ _ _ _ _ hw
    · exact writeCopies_mono _ _ _ _ _ hw
  · exact hw

theorem flushLoop_mono {which : Buffer β → Bool} {after : Buffer β → Buffer β}
    (hw : (flushLoop which after bufs w).2.2.writeFailed = false) : w.writeFailed = false := by
  induction bufs generalizing w with
  | nil => exact hw
  | cons b bufs ih =>
    have := ih hw
    split at this
    · exact flush1_mono this
    · exact this

theorem write_disk (w : World β) (dsk : ℕ) (blkno : UInt32) (buf : β)
    (hw : (w.write dsk blkno buf).2.writeFailed = false) :
    (w.write dsk blkno buf).1 = true ∧
      (w.write dsk blkno buf).2.disk = Function.update w.disk (dsk, blkno) buf := by
  rw [World.write] at hw ⊢
  split at hw
  · exact ⟨rfl, rfl⟩
  · exact ⟨rfl, rfl⟩
  · exact absurd hw (by simp)

/-- Writing some copies changes these only. -/
theorem writeCopies_frame (bp : Buffer β) (bOffset : UInt32) (n : ℕ) (blkno : UInt32) (w : World β)
    (hw : (writeCopies bp bOffset n blkno w).2.writeFailed = false) :
    (writeCopies bp bOffset n blkno w).1 = true ∧
      ∀ k, (∀ c < n, k ≠ (bp.bUnit, copyAt bOffset c blkno)) →
        (writeCopies bp bOffset n blkno w).2.disk k = w.disk k := by
  induction n generalizing blkno w with
  | zero => exact ⟨rfl, fun _ _ => rfl⟩
  | succ n ih =>
    rw [writeCopies] at hw ⊢
    obtain ⟨hok, hdisk⟩ := ih (blkno + bOffset) _ hw
    obtain ⟨hok', hdisk'⟩ := write_disk w _ _ _ (writeCopies_mono _ _ _ _ _ hw)
    refine ⟨by simp only [hok, hok', Bool.and_self], fun k hk => ?_⟩
    have h0 : k ≠ (bp.bUnit, blkno) := hk 0 (Nat.succ_pos n)
    rw [hdisk k fun c hc => hk (c + 1) (Nat.succ_lt_succ hc), hdisk', Function.update_of_ne h0]

/-- The first of the copies is the sector itself; the others leave it alone if they are in `M`. -/
theorem writeCopies_first {bp : Buffer β} {bOffset : UInt32} {n : ℕ} {blkno : UInt32} {w : World β}
    (hw : (writeCopies bp bOffset n blkno w).2.writeFailed = false)
    (hm : MirrorsIn M bp.bUnit blkno bOffset n) (hk : (bp.bUnit, blkno) ∉ M) :
    (writeCopies bp bOffset n blkno w).2.disk (bp.bUnit, blkno) = bp.bBuffer := by
  obtain ⟨n, rfl⟩ := Nat.exists_eq_succ_of_ne_zero (Nat.one_le_iff_ne_zero.mp hm.1)
  rw [writeCopies] at hw ⊢
  obtain ⟨-, hdisk⟩ := writeCopies_frame bp bOffset n (blkno + bOffset) _ hw
  obtain ⟨-, hdisk'⟩ := write_disk w _ _ _ (writeCopies_mono _ _ _ _ _ hw)
  rw [hdisk, hdisk', Function.update_self]
  intro c hc heq
  exact hk (heq ▸ hm.2 (c + 1) (Nat.succ_pos c) (Nat.succ_lt_succ hc))

theorem mirrorsIn_one (M : Set Key) (dsk : ℕ) (blkno bOffset : UInt32) :
    MirrorsIn M dsk blkno bOffset 1 :=
  ⟨Nat.le_refl 1, fun _ h1 h2 => absurd h1 (Nat.not_le.mpr h2)⟩

/-- What `flush1` does to the drives. -/
structure Flushed (M : Set Key) (b : Buffer β) (w w' : World β) : Prop where
  frame : ∀ k ∉ M, k ≠ b.key → w'.disk k = w.disk k
  clean : b.bFlag.valid = false ∨ b.bFlag.dirty = false → w'.disk = w.disk
  dirty : b.bFlag.valid = true → b.bFlag.dirty = true → b.key ∉ M → w'.disk b.key = b.bBuffer

theorem writeBack_spec (hw : (writeBack b w).2.writeFailed = false)
    (hm : b.bFlag.valid = true → b.bFlag.fat = true →
      MirrorsIn M b.bUnit b.bBlkno b.copyOffset b.bCopies) :
    (writeBack b w).1 = true ∧ Flushed M b w (writeBack b w).2 := by
  by_cases hflag : b.bFlag.valid = true ∧ b.bFlag.dirty = true
  · -- the sector is written once, or as often as there are copies
    obtain ⟨off, n, heq, hmir⟩ : ∃ off n, writeBack b w = writeCopies b off n b.bBlkno w ∧
        MirrorsIn M b.bUnit b.bBlkno off n := by
      rw [writeBack, if_pos (by simp [hflag])]
      split
      · rename_i hfat; exact ⟨_, _, rfl, hm hflag.1 hfat⟩
      · exact ⟨_, _, rfl, mirrorsIn_one _ _ _ _⟩
    rw [heq] at hw ⊢
    obtain ⟨hok, hframe⟩ := writeCopies_frame b off n b.bBlkno w hw
    refine ⟨hok, fun k hk hne => hframe k fun c hc heq => ?_, fun h => by simp [hflag] at h,
      fun _ _ hk => writeCopies_first hw hmir hk⟩
    rcases Nat.eq_zero_or_pos c with rfl | hpos
    · exact hne heq
    · exact hk (heq ▸ hmir.2 c hpos hc)
  · have heq : writeBack b w = (true, w) := by
      rw [writeBack, if_neg (by simpa using hflag)]
    rw [heq] at hw ⊢
    exact ⟨rfl, fun _ _ _ => rfl, fun _ => rfl, fun hv hd => absurd ⟨hv, hd⟩ hflag⟩

theorem flush1_flushed (hw : (flush1 b w).2.2.writeFailed = false)
    (hm : b.bFlag.valid = true → b.bFlag.fat = true →
      MirrorsIn M b.bUnit b.bBlkno b.copyOffset b.bCopies) :
    (flush1 b w).1 = true ∧
      (flush1 b w).2.1 = { b with bFlag := { b.bFlag with dirty := false } } ∧
      Flushed M b w (flush1 b w).2.2 := by
  obtain ⟨hok, hf⟩ := writeBack_spec hw hm
  exact ⟨hok, by simp only [flush1, hok, if_true], hf⟩

/-- **What `flush1` does** to a buffer of the cache, if no write fails: the buffer is clean. -/
theorem Agree.flush1 (h : Agree M A (b :: bufs) w) (hw : (flush1 b w).2.2.writeFailed = false) :
    (Cache.flush1 b w).1 = true ∧
      (Cache.flush1 b w).2.1 = { b with bFlag := { b.bFlag with dirty := false } } ∧
      Agree M A ((Cache.flush1 b w).2.1 :: bufs) (Cache.flush1 b w).2.2 := by
  obtain ⟨hok, hb', hf⟩ := flush1_flushed hw (h.mirrors b List.mem_cons_self)
  refine ⟨hok, hb', ?_⟩
  rw [hb']
  refine ⟨List.pairwise_cons.mpr ⟨?_, (List.pairwise_cons.mp h.unique).2⟩, ?_, ?_, ?_⟩
  · exact (List.pairwise_cons.mp h.unique).1
  · exact List.forall_mem_cons.mpr (List.forall_mem_cons.mp h.cached)
  · intro k hk hno d hd
    have hno' : ∀ c ∈ bufs, c.bFlag.valid = true → c.bFlag.dirty = true → c.key ≠ k :=
      fun c hc => hno c (List.mem_cons_of_mem _ hc)
    by_cases hkb : b.bFlag.valid = true ∧ b.bFlag.dirty = true ∧ b.key = k
    · obtain ⟨hv, hdirty, rfl⟩ := hkb
      rw [hf.dirty hv hdirty hk]
      exact h.cached b List.mem_cons_self hv hk d hd
    · have hdisk : (Cache.flush1 b w).2.2.disk k = w.disk k := by
        by_cases hkey : b.key = k
        · rw [hf.clean]
          by_contra hc
          simp only [not_or, Bool.not_eq_false] at hc
          exact hkb ⟨hc.1, hc.2, hkey⟩
        · exact hf.frame k hk (Ne.symm hkey)
      rw [hdisk]
      refine h.stored k hk (List.forall_mem_cons.mpr ⟨fun hv hdirty hkey => ?_, hno'⟩) d hd
      exact hkb ⟨hv, hdirty, hkey⟩
  · exact List.forall_mem_cons.mpr (List.forall_mem_cons.mp h.mirrors)

/-- The loops over the ring, if no write fails: they leave the buffers alone, or flush all of them
and unmark them. -/
theorem flushLoop_spec {which : Buffer β → Bool} {after : Buffer β → Buffer β}
    (hafter : (∀ b, after b = b) ∨ ∀ b, which b = true ∧ (after b).bFlag.valid = false)
    (pre : List (Buffer β)) (h : Agree M A (pre ++ bufs) w)
    (hw : (flushLoop which after bufs w).2.2.writeFailed = false) :
    Agree M A (pre ++ (flushLoop which after bufs w).2.1) (flushLoop which after bufs w).2.2 := by
  induction bufs generalizing pre w with
  | nil => exact h
  | cons b bufs ih =>
    rw [flushLoop] at hw ⊢
    simp only at hw ⊢
    -- the turn of this buffer, seen with the others in any order
    have hb : Agree M A (b :: (pre ++ bufs)) w := h.perm List.perm_middle
    generalize hr : (if which b then flush1 b w else (true, b, w)) = r at hw ⊢
    have hturn : Agree M A (r.2.1 :: (pre ++ bufs)) r.2.2 ∧
        (which b = true → r.2.1.bFlag.dirty = false) := by
      split at hr <;> subst hr
      · obtain ⟨-, hflag, hagree⟩ := hb.flush1 (flushLoop_mono hw)
        exact ⟨hagree, fun _ => by rw [hflag]⟩
      · rename_i hwhich
        exact ⟨hb, fun h => absurd h hwhich⟩
    have hagree : Agree M A (pre ++ after r.2.1 :: bufs) r.2.2 := by
      refine Agree.perm ?_ List.perm_middle.symm
      rcases hafter with hid | hall
      · rw [hid]; exact hturn.1
      · exact (hturn.1.drop fun _ => hturn.2 (hall b).1).add_invalid (hall _).2
    simpa using ih (pre ++ [after r.2.1]) (by simpa using hagree) hw

/-! ## Searching -/

theorem scan_inl {blkno : UInt32} {dsk i j : ℕ} {a : Scan}
    (h : scan blkno dsk bufs i a = .inl j) :
    i ≤ j ∧ ∃ b, bufs[j - i]? = some b ∧ b.holds blkno dsk = true := by
  induction bufs generalizing i a with
  | nil => cases h
  | cons b bufs ih =>
    rw [scan] at h
    split at h
    · rename_i hb
      cases h
      exact ⟨Nat.le_refl _, b, by simp, hb⟩
    · obtain ⟨hle, c, hc, hh⟩ := ih h
      refine ⟨by omega, c, ?_, hh⟩
      rwa [show j - i = (j - (i + 1)) + 1 by omega, List.getElem?_cons_succ]

theorem scan_inr {blkno : UInt32} {dsk i : ℕ} {a a' : Scan}
    (h : scan blkno dsk bufs i a = .inr a') : ∀ b ∈ bufs, b.holds blkno dsk = false := by
  induction bufs generalizing i a with
  | nil => simp
  | cons b bufs ih =>
    rw [scan] at h
    split at h
    · cases h
    · rename_i hb
      exact List.forall_mem_cons.mpr ⟨by simpa using hb, ih h⟩

theorem perm_eraseIdx {α : Type*} {l : List α} {i : ℕ} {a : α} (h : l[i]? = some a) :
    l.Perm (a :: l.eraseIdx i) := by
  obtain ⟨hi, rfl⟩ := List.getElem?_eq_some_iff.mp h
  have hsplit : l = l.take i ++ l[i] :: l.drop (i + 1) := by simp
  rw [List.eraseIdx_eq_take_drop_succ]
  exact (List.Perm.of_eq hsplit).trans List.perm_middle

/-- **What `searchblock` does**: it brings a buffer to the front, either the one that holds the
block, or one to be used for it as no buffer does. -/
theorem searchblock_spec {blkno : UInt32} {dsk i : ℕ} {bp : Buffer β} {rest : List (Buffer β)}
    (h : searchblock blkno dsk bufs = some (i, bp, rest)) :
    ∃ b u, bufs[i]? = some b ∧ rest = bufs.eraseIdx i ∧
      bp = { b with bFlag := { b.bFlag with uncache := u } } ∧ bufs.Perm (b :: rest) ∧
      ((u = false ∧ b.holds blkno dsk = true) ∨
        (u = true ∧ ∀ c ∈ bufs, c.holds blkno dsk = false)) := by
  rw [searchblock] at h
  obtain ⟨b, hb, heq⟩ := Option.map_eq_some_iff.mp h
  cases heq
  refine ⟨b, _, hb, rfl, rfl, ?_, ?_⟩
  · exact perm_eraseIdx hb
  · split
    · rename_i j hs
      rw [hs] at hb
      obtain ⟨-, c, hc, hh⟩ := scan_inl hs
      rw [Nat.sub_zero] at hc
      rw [hb] at hc
      cases hc
      exact Or.inl ⟨rfl, hh⟩
    · rename_i a hs
      exact Or.inr ⟨rfl, scan_inr hs⟩

theorem holds_iff {blkno : UInt32} {dsk : ℕ} :
    b.holds blkno dsk = true ↔ b.bFlag.valid = true ∧ b.key = (dsk, blkno) := by
  simp only [Buffer.holds, Buffer.key, Bool.and_eq_true, beq_iff_eq, Prod.mk.injEq]
  tauto

/-! ## What `getblk` can do -/

/-- `b` with `BFR_UNCACHE` as `searchblock` sets it. -/
def Buffer.given (b : Buffer β) (uncache : Bool) : Buffer β :=
  { b with bFlag := { b.bFlag with uncache := uncache } }

/-- What `getblk` can do. -/
inductive Fetched (s : State β) (blkno : UInt32) (dsk : ℕ) (overwrite : Bool) (read : Option β) :
    Option (Buffer β) × State β → Prop
  /-- There is no buffer. -/
  | noBuffer (hs : searchblock blkno dsk s.bufs = none) :
    Fetched s blkno dsk overwrite read (none, { s with held := [] })
  /-- A buffer has the block. -/
  | hit {i : ℕ} {b : Buffer β} (hs : searchblock blkno dsk s.bufs =
      some (i, b.given false, s.bufs.eraseIdx i)) (hb : s.bufs[i]? = some b)
      (hholds : b.holds blkno dsk = true) :
    Fetched s blkno dsk overwrite read (some (b.given false),
      ⟨b.given false :: s.bufs.eraseIdx i, s.world, s.holding (dsk, blkno) i⟩)
  /-- The buffer to be used cannot be written back. -/
  | flushFailed {i : ℕ} {b : Buffer β} (hs : searchblock blkno dsk s.bufs =
      some (i, b.given true, s.bufs.eraseIdx i)) (hb : s.bufs[i]? = some b)
      (hmiss : ∀ c ∈ s.bufs, c.holds blkno dsk = false)
      (hflush : (flush1 (b.given true) s.world).1 = false) :
    Fetched s blkno dsk overwrite read (none,
      ⟨(flush1 (b.given true) s.world).2.1 :: s.bufs.eraseIdx i,
        (flush1 (b.given true) s.world).2.2, []⟩)
  /-- The block cannot be read. -/
  | readFailed {i : ℕ} {b : Buffer β} {garbage : β} (hs : searchblock blkno dsk s.bufs =
      some (i, b.given true, s.bufs.eraseIdx i)) (hb : s.bufs[i]? = some b)
      (hmiss : ∀ c ∈ s.bufs, c.holds blkno dsk = false)
      (hflush : (flush1 (b.given true) s.world).1 = true) (hover : overwrite = false)
      (hread : read = some garbage) :
    Fetched s blkno dsk overwrite read (none,
      ⟨{ (flush1 (b.given true) s.world).2.1 with bBuffer := garbage } :: s.bufs.eraseIdx i,
        (flush1 (b.given true) s.world).2.2, []⟩)
  /-- The buffer is used for the block. -/
  | filled {i : ℕ} {b bp : Buffer β} {data : β} (hs : searchblock blkno dsk s.bufs =
      some (i, b.given true, s.bufs.eraseIdx i)) (hb : s.bufs[i]? = some b)
      (hmiss : ∀ c ∈ s.bufs, c.holds blkno dsk = false)
      (hflush : (flush1 (b.given true) s.world).1 = true)
      (hdata : overwrite = false → data = (flush1 (b.given true) s.world).2.2.disk (dsk, blkno))
      (hbp : bp = { (flush1 (b.given true) s.world).2.1 with
        bBuffer := data
        bFlag := { Flags.none with valid := true, data := true }
        bUnit := dsk
        bBlkno := blkno }) :
    Fetched s blkno dsk overwrite read (some bp,
      ⟨bp :: s.bufs.eraseIdx i, (flush1 (b.given true) s.world).2.2, s.holding (dsk, blkno) i⟩)

theorem getblk_fetched (s : State β) (blkno : UInt32) (dsk : ℕ) (overwrite : Bool)
    (read : Option β) : Fetched s blkno dsk overwrite read (getblk s blkno dsk overwrite read) := by
  cases hs : searchblock blkno dsk s.bufs with
  | none =>
    rw [getblk, hs]
    exact .noBuffer hs
  | some t =>
    obtain ⟨i, bp, rest⟩ := t
    obtain ⟨b, u, hb, rfl, hbp, -, hcase⟩ := searchblock_spec hs
    change bp = b.given u at hbp
    subst hbp
    rw [getblk, hs]
    rcases hcase with ⟨rfl, hholds⟩ | ⟨rfl, hmiss⟩
    · exact .hit hs hb hholds
    · dsimp only
      rw [if_neg (by simp [Buffer.given])]
      cases hflush : (flush1 (b.given true) s.world).1 with
      | false => exact .flushFailed hs hb hmiss hflush
      | true =>
        rw [if_neg (by decide)]
        cases overwrite with
        | true => exact .filled hs hb hmiss hflush (fun h => nomatch h) rfl
        | false =>
          cases read with
          | none => exact .filled hs hb hmiss hflush (fun _ => rfl) rfl
          | some garbage => exact .readFailed hs hb hmiss hflush rfl rfl

/-! ## The cache and the array -/

/-- The cache agrees with the array, and the pointers in use point to the blocks they were returned
for. -/
structure Coherent (M : Set Key) (A : Key → Option β) (s : State β) : Prop where
  agree : Agree M A s.bufs s.world
  held : ∀ (i : ℕ) (k : Key), s.held[i]? = some k →
    ∃ b, s.bufs[i]? = some b ∧ b.bFlag.valid = true ∧ b.key = k

/-- Something (if anything) is stored in sector `k`. -/
def put (A : Key → Option β) (k : Key) : Option β → Key → Option β
  | some data => Function.update A k (some data)
  | none => A

/-- What a request does to the array: a caller or a direct write stores, and a block asked for with
`overwrite` is unspecified until its caller stores something. -/
def store (A : Key → Option β) (s : State β) : Request β → Key → Option β
  | .getblk blkno dsk overwrite read =>
    if overwrite && (getblk s blkno dsk overwrite read).1.isSome then
      Function.update A (dsk, blkno) none
    else A
  | .touch i _ data _ =>
    match s.held[i]? with
    | some k => put A k data
    | none => A
  | .transfer blknolow blknohigh dsk .write data true => fun k =>
    if k.1 = dsk ∧ blknolow ≤ k.2 ∧ k.2 ≤ blknohigh then some (data k.2) else A k
  | _ => A

/-- What callers see to: they leave the copies of FAT sectors to the cache, work on buffers they
hold, and mark as FAT sectors only those whose copies are in `M`. -/
def Allowed (M : Set Key) (s : State β) : Request β → Prop
  | .getblk blkno dsk _ _ => (dsk, blkno) ∉ M
  | .touch i m _ _ => ∃ k, s.held[i]? = some k ∧
    ∀ copies offset xfatsize, m = .fat copies offset xfatsize →
      MirrorsIn M k.1 k.2 (if offset = 0 then xfatsize else offset) copies
  | .transfer blknolow blknohigh dsk _ _ _ =>
    ∀ b, blknolow ≤ b → b ≤ blknohigh → (dsk, b) ∉ M
  | _ => True

/-- A failing read of `getblk` finds the buffer it is to fill unmarked, or does not change it. -/
def ReadOk (s : State β) : Request β → Prop
  | .getblk blkno dsk false (some garbage) => ∀ i bp rest,
    searchblock blkno dsk s.bufs = some (i, bp, rest) →
      bp.bFlag.uncache = true → bp.bFlag.valid = true → bp.bBuffer = garbage
  | _ => True

/-- The same, but what becomes of the contents of sectors outside `P` does not matter. -/
def ReadOkIn (P : Set Key) (s : State β) : Request β → Prop
  | .getblk blkno dsk false (some garbage) => ∀ i bp rest,
    searchblock blkno dsk s.bufs = some (i, bp, rest) →
      bp.bFlag.uncache = true → bp.bFlag.valid = true → bp.key ∈ P → bp.bBuffer = garbage
  | _ => True

theorem ReadOk.inside {s : State β} {r : Request β} (h : ReadOk s r) (P : Set Key) :
    ReadOkIn P s r := by
  cases r with
  | getblk blkno dsk overwrite read =>
    cases overwrite with
    | true => trivial
    | false =>
      cases read with
      | none => trivial
      | some garbage => exact fun i bp rest hs hu hv _ => h i bp rest hs hu hv
  | _ => trivial

theorem Agree.recycle (h : Agree M A (b :: bufs) w) (u : Bool) :
    Agree M A (b.given u :: bufs) w :=
  ⟨List.pairwise_cons.mpr (List.pairwise_cons.mp h.unique),
    List.forall_mem_cons.mpr (List.forall_mem_cons.mp h.cached),
    fun k hk hno => h.stored k hk (List.forall_mem_cons.mpr (List.forall_mem_cons.mp hno)),
    List.forall_mem_cons.mpr (List.forall_mem_cons.mp h.mirrors)⟩

/-- An array that says less. -/
theorem Agree.weaken {A' : Key → Option β} (h : Agree M A bufs w)
    (hA : ∀ k d, A' k = some d → A k = some d) : Agree M A' bufs w :=
  ⟨h.unique, fun b hb hv hk d hd => h.cached b hb hv hk d (hA _ d hd),
    fun k hk hno d hd => h.stored k hk hno d (hA _ d hd), h.mirrors⟩

/-- Only the contents of one sector become unspecified. -/
theorem Agree.forget (h : Agree M A bufs w) (k : Key) :
    Agree M (Function.update A k none) bufs w :=
  h.weaken fun k' d hd => by
    rw [Function.update_apply] at hd
    split at hd
    · exact nomatch hd
    · exact hd

/-- The contents of a buffer do not matter while the array does not say what they are. -/
theorem Agree.garbage (h : Agree M A (b :: bufs) w) (hA : A b.key = none) (garbage : β) :
    Agree M A ({ b with bBuffer := garbage } :: bufs) w :=
  ⟨List.pairwise_cons.mpr (List.pairwise_cons.mp h.unique),
    List.forall_mem_cons.mpr ⟨fun _ _ _ hd => absurd (hA.symm.trans hd) (Option.some_ne_none _).symm,
      (List.forall_mem_cons.mp h.cached).2⟩,
    fun k hk hno => h.stored k hk (List.forall_mem_cons.mpr (List.forall_mem_cons.mp hno)),
    List.forall_mem_cons.mpr (List.forall_mem_cons.mp h.mirrors)⟩

/-- The pointers after `getblk` has brought the buffer at position `i` to the front. -/
theorem held_holding {s : State β} {k : Key} {i : ℕ} {bp : Buffer β}
    (hheld : ∀ (i : ℕ) (k : Key), s.held[i]? = some k →
      ∃ b, s.bufs[i]? = some b ∧ b.bFlag.valid = true ∧ b.key = k)
    (hv : bp.bFlag.valid = true) (hk : bp.key = k) (n : ℕ) (k' : Key)
    (hn : (s.holding k i)[n]? = some k') :
    ∃ c, (bp :: s.bufs.eraseIdx i)[n]? = some c ∧ c.bFlag.valid = true ∧ c.key = k' := by
  cases n with
  | zero =>
    cases hn
    exact ⟨bp, rfl, hv, hk⟩
  | succ n =>
    simp only [State.holding, List.getElem?_cons_succ] at hn ⊢
    split at hn
    · simp at hn
    · rename_i hpos
      rw [List.getElem?_take] at hn
      split at hn
      · obtain rfl : n = 0 := by omega
        rw [List.getElem?_eraseIdx_of_lt (by omega)]
        exact hheld 0 k' hn
      · cases hn

/-- The contents of a sector may become unspecified. -/
theorem Coherent.forget {s : State β} (h : Coherent M A s) (c : Bool) (k : Key) :
    Coherent M (if c then Function.update A k none else A) s := by
  cases c with
  | false => exact h
  | true => exact ⟨h.agree.forget k, h.held⟩

theorem held_nil (bufs : List (Buffer β)) (i : ℕ) (k : Key)
    (h : ([] : List Key)[i]? = some k) :
    ∃ b, bufs[i]? = some b ∧ b.bFlag.valid = true ∧ b.key = k := by
  simp at h

/-- Filling a clean buffer with a sector that no buffer holds. -/
theorem Agree.fill {u : Bool} {blkno : UInt32} {dsk : ℕ} {data : β}
    (h : Agree M A (b :: bufs) w) (hclean : b.bFlag.dirty = false)
    (hmiss : ∀ c ∈ bufs, c.holds blkno dsk = false)
    (hdata : (dsk, blkno) ∉ M → ∀ d, A (dsk, blkno) = some d → data = d) :
    Agree M A ({ b with
      bBuffer := data
      bFlag := { Flags.none with valid := true, data := u }
      bUnit := dsk
      bBlkno := blkno } :: bufs) w := by
  refine (h.drop fun _ => hclean).add (fun c hc hv heq => ?_) hdata rfl
  have := hmiss c hc
  rw [holds_iff.mpr ⟨hv, heq.symm⟩] at this
  exact Bool.false_ne_true this.symm

/-- **What `getblk` does**, if no write has failed: the cache agrees with the array afterwards, and
what it returns is the block, with the contents the array says unless it is to be overwritten. -/
theorem getblk_spec {P : Set Key} {s : State β} (h : Coherent M A s) (hA : ∀ k ∉ P, A k = none)
    {blkno : UInt32} {dsk : ℕ} {overwrite : Bool} {read : Option β}
    (hok : ReadOkIn P s (.getblk blkno dsk overwrite read)) (hM : (dsk, blkno) ∉ M)
    (hw : (getblk s blkno dsk overwrite read).2.world.writeFailed = false) :
    Coherent M (store A s (.getblk blkno dsk overwrite read))
        (getblk s blkno dsk overwrite read).2 ∧
      ∀ bp, (getblk s blkno dsk overwrite read).1 = some bp → overwrite = false →
        ∀ d, A (dsk, blkno) = some d → bp.bBuffer = d := by
  have hturn {i : ℕ} {b : Buffer β} (hb : s.bufs[i]? = some b) (u : Bool) :
      Agree M A (b.given u :: s.bufs.eraseIdx i) s.world :=
    (h.agree.perm (perm_eraseIdx hb)).recycle u
  rw [store]
  have hf := getblk_fetched s blkno dsk overwrite read
  generalize getblk s blkno dsk overwrite read = r at hf hw ⊢
  cases hf with
  | noBuffer =>
    have hco : Coherent M A ⟨s.bufs, s.world, []⟩ := ⟨h.agree, held_nil _⟩
    exact ⟨hco.forget _ _, fun _ hbp => nomatch hbp⟩
  | @hit i b hs hb hholds =>
    obtain ⟨hv, hkey⟩ := holds_iff.mp hholds
    have hagree := hturn hb false
    have hco : Coherent M A
        ⟨b.given false :: s.bufs.eraseIdx i, s.world, s.holding (dsk, blkno) i⟩ :=
      ⟨hagree, held_holding h.held hv hkey⟩
    refine ⟨hco.forget _ _, fun bp hbp _ d hd => ?_⟩
    obtain rfl := Option.some.inj hbp
    exact hagree.cached _ List.mem_cons_self hv (hkey ▸ hM) d (hkey ▸ hd)
  | flushFailed hs hb hmiss hflush =>
    obtain ⟨hdone, -, -⟩ := (hturn hb true).flush1 hw
    rw [hdone] at hflush
    exact absurd hflush.symm Bool.false_ne_true
  | @readFailed i b garbage hs hb hmiss _ hover hread =>
    -- the buffer is not marked for the block
    subst hover hread
    obtain ⟨-, hflag, hagree⟩ := (hturn hb true).flush1 hw
    have hclean : (flush1 (b.given true) s.world).2.1.bFlag.dirty = false := by rw [hflag]
    have hagree' : Agree M A ({ (flush1 (b.given true) s.world).2.1 with bBuffer := garbage } ::
        s.bufs.eraseIdx i) (flush1 (b.given true) s.world).2.2 := by
      cases hv : b.bFlag.valid with
      | true =>
        rw [hflag] at hagree ⊢
        by_cases hP : b.key ∈ P
        · rw [← hok i _ _ hs rfl hv hP]
          exact hagree
        · exact hagree.garbage (hA _ hP) garbage
      | false =>
        refine (hagree.drop fun _ => hclean).add_invalid ?_
        rw [hflag]
        exact hv
    have hco : Coherent M A ⟨{ (flush1 (b.given true) s.world).2.1 with bBuffer := garbage } ::
        s.bufs.eraseIdx i, (flush1 (b.given true) s.world).2.2, []⟩ := ⟨hagree', held_nil _⟩
    exact ⟨hco.forget _ _, fun _ hbp => nomatch hbp⟩
  | @filled i b bp data hs hb hmiss _ hdata hbp =>
    obtain ⟨-, hflag, hagree⟩ := (hturn hb true).flush1 hw
    have hclean : (flush1 (b.given true) s.world).2.1.bFlag.dirty = false := by rw [hflag]
    have hmiss' : ∀ c ∈ s.bufs.eraseIdx i, c.holds blkno dsk = false :=
      fun c hc => hmiss c (List.mem_of_mem_eraseIdx hc)
    have hdisk : overwrite = false → ∀ d, A (dsk, blkno) = some d → data = d := by
      intro hover d hd
      rw [hdata hover]
      refine hagree.stored _ hM
        (List.forall_mem_cons.mpr ⟨fun _ hdirty => ?_, fun c hc hv _ hk => ?_⟩) d hd
      · rw [hclean] at hdirty
        exact absurd hdirty Bool.false_ne_true
      · have := hmiss' c hc
        rw [holds_iff.mpr ⟨hv, hk⟩] at this
        exact Bool.false_ne_true this.symm
    have hagree' : Agree M (if overwrite && (some bp).isSome then
        Function.update A (dsk, blkno) none else A) (bp :: s.bufs.eraseIdx i)
        (flush1 (b.given true) s.world).2.2 := by
      rw [hbp]
      cases overwrite with
      | true => exact (hagree.forget _).fill hclean hmiss' fun _ d hd => by simp at hd
      | false => exact hagree.fill hclean hmiss' fun _ => hdisk rfl
    refine ⟨⟨hagree', held_holding h.held (by rw [hbp]) (by rw [hbp]; rfl)⟩,
      fun bp' hbp' hover d hd => ?_⟩
    obtain rfl := Option.some.inj hbp'
    rw [hbp]
    exact hdisk hover d hd

theorem touch_key (b : Buffer β) (m : Mark) (data : Option β) (uncache : Bool) :
    (b.touch m data uncache).key = b.key ∧ (b.touch m data uncache).bFlag.valid = true := by
  cases m <;> exact ⟨rfl, rfl⟩

/-- A caller works on a valid buffer; if it stores something, that is the new content. -/
theorem Agree.touch {k : Key} (h : Agree M A (b :: bufs) w) (hv : b.bFlag.valid = true)
    (hk : b.key = k) {m : Mark} (hm : ∀ copies offset xfatsize, m = .fat copies offset xfatsize →
      MirrorsIn M k.1 k.2 (if offset = 0 then xfatsize else offset) copies)
    (data : Option β) (uncache : Bool) :
    Agree M (put A k data) (b.touch m data uncache :: bufs) w := by
  obtain ⟨hkey, hvalid⟩ := touch_key b m data uncache
  have hother : ∀ c ∈ bufs, c.bFlag.valid = true → c.key ≠ k := fun c hc hcv hck =>
    (List.pairwise_cons.mp h.unique).1 c hc hv hcv (hk.trans hck.symm)
  have hdata : (b.touch m data uncache).bBuffer = data.getD b.bBuffer := by cases m <;> rfl
  have hdirty : (b.touch m data uncache).bFlag.dirty = (b.bFlag.dirty || data.isSome) := by
    cases m <;> rfl
  refine ⟨List.pairwise_cons.mpr ⟨fun c hc _ hcv => ?_, (List.pairwise_cons.mp h.unique).2⟩,
    List.forall_mem_cons.mpr ⟨fun _ hM d hd => ?_, fun c hc hcv hM d hd => ?_⟩,
    fun j hj hno d hd => ?_, List.forall_mem_cons.mpr ⟨fun _ hfat => ?_, ?_⟩⟩
  · rw [hkey, hk]; exact (hother c hc hcv).symm
  · rw [hkey, hk] at hM hd
    rw [hdata]
    cases data with
    | some e => simpa [put] using hd
    | none => exact h.cached b List.mem_cons_self hv (hk ▸ hM) d (hk ▸ hd)
  · refine h.cached c (List.mem_cons_of_mem b hc) hcv hM d ?_
    cases data with
    | some e =>
      rwa [put, Function.update_of_ne (hother c hc hcv)] at hd
    | none => exact hd
  · obtain ⟨hself, hrest⟩ := List.forall_mem_cons.mp hno
    have hjk : data.isSome = true → j ≠ k := by
      rintro hs rfl
      exact hself hvalid (by rw [hdirty, hs, Bool.or_true]) (hkey.trans hk)
    refine h.stored j hj (List.forall_mem_cons.mpr ⟨fun _ hd => ?_, hrest⟩) d ?_
    · rw [← hkey]
      exact hself hvalid (by rw [hdirty, hd, Bool.true_or])
    · cases data with
      | some e =>
        rwa [put, Function.update_of_ne (hjk rfl)] at hd
      | none => exact hd
  · cases m with
    | keep => exact h.mirrors b List.mem_cons_self hv hfat
    | fat copies offset xfatsize => subst hk; exact hm copies offset xfatsize rfl
    | dir => exact absurd hfat Bool.false_ne_true
    | other => exact absurd hfat Bool.false_ne_true
  · exact (List.forall_mem_cons.mp h.mirrors).2

/-- The buffer at position `i`, seen before the others. -/
theorem perm_set {i : ℕ} {b : Buffer β} (h : bufs[i]? = some b) (b' : Buffer β) :
    (bufs.set i b').Perm (b' :: bufs.eraseIdx i) := by
  have hi := (List.getElem?_eq_some_iff.mp h).1
  have := perm_eraseIdx (List.getElem?_set_self hi : (bufs.set i b')[i]? = some b')
  rwa [List.eraseIdx_set_eq] at this

theorem touch_spec {s : State β} (h : Coherent M A s) {i : ℕ} {m : Mark} {data : Option β}
    {uncache : Bool} (hr : Allowed M s (.touch i m data uncache)) :
    Coherent M (store A s (.touch i m data uncache)) (serve s (.touch i m data uncache)) := by
  obtain ⟨k, hk, hm⟩ := hr
  obtain ⟨b, hb, hv, hkey⟩ := h.held i k hk
  have hset : s.bufs.modify i (fun bp => bp.touch m data uncache) =
      s.bufs.set i (b.touch m data uncache) := by
    rw [List.modify_eq_set_getElem?, hb]; rfl
  have hstore : store A s (.touch i m data uncache) = put A k data := by simp only [store, hk]
  rw [serve, hset, hstore]
  refine ⟨((h.agree.perm (perm_eraseIdx hb)).touch hv hkey hm data uncache).perm
    (perm_set hb _).symm, fun j k' hj => ?_⟩
  obtain ⟨c, hc, hcv, hck⟩ := h.held j k' hj
  rcases eq_or_ne i j with rfl | hij
  · rw [hb] at hc
    cases hc
    have hi := (List.getElem?_eq_some_iff.mp hb).1
    obtain ⟨h1, h2⟩ := touch_key b m data uncache
    exact ⟨_, List.getElem?_set_self hi, h2, h1.trans hck⟩
  · exact ⟨c, by rw [List.getElem?_set_ne hij, hc], hcv, hck⟩

/-- A direct write, with the buffers of its range unmarked. -/
theorem Agree.overwrite (h : Agree M A bufs w) (blknolow blknohigh : UInt32) (dsk : ℕ)
    (data : UInt32 → β) :
    Agree M (fun k => if k.1 = dsk ∧ blknolow ≤ k.2 ∧ k.2 ≤ blknohigh then some (data k.2) else A k)
      (bufs.map fun bp =>
        if bp.inRange blknolow blknohigh dsk then { bp with bFlag := Flags.none } else bp)
      { w with disk := fun k =>
          if k.1 = dsk ∧ blknolow ≤ k.2 ∧ k.2 ≤ blknohigh then data k.2 else w.disk k } := by
  -- a buffer that is valid afterwards was there before, and is not in the range
  have hvalid : ∀ b : Buffer β, (if b.inRange blknolow blknohigh dsk then
      { b with bFlag := Flags.none } else b).bFlag.valid = true →
      (if b.inRange blknolow blknohigh dsk then { b with bFlag := Flags.none } else b) = b ∧
        ¬ (b.key.1 = dsk ∧ blknolow ≤ b.key.2 ∧ b.key.2 ≤ blknohigh) := by
    intro b hv
    split at hv
    · exact absurd hv Bool.false_ne_true
    · rename_i hr
      refine ⟨if_neg hr, fun ⟨h1, h2, h3⟩ => hr ?_⟩
      simp only [Buffer.key] at h1 h2 h3
      simp [Buffer.inRange, h1, h2, h3, hv]
  refine ⟨List.pairwise_map.mpr (h.unique.imp fun hbc hb hc => ?_), fun c hc hv hM d hd => ?_,
    fun k hk hno d hd => ?_, fun c hc hv hf => ?_⟩
  · obtain ⟨heqb, -⟩ := hvalid _ hb
    obtain ⟨heqc, -⟩ := hvalid _ hc
    rw [heqb] at hb ⊢
    rw [heqc] at hc ⊢
    exact hbc hb hc
  · obtain ⟨b, hb, rfl⟩ := List.mem_map.mp hc
    obtain ⟨heq, hout⟩ := hvalid b hv
    rw [heq] at hv hM hd ⊢
    rw [if_neg hout] at hd
    exact h.cached b hb hv hM d hd
  · dsimp only at hd ⊢
    split at hd
    · rename_i hin
      rw [if_pos hin]
      exact Option.some.inj hd
    · rename_i hout
      rw [if_neg hout]
      refine h.stored k hk (fun b hb hv hdirty hkey => ?_) d hd
      have hr : ¬ b.inRange blknolow blknohigh dsk = true := by
        intro hr
        simp only [Buffer.inRange, Bool.and_eq_true, decide_eq_true_eq, beq_iff_eq] at hr
        exact hout (hkey ▸ ⟨hr.2, hr.1.1.1, hr.1.1.2⟩)
      have hmem := List.mem_map_of_mem (f := fun bp : Buffer β =>
        if bp.inRange blknolow blknohigh dsk then { bp with bFlag := Flags.none } else bp) hb
      rw [if_neg hr] at hmem
      exact hno b hmem hv hdirty hkey
  · obtain ⟨b, hb, rfl⟩ := List.mem_map.mp hc
    obtain ⟨heq, -⟩ := hvalid b hv
    rw [heq] at hv hf ⊢
    exact h.mirrors b hb hv hf

/-! ## Runs -/

/-- **Every request keeps the cache and the array in agreement**, if no write has failed. -/
theorem serve_coherent {P : Set Key} {s : State β} (h : Coherent M A s) (hA : ∀ k ∉ P, A k = none)
    {r : Request β} (hr : Allowed M s r) (hok : ReadOkIn P s r)
    (hw : (serve s r).world.writeFailed = false) : Coherent M (store A s r) (serve s r) := by
  cases r with
  | getblk blkno dsk overwrite read => exact (getblk_spec h hA hok hr hw).1
  | touch i m data uncache => exact touch_spec h hr
  | flush1 i =>
    rw [serve] at hw ⊢
    cases hb : s.bufs[i]? with
    | none => exact h
    | some b =>
      rw [hb] at hw
      have := ((h.agree.perm (perm_eraseIdx hb)).flush1 hw).2.2
      exact ⟨this.perm (perm_set hb _).symm, held_nil _⟩
  | flushBuffers dsk =>
    exact ⟨flushLoop_spec (Or.inl fun _ => rfl) [] h.agree hw, held_nil _⟩
  | flush =>
    exact ⟨flushLoop_spec (Or.inr fun _ => ⟨rfl, rfl⟩) [] h.agree hw, held_nil _⟩
  | transfer blknolow blknohigh dsk mode data ok =>
    cases mode with
    | read => exact ⟨flushLoop_spec (Or.inl fun _ => rfl) [] h.agree hw, held_nil _⟩
    | write =>
      cases ok with
      | true => exact ⟨h.agree.overwrite blknolow blknohigh dsk data, held_nil _⟩
      | false => exact absurd hw (by simp [serve, transfer])

theorem serve_mono {s : State β} {r : Request β} (hw : (serve s r).world.writeFailed = false) :
    s.world.writeFailed = false := by
  cases r with
  | getblk blkno dsk overwrite read =>
    rw [serve] at hw
    have hf := getblk_fetched s blkno dsk overwrite read
    generalize getblk s blkno dsk overwrite read = r at hf hw
    cases hf with
    | noBuffer => exact hw
    | hit => exact hw
    | flushFailed => exact flush1_mono hw
    | readFailed => exact flush1_mono hw
    | filled => exact flush1_mono hw
  | touch => exact hw
  | flush1 i =>
    rw [serve] at hw
    split at hw
    · exact hw
    · exact flush1_mono hw
  | flushBuffers dsk => exact flushLoop_mono hw
  | flush => exact flushLoop_mono hw
  | transfer blknolow blknohigh dsk mode data ok =>
    cases mode with
    | read => exact flushLoop_mono hw
    | write =>
      cases ok with
      | true => exact hw
      | false => exact absurd hw (by simp [serve, transfer])

/-- A step of the cache beside the array. -/
def both (p : State β × (Key → Option β)) (r : Request β) : State β × (Key → Option β) :=
  (serve p.1 r, store p.2 p.1 r)

/-- If `getblk` without `overwrite` succeeds while no write has failed, it returns what the array
says. -/
def Reads (p : State β × (Key → Option β)) : Request β → Prop
  | .getblk blkno dsk false read =>
    (getblk p.1 blkno dsk false read).2.world.writeFailed = false →
      ∀ bp, (getblk p.1 blkno dsk false read).1 = some bp →
        ∀ d, p.2 (dsk, blkno) = some d → bp.bBuffer = d
  | _ => True

/-- **The cache is a plain array of sectors** in every run whose failing reads find their buffers
unmarked or leave them alone. -/
theorem reads_run {s : State β} (h : Coherent M A s) {reqs : List (Request β)}
    (hreqs : Along both (fun p r => Allowed M p.1 r ∧ ReadOk p.1 r) (s, A) reqs) :
    Along both Reads (s, A) reqs := by
  refine Along.of_inv (I := fun p => p.1.world.writeFailed = false → Coherent M p.2 p.1)
    (fun p r hp hr => ⟨fun hw => ?_, ?_⟩) (fun _ => h) hreqs
  · exact serve_coherent (P := Set.univ) (hp (serve_mono hw)) (fun k hk => absurd trivial hk) hr.1
      (hr.2.inside _) hw
  · cases r with
    | getblk blkno dsk overwrite read =>
      cases overwrite with
      | true => trivial
      | false =>
        intro hw bp hbp
        have hco := hp (serve_mono (r := .getblk blkno dsk false read) hw)
        exact (getblk_spec (P := Set.univ) hco (fun k hk => absurd trivial hk) (hr.2.inside _)
          hr.1 hw).2 bp hbp rfl
    | _ => trivial

/-! ## The cache at the start -/

/-- The `i`-th of `n` buffers, none of which is in use yet; `buf` is what they all hold. -/
def Buffer.unused (buf : β) (i : ℕ) : Buffer β := ⟨bufferSize * i, 0, 0, Flags.none, 0, 0, 0, buf⟩

/-- No buffer is in use yet. -/
def State.start (n : ℕ) (buf : β) (disk : Key → β) (outcomes : List Bool) : State β :=
  ⟨(List.range n).map (Buffer.unused buf), ⟨disk, outcomes, false⟩, []⟩

/-- At the start the array is the drives. -/
theorem coherent_start (n : ℕ) (buf : β) (disk : Key → β) (outcomes : List Bool) :
    Coherent M (fun k => some (disk k)) (State.start n buf disk outcomes) := by
  have hnone : ∀ b ∈ (State.start n buf disk outcomes).bufs, b.bFlag.valid = false := by
    intro b hb
    obtain ⟨i, -, rfl⟩ := List.mem_map.mp hb
    rfl
  have hinvalid {P : Prop} {b : Buffer β} (hb : b ∈ (State.start n buf disk outcomes).bufs)
      (hv : b.bFlag.valid = true) : P := by
    rw [hnone b hb] at hv
    exact absurd hv Bool.false_ne_true
  exact ⟨⟨List.pairwise_of_forall_mem_list fun b hb _ _ hv => hinvalid hb hv,
    fun b hb hv => hinvalid hb hv, fun k _ _ d hd => Option.some.inj hd,
    fun b hb hv => hinvalid hb hv⟩, held_nil _⟩

/-- Sector `n` of each drive holds `n`. -/
def numbered (k : Key) : ℕ := k.2.toNat

/-- A read fails before any buffer is marked; then a sector is stored to, pushed out of the two
buffers, and read again. -/
def pushedOut : List (Request ℕ) :=
  [.getblk 1 0 false (some 99), .getblk 1 0 false none, .touch 0 .dir (some 7) false,
    .getblk 2 0 false none, .getblk 3 0 false none, .getblk 1 0 false none]

theorem reads_run_pushedOut :
    Along both Reads (State.start 2 0 numbered [], fun k => some (numbered k)) pushedOut :=
  reads_run (coherent_start (M := ∅) 2 0 numbered [])
    ⟨⟨fun h => h, fun _ _ _ hs _ hv => by cases hs; exact absurd hv Bool.false_ne_true⟩,
      ⟨fun h => h, trivial⟩, ⟨⟨(0, 1), rfl, fun _ _ _ h => nomatch h⟩, trivial⟩,
      ⟨fun h => h, trivial⟩, ⟨fun h => h, trivial⟩, ⟨fun h => h, trivial⟩, trivial⟩

/-- The read of sector 3 fails in the buffer that has sector 1, and leaves garbage there. -/
def staleVictim : List (Request ℕ) :=
  [.getblk 1 0 false none, .getblk 2 0 false none, .getblk 3 0 false (some 99),
    .getblk 1 0 false none]

/-- Then `getblk` finds sector 1 in that buffer. -/
theorem staleVictim_reads :
    Along both (fun p r => Allowed ∅ p.1 r)
        (State.start 2 0 numbered [], fun k => some (numbered k)) staleVictim ∧
      ¬ Along both Reads (State.start 2 0 numbered [], fun k => some (numbered k)) staleVictim :=
  ⟨⟨fun h => h, fun h => h, fun h => h, fun h => h, trivial⟩,
    fun ⟨_, _, _, h, _⟩ => absurd (h rfl _ rfl _ rfl) (by decide)⟩

end Cache
end BurdahDos
