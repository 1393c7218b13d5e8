import BurdahDos.Sys.Copy
import Mathlib

/-!
# When a system file is copied

The byte number `i` of the file is at `i` in the block, as long as this is below 1 MB.  What the
reads return in total says where the next bytes go.

* `copies_iff`: the destination is a copy or not there at all, whatever has been in memory, if and
  only if there was memory, the reads come to an end within the block, and they were complete or a
  write fails.
* `no_memory_truncates`: without memory an empty destination is left.
-/

set_option autoImplicit false

namespace BurdahDos
namespace Sys

/-! ## Far pointers -/

/-- Advancing keeps the linear addresses in order, below 1 MB. -/
theorem advance_iterate {seg i : ℕ} (h : seg * 16 + i ≤ 2 ^ 20) :
    (Far.advance^[i] ⟨seg, 0⟩).linear = seg * 16 + i ∧ (Far.advance^[i] ⟨seg, 0⟩).off ≤ 0x7777 ∧
      (Far.advance^[i] ⟨seg, 0⟩).off ≤ i := by
  induction i with
  | zero => exact ⟨rfl, Nat.zero_le _, Nat.le_refl _⟩
  | succ i ih =>
    obtain ⟨hlin, hoff, hle⟩ := ih (by omega)
    rw [Function.iterate_succ_apply']
    generalize Far.advance^[i] ⟨seg, 0⟩ = p at hlin hoff hle
    have hmod : (p.off + 1) % 65536 = p.off + 1 := Nat.mod_eq_of_lt (by omega)
    rw [Far.linear] at hlin
    rw [Far.advance]
    simp only [hmod]
    split
    next hgt =>
      have hseg : (p.seg + 0x700) % 65536 = p.seg + 0x700 := Nat.mod_eq_of_lt (by omega)
      simp only [Far.linear, hseg]
      omega
    next =>
      simp only [Far.linear]
      omega

theorem advance_linear {seg i : ℕ} (h : seg * 16 + i ≤ 2 ^ 20) :
    (Far.advance^[i] ⟨seg, 0⟩).linear = seg * 16 + i := (advance_iterate h).1

/-! ## Storing and loading -/

section store

variable {seg size t offs k : ℕ} {copybuffer : ℕ → UInt8} {s : Stored}

theorem put_bufptr (size : ℕ) (hptr : s.bufptr = Far.advance^[t] ⟨seg, 0⟩) (c : UInt8) :
    (s.put (seg * 16) size c).bufptr = Far.advance^[t + 1] ⟨seg, 0⟩ := by
  rw [Function.iterate_succ_apply', ← hptr]
  rfl

theorem storeLoop_ptr (hptr : s.bufptr = Far.advance^[t] ⟨seg, 0⟩) :
    (storeLoop (seg * 16) size copybuffer k offs s).bufptr = Far.advance^[t + k] ⟨seg, 0⟩ := by
  induction k generalizing t offs s with
  | zero => exact hptr
  | succ k ih =>
    have hnext := put_bufptr size hptr (copybuffer offs)
    rw [storeLoop, ih hnext, Nat.add_assoc, Nat.add_comm 1 k]

/-- A store outside the block is one behind its end. -/
theorem storeLoop_outside (hsize : seg * 16 + size ≤ 2 ^ 20)
    (hptr : s.bufptr = Far.advance^[t] ⟨seg, 0⟩) (hout : s.outside = decide (size < t)) :
    (storeLoop (seg * 16) size copybuffer k offs s).outside = decide (size < t + k) := by
  induction k generalizing t offs s with
  | zero => exact hout
  | succ k ih =>
    have hnext := put_bufptr size hptr (copybuffer offs)
    have hout' : (s.put (seg * 16) size (copybuffer offs)).outside = decide (size < t + 1) := by
      rw [Stored.put, hout, hptr]
      by_cases ht : t ≤ size
      · simp only [advance_linear (show seg * 16 + t ≤ 2 ^ 20 by omega)]
        rw [Bool.eq_iff_iff]
        simp only [Bool.or_eq_true, Bool.not_eq_true', Bool.and_eq_false_iff, decide_eq_true_eq,
          decide_eq_false_iff_not]
        omega
      · have hlt : size < t := Nat.lt_of_not_le ht
        rw [decide_eq_true hlt, decide_eq_true (Nat.lt_succ_of_lt hlt), Bool.true_or]
    rw [storeLoop, ih hnext hout', Nat.add_assoc, Nat.add_comm 1 k]

/-- The bytes are stored one behind the other, and nothing else is. -/
theorem storeLoop_mem (hle : seg * 16 + (t + k) ≤ 2 ^ 20)
    (hptr : s.bufptr = Far.advance^[t] ⟨seg, 0⟩) (a : ℕ) :
    (storeLoop (seg * 16) size copybuffer k offs s).mem a =
      if seg * 16 + t ≤ a ∧ a < seg * 16 + (t + k) then copybuffer (offs + (a - (seg * 16 + t)))
      else s.mem a := by
  induction k generalizing t offs s with
  | zero => rw [if_neg (by omega)]; rfl
  | succ k ih =>
    have hnext := put_bufptr size hptr (copybuffer offs)
    have hput : (s.put (seg * 16) size (copybuffer offs)).mem a =
        if a = seg * 16 + t then copybuffer offs else s.mem a := by
      rw [Stored.put, hptr, advance_linear (by omega)]
      exact Function.update_apply _ _ _ _
    rw [storeLoop, ih (by omega) hnext, hput]
    by_cases ha : a = seg * 16 + t
    · subst ha
      rw [if_neg (by omega), if_pos rfl, if_pos (by omega), Nat.sub_self, Nat.add_zero]
    · by_cases hin : seg * 16 + (t + 1) ≤ a ∧ a < seg * 16 + (t + 1 + k)
      · have hoffs : offs + 1 + (a - (seg * 16 + (t + 1))) = offs + (a - (seg * 16 + t)) := by omega
        rw [if_pos hin, if_pos (by omega), hoffs]
      · rw [if_neg hin, if_neg ha, if_neg (by omega)]

end store

theorem loadLoop_eq (mem : ℕ → UInt8) (k : ℕ) (p : Far) : loadLoop mem k p =
    ((List.range k).map fun i => mem (Far.advance^[i] p).linear, Far.advance^[k] p) := by
  induction k generalizing p with
  | zero => rfl
  | succ k ih =>
    rw [loadLoop, ih, List.range_succ_eq_map, List.map_cons, List.map_map]
    rfl

theorem loadLoop_add (mem : ℕ → UInt8) (j k : ℕ) (p : Far) : (loadLoop mem (j + k) p).1 =
    (loadLoop mem j p).1 ++ (loadLoop mem k (loadLoop mem j p).2).1 := by
  induction j generalizing p with
  | zero => rw [Nat.zero_add]; rfl
  | succ j ih =>
    rw [Nat.succ_add, loadLoop, loadLoop]
    simp only [ih, List.cons_append]

/-! ## Reading -/

/-- The reads come to an end. -/
def Ends (reads : ℕ → UInt16) (n : ℕ) : Prop := reads n = 0 ∧ ∀ i < n, reads i ≠ 0

theorem total_mono (reads : ℕ → UInt16) {i n : ℕ} (h : i ≤ n) : total reads i ≤ total reads n := by
  induction n with
  | zero => exact le_of_eq (congrArg _ (Nat.le_zero.1 h))
  | succ n ih =>
    rcases Nat.le_succ_iff.1 h with hle | rfl
    · exact Nat.le_trans (ih hle) (Nat.le_add_right _ _)
    · exact Nat.le_refl _

theorem chunkSize_le (filesize copied : ℕ) : chunkSize filesize copied ≤ copySize := by
  rw [chunkSize]
  split
  next => exact Nat.le_refl _
  next h => exact Nat.not_lt.1 h

/-- What holds after `n` reads. -/
structure Env.Invariant (e : Env) (seg : ℕ) (mem copybuffer : ℕ → UInt8) (n : ℕ) (r : Reading) :
    Prop where
  pos : r.pos = position e.reads n
  copied : r.copied = total e.reads n % 2 ^ 32
  bufptr : r.stored.bufptr = Far.advance^[total e.reads n] ⟨seg, 0⟩
  outside : r.stored.outside = decide (e.blockBytes < total e.reads n)
  /-- What is behind `copybuffer` stays as it was. -/
  behind : ∀ i, copySize ≤ i → r.copybuffer i = copybuffer i
  /-- What is behind the bytes stored stays as it was. -/
  fresh : seg * 16 + total e.reads n ≤ 2 ^ 20 →
    ∀ a, seg * 16 + total e.reads n ≤ a → r.stored.mem a = mem a
  /-- Without an error, the bytes are those of the source. -/
  good : seg * 16 + total e.reads n ≤ 2 ^ 20 → (∀ i < n, (e.reads i).toNat ≠ readError) →
    ∀ i < total e.reads n, r.stored.mem (seg * 16 + i) = e.source.getD i 0
  /-- An error stores what is behind `copybuffer`. -/
  bad : seg * 16 + total e.reads n ≤ 2 ^ 20 → ∀ i < n, (e.reads i).toNat = readError →
    r.stored.mem (seg * 16 + (total e.reads i + copySize)) = copybuffer copySize

theorem position_eq {reads : ℕ → UInt16} {n : ℕ} (h : ∀ i < n, (reads i).toNat ≠ readError) :
    position reads n = total reads n := by
  induction n with
  | zero => rfl
  | succ n ih =>
    rw [position, total, ih fun i hi => h i (Nat.lt_succ_of_lt hi), if_neg (h n (Nat.lt_succ_self n))]

section read

variable {e : Env} {seg : ℕ} {mem copybuffer : ℕ → UInt8}

theorem read_behind {r : Reading} {n : ℕ} (i : ℕ) (hi : copySize ≤ i) :
    (e.read (e.reads n).toNat r).copybuffer i = r.copybuffer i := by
  rw [Env.read]
  split
  next => rfl
  next hne =>
    obtain herr | ⟨hle, -⟩ := e.reads_le n
    · exact absurd herr hne
    · have := chunkSize_le e.source.length (total e.reads n % 2 ^ 32)
      exact if_neg (by omega)

theorem read_stored (ret : ℕ) (r : Reading) : (e.read ret r).stored = r.stored := by
  rw [Env.read]
  split <;> rfl

/-- What one read and the loop behind it do. -/
theorem Env.Invariant.step {n : ℕ} {r : Reading} (h : e.Invariant seg mem copybuffer n r)
    (hblock : seg * 16 + e.blockBytes ≤ 2 ^ 20) (chunk : ℕ) :
    e.Invariant seg mem copybuffer (n + 1)
      { e.read (e.reads n).toNat r with
        copied := (r.copied + (e.reads n).toNat) % 2 ^ 32
        chunkSize := chunk
        stored := storeLoop (seg * 16) e.blockBytes (e.read (e.reads n).toNat r).copybuffer
          (e.reads n).toNat 0 r.stored } where
  pos := by
    simp only [Env.read, position]
    split
    next => exact h.pos
    next => rw [h.pos]
  copied := by
    rw [h.copied, total, Nat.mod_add_mod]
  bufptr := storeLoop_ptr h.bufptr
  outside := storeLoop_outside hblock h.bufptr h.outside
  behind i hi := (read_behind i hi).trans (h.behind i hi)
  fresh hle a ha := by
    rw [total] at hle ha
    simp only
    rw [storeLoop_mem hle h.bufptr, if_neg (by omega), h.fresh (by omega) a (by omega)]
  good hle hgood i hi := by
    rw [total] at hle hi
    have hgood' : ∀ i < n, (e.reads i).toNat ≠ readError :=
      fun i hi => hgood i (Nat.lt_succ_of_lt hi)
    simp only
    rw [storeLoop_mem hle h.bufptr]
    by_cases hnew : total e.reads n ≤ i
    · rw [if_pos (by omega), Env.read, if_neg (hgood n (Nat.lt_succ_self n))]
      have hsum : r.pos + (0 + (seg * 16 + i - (seg * 16 + total e.reads n))) = i := by
        rw [h.pos, position_eq hgood']
        omega
      simp only [if_pos (show 0 + (seg * 16 + i - (seg * 16 + total e.reads n)) <
        (e.reads n).toNat by omega), hsum]
    · rw [if_neg (by omega), h.good (by omega) hgood' i (by omega)]
  bad hle i hi herr := by
    rw [total] at hle
    simp only
    rw [storeLoop_mem hle h.bufptr]
    have hcopy : copySize = 0x4000 := rfl
    have herror : readError = 0xffff := rfl
    rcases Nat.lt_succ_iff_lt_or_eq.1 hi with hold | rfl
    · have hstep : total e.reads i + (e.reads i).toNat ≤ total e.reads n :=
        total_mono e.reads (Nat.succ_le_of_lt hold)
      rw [if_neg (by omega), h.bad (by omega) i hold herr]
    · have hoffs : 0 + (seg * 16 + (total e.reads i + copySize) - (seg * 16 + total e.reads i)) =
          copySize := by omega
      rw [if_pos (by omega), hoffs, read_behind copySize (Nat.le_refl _),
        h.behind copySize (Nat.le_refl _)]

/-- What holds when the reads have come to an end. -/
theorem readLoop_ends {n fuel i : ℕ} {r : Reading} (hends : Ends e.reads n)
    (hblock : seg * 16 + e.blockBytes ≤ 2 ^ 20) (h : e.Invariant seg mem copybuffer i r) (hi : i ≤ n)
    (hfuel : n < i + fuel) :
    ∃ r', e.readLoop (seg * 16) fuel i r = some r' ∧ ∃ r'', e.Invariant seg mem copybuffer n r'' ∧
      r'.stored = r''.stored := by
  induction fuel generalizing i r with
  | zero => omega
  | succ fuel ih =>
    rw [Env.readLoop]
    simp only
    by_cases hlast : i = n
    · subst hlast
      have hzero : (e.reads i).toNat = 0 := by rw [hends.1]; rfl
      rw [hzero, if_pos rfl]
      exact ⟨_, rfl, r, h, read_stored 0 r⟩
    · have hne : (e.reads i).toNat ≠ 0 := by
        intro hzero
        exact hends.2 i (by omega) (UInt16.toNat_inj.1 hzero)
      rw [if_neg hne]
      have hstep := h.step hblock (chunkSize e.filesize ((r.copied + (e.reads i).toNat) % 2 ^ 32))
      have hcopied : (e.read (e.reads i).toNat r).copied = r.copied := by
        rw [Env.read]
        split <;> rfl
      rw [hcopied, read_stored]
      exact ih hstep (by omega) (by omega)

/-- If the loop comes to an end, the reads do. -/
theorem ends_of_readLoop {lo fuel i : ℕ} {r r' : Reading} (h : e.readLoop lo fuel i r = some r')
    (hbefore : ∀ j < i, e.reads j ≠ 0) : ∃ n, Ends e.reads n := by
  induction fuel generalizing i r with
  | zero => exact absurd h (by simp [Env.readLoop])
  | succ fuel ih =>
    rw [Env.readLoop] at h
    simp only at h
    split at h
    next hzero => exact ⟨i, UInt16.toNat_inj.1 hzero, hbefore⟩
    next hne =>
      refine ih h fun j hj => ?_
      rcases Nat.lt_succ_iff_lt_or_eq.1 hj with hold | rfl
      · exact hbefore j hold
      · exact fun hz => hne (by rw [hz]; rfl)

end read

/-! ## Writing -/

/-- The chunk number `i` is written. -/
def Env.Writes (e : Env) (i : ℕ) : Prop :=
  (e.writes i).toNat = min copySize (e.filesize - i * copySize)

/-- A write fails. -/
def Env.WriteFails (e : Env) : Prop :=
  ∃ i, (i = 0 ∨ i * copySize < e.filesize) ∧ ¬ e.Writes i

section write

variable {e : Env} {mem : ℕ → UInt8}

theorem chunkSize_mul {i : ℕ} (h : i * copySize ≤ e.filesize) :
    chunkSize e.filesize (i * copySize) = min copySize (e.filesize - i * copySize) := by
  have hlt : e.filesize < 2 ^ 32 := e.source_lt
  have hrest : (e.filesize + 2 ^ 32 - i * copySize) % 2 ^ 32 = e.filesize - i * copySize := by omega
  rw [chunkSize, hrest]
  split <;> omega

theorem chunk_le {i : ℕ} (hi : i = 0 ∨ i * copySize < e.filesize) : i * copySize ≤ e.filesize := by
  rcases hi with rfl | hi
  · rw [Nat.zero_mul]
    exact Nat.zero_le _
  · exact Nat.le_of_lt hi

/-- The loop writes what is in the block, unless a write fails. -/
theorem writeLoop_spec (e : Env) (mem : ℕ → UInt8) {fuel i : ℕ} (hi : i = 0 ∨ i * copySize < e.filesize)
    (hfuel : e.filesize < (i + fuel) * copySize) (p : Far) (out : Str) :
    ((∀ j, i ≤ j → (j = i ∨ j * copySize < e.filesize) → e.Writes j) →
      e.writeLoop mem fuel i (i * copySize) p out =
        some (true, out ++ (loadLoop mem (e.filesize - i * copySize) p).1)) ∧
    ((∃ j, i ≤ j ∧ (j = i ∨ j * copySize < e.filesize) ∧ ¬ e.Writes j) →
      ∃ out', e.writeLoop mem fuel i (i * copySize) p out = some (false, out')) := by
  have hcopy : copySize = 0x4000 := rfl
  induction fuel generalizing i p out with
  | zero => exact absurd (chunk_le hi) (Nat.not_le_of_lt hfuel)
  | succ fuel ih =>
    have hlt : e.filesize < 2 ^ 32 := e.source_lt
    have hle := chunk_le hi
    rw [Env.writeLoop, chunkSize_mul hle]
    by_cases hwrite : e.Writes i
    · have hwrite' : ¬ (e.writes i).toNat ≠ min copySize (e.filesize - i * copySize) :=
        not_not.2 hwrite
      rw [if_neg hwrite']
      by_cases hmore : (i + 1) * copySize < e.filesize
      · have hchunk : min copySize (e.filesize - i * copySize) = copySize := by
          rw [Nat.succ_mul] at hmore
          omega
        have hcopied : (i * copySize + copySize) % 2 ^ 32 = (i + 1) * copySize := by
          rw [Nat.succ_mul] at hmore ⊢
          omega
        rw [hchunk, hcopied, if_pos hmore]
        obtain ⟨hall, hsome⟩ := ih (.inr hmore) (by rw [Nat.add_assoc, Nat.add_comm 1]; exact hfuel)
          (loadLoop mem copySize p).2 (out ++ (loadLoop mem copySize p).1)
        refine ⟨fun h => ?_, fun ⟨j, hj, hjlt, hfail⟩ => ?_⟩
        · have hsplit : e.filesize - i * copySize = copySize + (e.filesize - (i + 1) * copySize) := by
            rw [Nat.succ_mul] at hmore ⊢
            omega
          have hnext : ∀ j, i + 1 ≤ j → (j = i + 1 ∨ j * copySize < e.filesize) → e.Writes j := by
            intro j hj hjlt
            refine h j (by omega) (.inr ?_)
            rcases hjlt with rfl | hjlt
            · exact hmore
            · exact hjlt
          rw [hall hnext, hsplit, loadLoop_add, List.append_assoc]
        · have hne : j ≠ i := fun h => hfail (h ▸ hwrite)
          exact hsome ⟨j, by omega, .inr (hjlt.resolve_left hne), hfail⟩
      · have hchunk : min copySize (e.filesize - i * copySize) = e.filesize - i * copySize := by
          rw [Nat.succ_mul] at hmore
          omega
        have hcopied : (i * copySize + (e.filesize - i * copySize)) % 2 ^ 32 = e.filesize := by omega
        rw [hchunk, hcopied, if_neg (Nat.lt_irrefl _)]
        refine ⟨fun _ => rfl, fun ⟨j, hj, hjlt, hfail⟩ => ?_⟩
        have hne : j ≠ i := fun h => hfail (h ▸ hwrite)
        have hmul : (i + 1) * copySize ≤ j * copySize := Nat.mul_le_mul_right _ (by omega)
        omega
    · have hwrite' : (e.writes i).toNat ≠ min copySize (e.filesize - i * copySize) := hwrite
      rw [if_pos hwrite']
      exact ⟨fun h => absurd (h i (Nat.le_refl i) (.inl rfl)) hwrite, fun _ => ⟨out, rfl⟩⟩

end write

/-! ## The whole -/

/-- The destination is a copy, or not there at all; nothing is stored outside the block. -/
def Env.Copies (e : Env) : Prop :=
  ∀ mem copybuffer, ∃ fuel o, e.copy mem copybuffer fuel = some o ∧ o.outside = false ∧
    (o.ret = true → e.identical = true ∨ o.dest = .written e.source) ∧
    (o.ret = false → ∀ s, o.dest ≠ .written s)

/-- Nothing is read or written at all. -/
def Env.Early (e : Env) : Prop :=
  e.identical = true ∨ e.opened = false ∨ e.space = false ∨ e.created = false

/-- The first `n` reads give the whole source. -/
def Env.Complete (e : Env) (n : ℕ) : Prop :=
  (∀ i < n, (e.reads i).toNat ≠ readError) ∧ total e.reads n = e.filesize

/-- There is memory, the reads come to an end within the block, and they are complete or a write
fails. -/
def Env.Fine (e : Env) : Prop :=
  e.Early ∨ (∃ seg, e.block = some seg) ∧ ∃ n, Ends e.reads n ∧ total e.reads n ≤ e.blockBytes ∧
    (e.WriteFails ∨ e.Complete n)

section whole

variable {e : Env} {mem copybuffer : ℕ → UInt8}

theorem copy_early (h : e.Early) : e.Copies := by
  intro mem copybuffer
  refine ⟨0, ?_⟩
  by_cases hid : e.identical = true
  · rw [Env.copy, if_pos hid]
    exact ⟨_, rfl, rfl, fun _ => .inl hid, fun h => absurd h (by simp)⟩
  · have hcopy : e.copy mem copybuffer 0 = some ⟨false, .untouched, false⟩ := by
      rw [Env.copy, if_neg hid]
      rcases h.resolve_left hid with h | h | h
      · simp [h]
      · simp [h]
      · cases e.opened <;> cases e.space <;> simp [h]
    exact ⟨_, hcopy, rfl, fun h => absurd h (by simp), fun _ s hs => by simp at hs⟩

theorem copy_transfer (h : ¬ e.Early) (mem copybuffer : ℕ → UInt8) (fuel : ℕ) :
    e.copy mem copybuffer fuel = e.transfer mem copybuffer fuel := by
  simp only [Env.Early, not_or, Bool.not_eq_false, Bool.not_eq_true] at h
  obtain ⟨hid, hopened, hspace, hcreated⟩ := h
  simp [Env.copy, hid, hopened, hspace, hcreated]

theorem block_bytes {seg : UInt16} (h : e.block = some seg) :
    seg.toNat * 16 + e.blockBytes ≤ 2 ^ 20 := by
  have := e.block_le seg h
  rw [Env.blockBytes, Env.filesize]
  omega

theorem invariant_start (seg : ℕ) (mem copybuffer : ℕ → UInt8) (chunk : ℕ) :
    e.Invariant seg mem copybuffer 0 ⟨copybuffer, 0, 0, chunk, ⟨⟨seg, 0⟩, mem, false⟩⟩ where
  pos := rfl
  copied := rfl
  bufptr := rfl
  outside := (decide_eq_false (Nat.not_lt_zero _)).symm
  behind _ _ := rfl
  fresh _ _ _ := rfl
  good _ _ i hi := absurd hi (Nat.not_lt_zero i)
  bad _ i hi := absurd hi (Nat.not_lt_zero i)

/-- The bytes that are written, if all writes succeed. -/
def blockText (seg : ℕ) (mem : ℕ → UInt8) (n : ℕ) : Str :=
  (loadLoop mem n ⟨seg, 0⟩).1

theorem blockText_getElem? {seg n i : ℕ} (mem : ℕ → UInt8) (hi : i < n)
    (hle : seg * 16 + i ≤ 2 ^ 20) : (blockText seg mem n)[i]? = some (mem (seg * 16 + i)) := by
  rw [blockText, loadLoop_eq, List.getElem?_map, List.getElem?_range hi, Option.map_some,
    advance_linear hle]

theorem blockText_length (seg : ℕ) (mem : ℕ → UInt8) (n : ℕ) : (blockText seg mem n).length = n := by
  rw [blockText, loadLoop_eq]
  simp only [List.length_map, List.length_range]

/-- Where the reads come to an end, so does the whole. -/
theorem transfer_ends {seg : UInt16} (hseg : e.block = some seg) {n : ℕ} (hends : Ends e.reads n)
    (mem copybuffer : ℕ → UInt8) {fuel : ℕ} (hfuel : n < fuel) (hfuel' : e.filesize < fuel) :
    ∃ r, e.Invariant seg.toNat mem copybuffer n r ∧
      (e.WriteFails → e.transfer mem copybuffer fuel = some ⟨false, .removed, r.stored.outside⟩) ∧
      (¬ e.WriteFails → e.transfer mem copybuffer fuel =
        some ⟨true, .written (blockText seg.toNat r.stored.mem e.filesize), r.stored.outside⟩) := by
  obtain ⟨r', hread, r, hinv, hstored⟩ := readLoop_ends hends (block_bytes hseg)
    (invariant_start seg.toNat mem copybuffer (chunkSize e.filesize 0)) (Nat.zero_le n)
    (by rwa [Nat.zero_add])
  have hchunks : e.filesize < (0 + fuel) * copySize := by
    rw [Nat.zero_add]
    exact Nat.lt_of_lt_of_le hfuel' (Nat.le_mul_of_pos_right fuel (by decide))
  have hspec := writeLoop_spec e r.stored.mem (.inl rfl) hchunks ⟨seg.toNat, 0⟩ []
  rw [Nat.zero_mul, Nat.sub_zero, List.nil_append] at hspec
  have hlinear : (Far.mk seg.toNat 0).linear = seg.toNat * 16 := rfl
  refine ⟨r, hinv, fun hfail => ?_, fun hall => ?_⟩
  · obtain ⟨i, hi, hwrite⟩ := hfail
    obtain ⟨out, hout⟩ := hspec.2 ⟨i, Nat.zero_le i, hi, hwrite⟩
    rw [Env.transfer, hseg]
    simp only [hlinear, hread, hstored, hout]
  · have hout := hspec.1 fun j _ hj => by
      by_contra hwrite
      exact hall ⟨j, hj, hwrite⟩
    rw [Env.transfer, hseg]
    simp only [hlinear, hread, hstored, hout]
    rfl

/-- The reads are complete, and there is room for the source. -/
theorem copies_of_complete {seg : UInt16} (hseg : e.block = some seg) {n : ℕ}
    (hends : Ends e.reads n) (hroom : total e.reads n ≤ e.blockBytes)
    (h : e.WriteFails ∨ e.Complete n) (hearly : ¬ e.Early) : e.Copies := by
  intro mem copybuffer
  have hblock := block_bytes hseg
  have hlen : e.filesize = e.source.length := rfl
  have hfuel : n < n + e.filesize + 1 := by omega
  obtain ⟨r, hinv, hfail, hok⟩ := transfer_ends hseg hends mem copybuffer hfuel (by omega)
  have hinside : r.stored.outside = false := by
    rw [hinv.outside]
    exact decide_eq_false (Nat.not_lt.2 hroom)
  refine ⟨n + e.filesize + 1, ?_⟩
  rw [copy_transfer hearly]
  by_cases hwrite : e.WriteFails
  · exact ⟨_, hfail hwrite, hinside, fun h => absurd h (by simp), fun _ s hs => by simp at hs⟩
  · refine ⟨_, hok hwrite, hinside, fun _ => .inr ?_, fun h => absurd h (by simp)⟩
    obtain ⟨hgood, htotal⟩ := h.resolve_left hwrite
    have htext : blockText seg.toNat r.stored.mem e.filesize = e.source := by
      refine List.ext_getElem? fun i => ?_
      by_cases hi : i < e.filesize
      · rw [blockText_getElem? _ hi (by omega), hinv.good (by omega) hgood i (by omega),
          List.getD_eq_getElem?_getD, List.getElem?_eq_getElem (by omega), Option.getD_some]
      · rw [List.getElem?_eq_none (by rw [blockText_length]; omega),
          List.getElem?_eq_none (by omega)]
    exact congrArg Dest.written htext

/-! ### More fuel -/

theorem readLoop_fuel {lo fuel fuel' i : ℕ} {r r' : Reading} (h : e.readLoop lo fuel i r = some r')
    (hle : fuel ≤ fuel') : e.readLoop lo fuel' i r = some r' := by
  induction fuel generalizing fuel' i r with
  | zero => exact absurd h (by simp [Env.readLoop])
  | succ fuel ih =>
    obtain ⟨fuel', rfl⟩ : ∃ k, fuel' = k + 1 := ⟨fuel' - 1, by omega⟩
    rw [Env.readLoop] at h ⊢
    simp only at h ⊢
    split at h
    next hzero => rw [if_pos hzero]; exact h
    next hne => rw [if_neg hne]; exact ih h (by omega)

theorem writeLoop_fuel {fuel fuel' i copied : ℕ} {p : Far} {out : Str} {r : Bool × Str}
    (h : e.writeLoop mem fuel i copied p out = some r) (hle : fuel ≤ fuel') :
    e.writeLoop mem fuel' i copied p out = some r := by
  induction fuel generalizing fuel' i copied p out with
  | zero => exact absurd h (by simp [Env.writeLoop])
  | succ fuel ih =>
    obtain ⟨fuel', rfl⟩ : ∃ k, fuel' = k + 1 := ⟨fuel' - 1, by omega⟩
    rw [Env.writeLoop] at h ⊢
    split at h
    next hfail => rw [if_pos hfail]; exact h
    next hok =>
      rw [if_neg hok]
      split at h
      next hmore => rw [if_pos hmore]; exact ih h (by omega)
      next hend => rw [if_neg hend]; exact h

theorem transfer_fuel {fuel fuel' : ℕ} {o : Outcome} (h : e.transfer mem copybuffer fuel = some o)
    (hle : fuel ≤ fuel') : e.transfer mem copybuffer fuel' = some o := by
  rw [Env.transfer] at h ⊢
  cases hblock : e.block with
  | none => rw [hblock] at h; exact h
  | some seg =>
    rw [hblock] at h
    simp only at h ⊢
    split at h
    next => exact absurd h (by simp)
    next r hread =>
      rw [readLoop_fuel hread hle]
      simp only
      split at h
      next => exact absurd h (by simp)
      next out hwrite => rw [writeLoop_fuel hwrite hle]; exact h
      next out hwrite => rw [writeLoop_fuel hwrite hle]; exact h

theorem ends_of_transfer {seg : UInt16} (hseg : e.block = some seg) {fuel : ℕ} {o : Outcome}
    (h : e.transfer mem copybuffer fuel = some o) : ∃ n, Ends e.reads n := by
  rw [Env.transfer, hseg] at h
  simp only at h
  split at h
  next => exact absurd h (by simp)
  next r hread => exact ends_of_readLoop hread fun j hj => absurd hj (Nat.not_lt_zero j)

/-! ### The condition is necessary -/

theorem position_le (e : Env) (n : ℕ) : position e.reads n ≤ e.filesize := by
  induction n with
  | zero => exact Nat.zero_le _
  | succ n ih =>
    rw [position]
    split
    next => exact ih
    next hne => exact ((e.reads_le n).resolve_left hne).2

/-- What has not been read is not the source, whatever has been in memory. -/
theorem complete_of_text {seg : UInt16} (hseg : e.block = some seg) {n : ℕ}
    (hroom : total e.reads n ≤ e.blockBytes)
    (htext : ∀ mem copybuffer, ∃ r, e.Invariant seg.toNat mem copybuffer n r ∧
      blockText seg.toNat r.stored.mem e.filesize = e.source) : e.Complete n := by
  have hblock := block_bytes hseg
  have hbytes : e.blockBytes ≤ e.filesize + 15 := by
    rw [Env.blockBytes, paragraphs]
    omega
  have hne : ∀ c : UInt8, c + 1 ≠ c := by
    intro c h
    have hnat := congrArg UInt8.toNat h
    have hone : (1 : UInt8).toNat = 1 := rfl
    rw [UInt8.toNat_add, hone] at hnat
    omega
  have hcopy : copySize = 0x4000 := rfl
  have herror : readError = 0xffff := rfl
  have hgood : ∀ i < n, (e.reads i).toNat ≠ readError := by
    intro i hi herr
    have hstep : total e.reads i + (e.reads i).toNat ≤ total e.reads n :=
      total_mono e.reads (Nat.succ_le_of_lt hi)
    have hlt : total e.reads i + copySize < e.filesize := by omega
    -- the byte behind `copybuffer` is another one
    generalize hc : e.source.getD (total e.reads i + copySize) 0 = c
    obtain ⟨r, hinv, hr⟩ := htext (fun _ => 0) (fun _ => c + 1)
    have hbyte := blockText_getElem? r.stored.mem hlt
      (show seg.toNat * 16 + (total e.reads i + copySize) ≤ 2 ^ 20 by omega)
    rw [hr, hinv.bad (by omega) i hi herr] at hbyte
    rw [List.getD_eq_getElem?_getD, hbyte, Option.getD_some] at hc
    exact hne c hc
  refine ⟨hgood, ?_⟩
  by_contra htotal
  have hle := position_le e n
  rw [position_eq hgood] at hle
  have hlt : total e.reads n < e.filesize := by omega
  -- the byte in the block is another one
  generalize hc : e.source.getD (total e.reads n) 0 = c
  obtain ⟨r, hinv, hr⟩ := htext (fun _ => c + 1) (fun _ => 0)
  have hbyte := blockText_getElem? r.stored.mem hlt
    (show seg.toNat * 16 + total e.reads n ≤ 2 ^ 20 by omega)
  rw [hr, hinv.fresh (by omega) _ (Nat.le_refl _)] at hbyte
  rw [List.getD_eq_getElem?_getD, hbyte, Option.getD_some] at hc
  exact hne c hc

theorem fine_of_copies (h : e.Copies) : e.Fine := by
  by_cases hearly : e.Early
  · exact .inl hearly
  have hcopies := h
  simp only [Env.Copies, copy_transfer hearly] at hcopies
  obtain ⟨seg, hseg⟩ : ∃ seg, e.block = some seg := by
    cases hblock : e.block with
    | some seg => exact ⟨seg, rfl⟩
    | none =>
      obtain ⟨fuel, o, ho, -, -, hdest⟩ := hcopies (fun _ => 0) (fun _ => 0)
      rw [Env.transfer, hblock] at ho
      obtain rfl := Option.some.inj ho
      exact absurd rfl (hdest rfl [])
  obtain ⟨n, hends⟩ : ∃ n, Ends e.reads n := by
    obtain ⟨fuel, o, ho, -⟩ := hcopies (fun _ => 0) (fun _ => 0)
    exact ends_of_transfer hseg ho
  -- the outcome, for all memory
  have hall : ∀ mem copybuffer, ∃ r, e.Invariant seg.toNat mem copybuffer n r ∧
      r.stored.outside = false ∧
        (¬ e.WriteFails → blockText seg.toNat r.stored.mem e.filesize = e.source) := by
    intro mem copybuffer
    obtain ⟨fuel, o, ho, hout, hret, -⟩ := hcopies mem copybuffer
    obtain ⟨r, hinv, hfail, hok⟩ := transfer_ends hseg hends mem copybuffer
      (show n < fuel + n + e.filesize + 1 by omega) (by omega)
    have ho' := transfer_fuel ho (show fuel ≤ fuel + n + e.filesize + 1 by omega)
    by_cases hwrite : e.WriteFails
    · rw [hfail hwrite] at ho'
      rw [← Option.some.inj ho'] at hout
      exact ⟨r, hinv, hout, fun h => absurd hwrite h⟩
    · rw [hok hwrite] at ho'
      rw [← Option.some.inj ho'] at hout hret
      have hdest := (hret rfl).resolve_left fun hid => hearly (.inl hid)
      exact ⟨r, hinv, hout, fun _ => Dest.written.inj hdest⟩
  have hroom : total e.reads n ≤ e.blockBytes := by
    obtain ⟨r, hinv, hout, -⟩ := hall (fun _ => 0) (fun _ => 0)
    rw [hinv.outside] at hout
    exact Nat.not_lt.1 (of_decide_eq_false hout)
  refine .inr ⟨⟨seg, hseg⟩, n, hends, hroom, ?_⟩
  by_cases hwrite : e.WriteFails
  · exact .inl hwrite
  · refine .inr (complete_of_text hseg hroom fun mem copybuffer => ?_)
    obtain ⟨r, hinv, -, htext⟩ := hall mem copybuffer
    exact ⟨r, hinv, htext hwrite⟩

end whole

/-- **A file is copied or the destination removed**, for whatever is in memory, if and only if the
copy is not begun at all, or there is memory, the reads come to an end within the block, and they
give the whole source or a write fails. -/
theorem copies_iff (e : Env) : e.Copies ↔ e.Fine := by
  refine ⟨fine_of_copies, fun h => ?_⟩
  by_cases hearly : e.Early
  · exact copy_early hearly
  · obtain ⟨⟨seg, hseg⟩, n, hends, hroom, hrest⟩ := h.resolve_left hearly
    exact copies_of_complete hseg hends hroom hrest hearly

/-- A source of one byte, and no memory. -/
def noMemory : Env where
  identical := false
  opened := true
  space := true
  created := true
  source := [0xeb]
  source_lt := by decide
  block := none
  block_le := by simp
  reads _ := 0
  reads_le n := .inr ⟨Nat.zero_le _, by
    induction n with
    | zero => decide
    | succ n ih => exact ih⟩
  writes _ := 0

/-- Without memory, an empty destination is left. -/
theorem no_memory_truncates : ¬ ∀ e : Env, e.Copies := by
  intro h
  rcases fine_of_copies (h noMemory) with hearly | ⟨⟨seg, hseg⟩, -⟩
  · rcases hearly with h | h | h | h <;> exact absurd h (by decide)
  · exact absurd hseg (by simp [noMemory])

end Sys
end BurdahDos
