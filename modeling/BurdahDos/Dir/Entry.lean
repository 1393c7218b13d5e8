import BurdahDos.Dir.View
import Mathlib

/-!
# Writing entries

An entry that is written is the one that is read again, and all others are as they were.
`dirWrite_spec` says what `dir_write` does to the entries of a volume, also when the buffer is not
read, or not written back.
-/

set_option autoImplicit false

namespace BurdahDos
namespace Dir

open Fat File

variable {v v' v'' : Volume} {fnp : FNode} {dir : ℕ}

/-! ## The bytes of an entry -/

/-- The fields of the entry fit into its bytes. -/
structure Fits (e : Dirent) : Prop where
  crtime : e.crtime < 2 ^ 16
  crdate : e.crdate < 2 ^ 16
  accdate : e.accdate < 2 ^ 16
  startHigh : e.startHigh < 2 ^ 16
  time : e.time < 2 ^ 16
  date : e.date < 2 ^ 16
  start : e.start < 2 ^ 16
  size : e.size < 2 ^ 32

theorem ofBytes_fits (b : ℕ → UInt8) : Fits (Dirent.ofBytes b) := by
  have hword : ∀ x y : UInt8, x.toNat + 256 * y.toNat < 2 ^ 16 := by
    intro x y
    have h0 := x.toNat_lt
    have h1 := y.toNat_lt
    omega
  refine ⟨hword _ _, hword _ _, hword _ _, hword _ _, hword _ _, hword _ _, hword _ _, ?_⟩
  have h28 := hword (b 28) (b 29)
  have h30 := hword (b 30) (b 31)
  change (b 28).toNat + 256 * (b 29).toNat + 2 ^ 16 * ((b 30).toNat + 256 * (b 31).toNat) < 2 ^ 32
  omega

theorem bytes_length (e : Dirent) : e.bytes.length = 32 := by simp [Dirent.bytes, word]

/-- The bytes of an entry behind its name. -/
def bytesBehind (e : Dirent) : List UInt8 :=
  e.attrib :: e.case :: e.crtimems :: (word e.crtime ++ word e.crdate ++ word e.accdate ++
    word e.startHigh ++ word e.time ++ word e.date ++ word e.start ++ word e.size ++
    word (e.size / 2 ^ 16))

theorem bytes_eq (e : Dirent) : e.bytes = e.name.toList ++ bytesBehind e := by
  simp [Dirent.bytes, bytesBehind]

theorem bytes_name (e : Dirent) (i : ℕ) (hi : i < 11) : e.bytes.getD i 0 = e.name[i] := by
  rw [bytes_eq, List.getD_append _ _ _ _ (by simpa using hi), List.getD_eq_getElem _ _ (by simpa)]
  exact Vector.getElem_toList _

theorem bytes_behind (e : Dirent) (i : ℕ) : e.bytes.getD (11 + i) 0 = (bytesBehind e).getD i 0 := by
  rw [bytes_eq, List.getD_append_right _ _ _ _ (by simp)]
  simp

/-- **What is written is read again.** -/
theorem ofBytes_bytes {e : Dirent} (h : Fits e) :
    Dirent.ofBytes (fun i => e.bytes.getD i 0) = e := by
  have hword : ∀ w, w < 2 ^ 16 →
      (UInt8.ofNat w).toNat + 256 * (UInt8.ofNat (w / 256)).toNat = w := by
    intro w hw
    simp only [UInt8.toNat_ofNat']
    omega
  have hname : Vector.ofFn (fun i : Fin 11 => e.bytes.getD i 0) = e.name := by
    refine Vector.ext fun i hi => ?_
    rw [Vector.getElem_ofFn]
    exact bytes_name e i hi
  have hat := bytes_behind e
  have hsize : (UInt8.ofNat e.size).toNat + 256 * (UInt8.ofNat (e.size / 256)).toNat +
      2 ^ 16 * ((UInt8.ofNat (e.size / 2 ^ 16)).toNat +
        256 * (UInt8.ofNat (e.size / 2 ^ 16 / 256)).toNat) = e.size := by
    have := h.size
    simp only [UInt8.toNat_ofNat']
    omega
  have hcrtime := hword _ h.crtime
  have hcrdate := hword _ h.crdate
  have haccdate := hword _ h.accdate
  have hstartHigh := hword _ h.startHigh
  have htime := hword _ h.time
  have hdate := hword _ h.date
  have hstart := hword _ h.start
  simp only [Dirent.ofBytes, hname, show e.bytes.getD 11 0 = e.attrib from hat 0,
    show e.bytes.getD 12 0 = e.case from hat 1, show e.bytes.getD 13 0 = e.crtimems from hat 2,
    show e.bytes.getD 14 0 = UInt8.ofNat e.crtime from hat 3,
    show e.bytes.getD (14 + 1) 0 = UInt8.ofNat (e.crtime / 256) from hat 4,
    show e.bytes.getD 16 0 = UInt8.ofNat e.crdate from hat 5,
    show e.bytes.getD (16 + 1) 0 = UInt8.ofNat (e.crdate / 256) from hat 6,
    show e.bytes.getD 18 0 = UInt8.ofNat e.accdate from hat 7,
    show e.bytes.getD (18 + 1) 0 = UInt8.ofNat (e.accdate / 256) from hat 8,
    show e.bytes.getD 20 0 = UInt8.ofNat e.startHigh from hat 9,
    show e.bytes.getD (20 + 1) 0 = UInt8.ofNat (e.startHigh / 256) from hat 10,
    show e.bytes.getD 22 0 = UInt8.ofNat e.time from hat 11,
    show e.bytes.getD (22 + 1) 0 = UInt8.ofNat (e.time / 256) from hat 12,
    show e.bytes.getD 24 0 = UInt8.ofNat e.date from hat 13,
    show e.bytes.getD (24 + 1) 0 = UInt8.ofNat (e.date / 256) from hat 14,
    show e.bytes.getD 26 0 = UInt8.ofNat e.start from hat 15,
    show e.bytes.getD (26 + 1) 0 = UInt8.ofNat (e.start / 256) from hat 16,
    show e.bytes.getD 28 0 = UInt8.ofNat e.size from hat 17,
    show e.bytes.getD (28 + 1) 0 = UInt8.ofNat (e.size / 256) from hat 18,
    show e.bytes.getD 30 0 = UInt8.ofNat (e.size / 2 ^ 16) from hat 19,
    show e.bytes.getD (30 + 1) 0 = UInt8.ofNat (e.size / 2 ^ 16 / 256) from hat 20,
    hcrtime, hcrdate, haccdate, hstartHigh, htime, hdate, hstart, hsize]

theorem ofBytes_congr {b b' : ℕ → UInt8} (h : ∀ i < 32, b i = b' i) :
    Dirent.ofBytes b = Dirent.ofBytes b' := by
  have hname : Vector.ofFn (fun i : Fin 11 => b i) = Vector.ofFn fun i : Fin 11 => b' i := by
    congr 1
    exact funext fun i => h i (Nat.lt_trans i.isLt (by decide))
  simp [Dirent.ofBytes, hname, h]

/-! ## Deleted entries -/

@[simp] theorem setFirst_first (c : UInt8) (e : Dirent) : firstOf (setFirst c e).name = c := by
  simp [setFirst]

@[simp] theorem setFirst_setFirst (c c' : UInt8) (e : Dirent) :
    setFirst c (setFirst c' e) = setFirst c e := by
  simp [setFirst, Vector.set_set]

theorem setFirst_self (e : Dirent) : setFirst (firstOf e.name) e = e := by
  simp [setFirst]

/-- Swapping the flags twice changes nothing. -/
theorem swapDeleted_swapDeleted (e : Dirent) : swapDeleted (swapDeleted e) = e := by
  have hflip : ∀ c : UInt8, c = deleted ∨ c = extDeleted →
      (c ^^^ (extDeleted - deleted) = deleted ∨ c ^^^ (extDeleted - deleted) = extDeleted) ∧
        c ^^^ (extDeleted - deleted) ^^^ (extDeleted - deleted) = c := by
    rintro c (rfl | rfl) <;> decide
  by_cases h : e.name[0] = deleted ∨ e.name[0] = extDeleted
  · obtain ⟨hswap, hback⟩ := hflip _ h
    rw [show swapDeleted e = setFirst (e.name[0] ^^^ (extDeleted - deleted)) e from if_pos h,
      swapDeleted, show ∀ c e, (setFirst c e).name[0] = c from setFirst_first, if_pos hswap, hback,
      setFirst_setFirst, setFirst_self]
  · rw [show swapDeleted e = e from if_neg h]
    exact if_neg h

theorem Fits.setFirst {e : Dirent} (h : Fits e) (c : UInt8) : Fits (setFirst c e) :=
  ⟨h.crtime, h.crdate, h.accdate, h.startHigh, h.time, h.date, h.start, h.size⟩

theorem Fits.swapDeleted {e : Dirent} (h : Fits e) : Fits (swapDeleted e) := by
  rw [Dir.swapDeleted]
  split
  · exact h.setFirst _
  · exact h

theorem entryAt_fits (v : Volume) (place : ℕ × ℕ) : Fits (entryAt v place) :=
  (ofBytes_fits _).swapDeleted

/-! ## Writing -/

theorem putBytes_out {disk : ℕ → ℕ → UInt8} {sector off s i : ℕ} {bytes : List UInt8}
    (h : s = sector → i < off ∨ off + bytes.length ≤ i) :
    putBytes disk sector off bytes s i = disk s i := by
  rw [putBytes, if_neg]
  rintro ⟨hs, h1, h2⟩
  have := h hs
  omega

/-- An entry is written to its 32 bytes. -/
theorem putEntry_out {d : Dpb} {disk : ℕ → ℕ → UInt8} {sector off s i : ℕ} {e : Dirent}
    {update : Bool} (h : s = sector → i < off ∨ off + 32 ≤ i) :
    putEntry d disk sector off e update s i = disk s i := by
  have hlen : (e.name.toList ++ [e.attrib]).length = 12 := by simp
  cases update with
  | false => exact putBytes_out (by rwa [bytes_length])
  | true =>
    simp only [putEntry, Bool.not_true, Bool.false_eq_true, if_false]
    rw [putBytes_out (by intro hs; have := h hs; simp [word]; omega)]
    have hrest : putBytes (putBytes disk sector off (e.name.toList ++ [e.attrib])) sector (off + 22)
        (word e.time ++ word e.date ++ word e.start) s i = disk s i := by
      rw [putBytes_out (by intro hs; have := h hs; simp [word]; omega),
        putBytes_out (by intro hs; have := h hs; rw [hlen]; omega)]
    split
    · rw [putBytes_out (by intro hs; have := h hs; simp [word]; omega), hrest]
    · exact hrest

/-- **An entry that is written** is read again, if the sectors become those of `putEntry`. -/
theorem entryAt_put {e : Dirent} (h : Fits e) {place : ℕ × ℕ}
    (hdisk : v'.disk = putEntry v.dpb v.disk place.1 (place.2 * 32) (swapDeleted e) false) :
    entryAt v' place = e := by
  rw [entryAt, hdisk, @ofBytes_congr _ fun i => (swapDeleted e).bytes.getD i 0,
    ofBytes_bytes h.swapDeleted, swapDeleted_swapDeleted]
  intro i hi
  simp only [putEntry, Bool.not_false, if_true, putBytes, bytes_length]
  rw [if_pos ⟨trivial, by omega, by omega⟩, Nat.add_sub_cancel_left]

/-- The next `dir_write` puts its entry into the sector: it gets the buffer, and the flush does not
fail in that sector. -/
def reaches (v : Volume) (sector : ℕ) : Bool :=
  v.access.1.isNone && match v.access.2.access.1 with
    | none => true
    | some content => content sector 0 != 0

/-- What `dir_write` comes to. -/
structure HasWritten (v : Volume) (fnp : FNode) (w : Bool × Volume) : Prop where
  dpb : w.2.dpb = v.dpb
  fat : w.2.fat = v.fat
  fatOutcomes : w.2.fatOutcomes = v.fatOutcomes
  outcomes : w.2.outcomes = v.access.2.access.2.outcomes ∨ w.2.outcomes = v.access.2.outcomes
  disk : w.2.disk = if reaches v fnp.dirsector then
    putEntry v.dpb v.disk fnp.dirsector (fnp.diridx * 32) (swapDeleted fnp.dir) false else v.disk
  result : w.1 = true → reaches v fnp.dirsector = true

theorem access_table (v : Volume) : v.access.2.dpb = v.dpb ∧ v.access.2.fat = v.fat ∧
    v.access.2.fatOutcomes = v.fatOutcomes ∧ v.access.2.disk = v.disk := by
  rw [Volume.access]
  split <;> exact ⟨rfl, rfl, rfl, rfl⟩

/-- **`dir_write`** puts the entry into its sector, or leaves the sector alone; it does the former
if it succeeds. -/
theorem dirWrite_spec (v : Volume) (fnp : FNode) : HasWritten v fnp (dirWrite v fnp) := by
  obtain ⟨hd, hf, hfo, hk⟩ := access_table v
  obtain ⟨hd', hf', hfo', hk'⟩ := access_table v.access.2
  simp only [dirWrite, dirWriteUpdate, Bool.not_false, Bool.true_or, if_true]
  cases h : v.access.1 with
  | some content =>
    simp only [Option.isSome_some, if_true]
    exact ⟨hd, hf, hfo, Or.inr rfl, by simp [reaches, h, hk], fun h => absurd h Bool.false_ne_true⟩
  | none =>
    simp only [Option.isSome_none, Bool.false_eq_true, if_false, flushSector]
    cases h' : v.access.2.access.1 with
    | none =>
      exact ⟨hd'.trans hd, hf'.trans hf, hfo'.trans hfo, Or.inl rfl, by simp [reaches, h, h'],
        fun _ => by simp [reaches, h, h']⟩
    | some content =>
      dsimp only
      by_cases hc : content fnp.dirsector 0 = 0
      · rw [if_pos hc]
        exact ⟨hd'.trans hd, hf'.trans hf, hfo'.trans hfo, Or.inl rfl,
          by simp [reaches, h, h', hc, hk', hk], fun h => absurd h Bool.false_ne_true⟩
      · rw [if_neg hc]
        exact ⟨hd'.trans hd, hf'.trans hf, hfo'.trans hfo, Or.inl rfl, by simp [reaches, h, h', hc],
          fun h => absurd h Bool.false_ne_true⟩

end Dir
end BurdahDos
