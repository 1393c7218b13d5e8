import BurdahDos.Fcbs.Defs
import Mathlib

/-!
# Reading and writing records

`FcbReadWrite` transfers records at the current block and record, and `FcbRandomBlockIO` at the
random record, which it then advances.  The transfer itself is `DosRWSft`, whose answer is a number
of bytes or an error below 0, and this number goes on as a `UWORD` in either case.

That is right for an error only if its number is less than the record size, and for a transfer only
if the rounding up to whole records does not overflow.
-/

set_option autoImplicit false

namespace BurdahDos
namespace Fcbs

/-! ## The code -/

/-- `SUCCESS` -/
def success : ℤ := 0
/-- `XFR_READ` -/
def xfrRead : ℕ := 1
/-- `XFR_WRITE` -/
def xfrWrite : ℕ := 2
/-- `XFR_FCB_RANDOM` -/
def xfrFcbRandom : ℕ := 4

/-- What a transfer meets: where the DTA is in its segment, what `SftSeek` answers for a position,
what `DosRWSft` answers for a size, and the size of the file after it. -/
structure Io where
  dtaOff : Fin (2 ^ 16)
  sftSeek : ℕ → ℤ
  dosRWSft : ℕ → ℤ
  sftGetFsize : ℕ

/-- `FcbNextRecord` -/
def fcbNextRecord (f : Fcb) : Fcb :=
  let curec := (f.curec + 1) % 2 ^ 8
  if 128 ≤ curec then { f with curec := 0, cublock := (f.cublock + 1) % 2 ^ 16 }
  else { f with curec := curec }

/-- `FcbRec` -/
def fcbRec (f : Fcb) : ℕ := (f.cublock * 128 + f.curec) % 2 ^ 32

/-- `FcbReadWrite`.  `none` is a division by zero.  What a read does not fill of a last record is
zeroed in the DTA. -/
def fcbReadWrite (io : Io) (f : Fcb) (recno mode : ℕ) : Option (UInt8 × Fcb) :=
  let recsiz := f.recsiz
  let bigsize := recsiz * recno
  if bigsize > 0xffff then some (fcbErrSegmentWrap, f)
  else
    let size := bigsize
    if (io.dtaOff + size) % 2 ^ 16 < io.dtaOff then some (fcbErrSegmentWrap, f)
    else
      let lPosit := fcbRec f * recsiz % 2 ^ 32
      if io.sftSeek lPosit ≠ success then some (fcbErrNodata, f)
      else
        let nTransfer := io.dosRWSft size
        let f := if mode &&& xfrWrite ≠ 0 then { f with fsize := io.sftGetFsize } else f
        -- from here on `nTransfer` is an `unsigned`
        let n := (nTransfer % 2 ^ 16).toNat
        let f :=
          if mode &&& xfrFcbRandom ≠ 0 ∧ recsiz > 0 then
            { f with rndm := (f.rndm + (n + recsiz - 1) % 2 ^ 16 / recsiz) % 2 ^ 32 }
          else f
        let size := (size + 2 ^ 16 - n) % 2 ^ 16
        if size = 0 then some (fcbSuccess, fcbNextRecord f)
        else if f.recsiz = 0 then none
        else if mode &&& xfrRead ≠ 0 ∧ size % f.recsiz > 0 then some (fcbErrEof, fcbNextRecord f)
        else some (fcbErrNodata, f)

/-- `FcbCalcRec` -/
def fcbCalcRec (f : Fcb) : Fcb :=
  { f with cublock := f.rndm / 128 % 2 ^ 16, curec := f.rndm % 2 ^ 8 &&& 127 }

/-- `FcbRandomBlockIO`, with what it leaves in `*nRecords`. -/
def fcbRandomBlockIO (io : Io) (f : Fcb) (nRecords mode : ℕ) : Option (UInt8 × Fcb × ℕ) :=
  let f := fcbCalcRec f
  let old := f.rndm
  (fcbReadWrite io f nRecords mode).map fun r =>
    (r.1, fcbCalcRec r.2, (r.2.rndm + 2 ^ 32 - old) % 2 ^ 32 % 2 ^ 16)

/-! ## What it is to do -/

variable {io : Io} {f : Fcb} {recno mode : ℕ}

/-- The transfer is made. -/
def Transfers (io : Io) (f : Fcb) (recno : ℕ) : Prop :=
  f.recsiz * recno ≤ 0xffff ∧ io.dtaOff + f.recsiz * recno < 2 ^ 16 ∧
    io.sftSeek (fcbRec f * f.recsiz % 2 ^ 32) = success

/-- What `DosRWSft` answers. -/
def answer (io : Io) (f : Fcb) (recno : ℕ) : ℤ := io.dosRWSft (f.recsiz * recno)

/-- The number of records touched by `n` bytes, a partial last record counting as one. -/
def touched (f : Fcb) (n : ℤ) : ℕ := n.toNat ⌈/⌉ f.recsiz

/-- The call does not divide by zero.  The random record advances by the number of records that a
random transfer touches, and stays if there is none or it fails. -/
def Advances (io : Io) (f : Fcb) (recno mode : ℕ) : Prop :=
  ∃ rc f', fcbReadWrite io f recno mode = some (rc, f') ∧
    (mode &&& xfrFcbRandom ≠ 0 → Transfers io f recno → 0 ≤ answer io f recno →
      f'.rndm = (f.rndm + touched f (answer io f recno)) % 2 ^ 32) ∧
    (¬ (Transfers io f recno ∧ 0 ≤ answer io f recno) → f'.rndm = f.rndm)

/-- The call does not divide by zero.  If the transfer is made, the random record advances by the
number of records, which is reported, and the block and the record are those of the random record.
If not, the random record stays and no records are reported. -/
def BlockAdvances (io : Io) (f : Fcb) (recno mode : ℕ) : Prop :=
  ∃ rc f' n, fcbRandomBlockIO io f recno mode = some (rc, f', n) ∧
    (Transfers io (fcbCalcRec f) recno → 0 ≤ answer io f recno →
      f'.rndm = (f.rndm + touched f (answer io f recno)) % 2 ^ 32 ∧
        n = touched f (answer io f recno) ∧ f'.cublock * 128 + f'.curec = f'.rndm) ∧
    (¬ (Transfers io (fcbCalcRec f) recno ∧ 0 ≤ answer io f recno) → f'.rndm = f.rndm ∧ n = 0)

/-- The number of an error, as a `UWORD`, is 0 or less than the record size, which a sequential
transfer only needs not to be 0; and rounding up a number of bytes does not overflow. -/
def Fits (io : Io) (f : Fcb) (recno mode : ℕ) : Prop :=
  (answer io f recno < 0 → -answer io f recno % 2 ^ 16 = 0 ∨
    f.recsiz ≠ 0 ∧ (mode &&& xfrFcbRandom ≠ 0 → -answer io f recno % 2 ^ 16 < f.recsiz)) ∧
  (0 ≤ answer io f recno → mode &&& xfrFcbRandom ≠ 0 → f.recsiz ≠ 0 →
    answer io f recno + f.recsiz ≤ 2 ^ 16)

/-- What is behind the transfer in `FcbReadWrite`. -/
def afterTransfer (f : Fcb) (size n mode : ℕ) : Option (UInt8 × Fcb) :=
  let size := (size + 2 ^ 16 - n) % 2 ^ 16
  if size = 0 then some (fcbSuccess, fcbNextRecord f)
  else if f.recsiz = 0 then none
  else if mode &&& xfrRead ≠ 0 ∧ size % f.recsiz > 0 then some (fcbErrEof, fcbNextRecord f)
  else some (fcbErrNodata, f)

@[simp] theorem fcbNextRecord_rndm (f : Fcb) : (fcbNextRecord f).rndm = f.rndm := by
  rw [fcbNextRecord]
  split <;> rfl

theorem afterTransfer_rndm {size n : ℕ} {rc : UInt8} {f' : Fcb}
    (h : afterTransfer f size n mode = some (rc, f')) : f'.rndm = f.rndm := by
  rw [afterTransfer] at h
  split at h
  · obtain ⟨-, rfl⟩ := Prod.mk.inj (Option.some.inj h)
    exact fcbNextRecord_rndm f
  · split at h
    · exact (nomatch h)
    · split at h
      · obtain ⟨-, rfl⟩ := Prod.mk.inj (Option.some.inj h)
        exact fcbNextRecord_rndm f
      · obtain ⟨-, rfl⟩ := Prod.mk.inj (Option.some.inj h)
        rfl

theorem afterTransfer_isSome {size n : ℕ} :
    (afterTransfer f size n mode).isSome = true ↔
      (size + 2 ^ 16 - n) % 2 ^ 16 = 0 ∨ f.recsiz ≠ 0 := by
  rw [afterTransfer]
  split
  · rename_i h
    exact iff_of_true rfl (Or.inl h)
  · rename_i h
    split
    · rename_i h'
      exact iff_of_false Bool.false_ne_true fun hor => hor.elim h fun hne => hne h'
    · rename_i h'
      refine iff_of_true ?_ (Or.inr h')
      split <;> rfl

/-- What the FCB is like when the transfer has been made. -/
def counted (io : Io) (f : Fcb) (n mode : ℕ) : Fcb :=
  let f := if mode &&& xfrWrite ≠ 0 then { f with fsize := io.sftGetFsize } else f
  if mode &&& xfrFcbRandom ≠ 0 ∧ f.recsiz > 0 then
    { f with rndm := (f.rndm + (n + f.recsiz - 1) % 2 ^ 16 / f.recsiz) % 2 ^ 32 }
  else f

theorem counted_recsiz (io : Io) (f : Fcb) (n mode : ℕ) :
    (counted io f n mode).recsiz = f.recsiz := by
  rw [counted]
  by_cases h : mode &&& xfrWrite ≠ 0
  · simp only [if_pos h]
    split <;> rfl
  · simp only [if_neg h]
    split <;> rfl

theorem counted_rndm (io : Io) (f : Fcb) (n mode : ℕ) : (counted io f n mode).rndm =
    if mode &&& xfrFcbRandom ≠ 0 ∧ f.recsiz > 0 then
      (f.rndm + (n + f.recsiz - 1) % 2 ^ 16 / f.recsiz) % 2 ^ 32
    else f.rndm := by
  rw [counted]
  by_cases h : mode &&& xfrWrite ≠ 0
  · simp only [if_pos h]
    split <;> rfl
  · simp only [if_neg h]
    split <;> rfl

theorem fcbReadWrite_eq (h : Transfers io f recno) : fcbReadWrite io f recno mode =
    afterTransfer (counted io f (answer io f recno % 2 ^ 16).toNat mode) (f.recsiz * recno)
      (answer io f recno % 2 ^ 16).toNat mode := by
  obtain ⟨hsize, hdta, hseek⟩ := h
  rw [fcbReadWrite]
  dsimp only
  rw [if_neg (by omega), if_neg (by omega), if_neg (not_not.mpr hseek), counted]
  by_cases h : mode &&& xfrWrite ≠ 0
  · simp only [if_pos h]
    rfl
  · simp only [if_neg h]
    rfl

theorem fcbReadWrite_idle (h : ¬ Transfers io f recno) :
    ∃ rc, fcbReadWrite io f recno mode = some (rc, f) := by
  rw [fcbReadWrite]
  dsimp only
  split
  · exact ⟨_, rfl⟩
  · split
    · exact ⟨_, rfl⟩
    · rw [if_pos]
      · exact ⟨_, rfl⟩
      · intro hseek
        exact h ⟨by omega, by omega, hseek⟩

/-! ## When it does that -/

/-- Rounding up in sixteen bits. -/
theorem roundUp_eq_iff {n r : ℕ} (hn : n < 2 ^ 16) (hr : 0 < r) (hr' : r < 2 ^ 16) :
    (n + r - 1) % 2 ^ 16 / r = n ⌈/⌉ r ↔ n + r ≤ 2 ^ 16 := by
  rw [Nat.ceilDiv_eq_add_pred_div]
  constructor
  · intro h
    by_contra hover
    have hmod : (n + r - 1) % 2 ^ 16 + r ≤ n + r - 1 := by omega
    have hdiv := Nat.div_le_div_right hmod (c := r)
    rw [Nat.add_div_right _ hr] at hdiv
    omega
  · intro h
    rw [Nat.mod_eq_of_lt (by omega)]

/-- An error counts for no record. -/
theorem roundUp_eq_zero_iff {n r : ℕ} (hn : n < 2 ^ 16) (hr : 0 < r) (hr' : r < 2 ^ 16) :
    (n + r - 1) % 2 ^ 16 / r = 0 ↔ n = 0 ∨ 2 ^ 16 - n < r := by
  rw [Nat.div_eq_zero_iff]
  omega

theorem ceilDiv_le_self (n r : ℕ) : n ⌈/⌉ r ≤ n := by
  rcases Nat.eq_zero_or_pos r with rfl | hr
  · simp
  · rw [ceilDiv_le_iff_le_smul hr]
    exact Nat.le_mul_of_pos_left n hr

/-- The random record stays as it is. -/
theorem counted_error_iff (hw : f.Words) (n : ℤ) :
    (counted io f (n % 2 ^ 16).toNat mode).rndm = f.rndm ↔
      (mode &&& xfrFcbRandom ≠ 0 → f.recsiz ≠ 0 → -n % 2 ^ 16 = 0 ∨ -n % 2 ^ 16 < f.recsiz) := by
  have hrecsiz := hw.recsiz
  have hrndm := hw.rndm
  rw [counted_rndm]
  by_cases hboth : mode &&& xfrFcbRandom ≠ 0 ∧ f.recsiz > 0
  · rw [if_pos hboth]
    have hlt : (n % 2 ^ 16).toNat < 2 ^ 16 := by omega
    have hzero := roundUp_eq_zero_iff hlt hboth.2 hrecsiz
    have hquot : ((n % 2 ^ 16).toNat + f.recsiz - 1) % 2 ^ 16 / f.recsiz < 2 ^ 16 :=
      (Nat.div_le_self ..).trans_lt (Nat.mod_lt _ (by decide))
    generalize ((n % 2 ^ 16).toNat + f.recsiz - 1) % 2 ^ 16 / f.recsiz = q at hzero hquot
    have hsame : (f.rndm + q) % 2 ^ 32 = f.rndm ↔ q = 0 := by omega
    rw [hsame, hzero]
    refine ⟨fun h _ _ => by omega, fun h => ?_⟩
    have := h hboth.1 (by omega)
    omega
  · rw [if_neg hboth]
    exact iff_of_true rfl fun hm hr => absurd ⟨hm, Nat.pos_of_ne_zero hr⟩ hboth

/-- The random record advances. -/
theorem counted_count_iff (hw : f.Words) {n : ℤ} (hn : 0 ≤ n) (hn' : n < 2 ^ 16)
    (hm : mode &&& xfrFcbRandom ≠ 0) :
    (counted io f (n % 2 ^ 16).toNat mode).rndm = (f.rndm + touched f n) % 2 ^ 32 ↔
      (f.recsiz ≠ 0 → n + f.recsiz ≤ 2 ^ 16) := by
  have hrecsiz := hw.recsiz
  have hrndm := hw.rndm
  obtain ⟨n, rfl⟩ := Int.eq_ofNat_of_zero_le hn
  have hu : ((n : ℤ) % 2 ^ 16).toNat = n := by omega
  have ht : touched f n = n ⌈/⌉ f.recsiz := rfl
  rw [counted_rndm, hu, ht]
  rcases Nat.eq_zero_or_pos f.recsiz with hr | hr
  · rw [if_neg (by omega), hr, ceilDiv_zero, Nat.add_zero, Nat.mod_eq_of_lt hrndm]
    exact iff_of_true rfl fun h => absurd rfl h
  · rw [if_pos ⟨hm, hr⟩]
    have hround := roundUp_eq_iff (by omega : n < 2 ^ 16) hr hrecsiz
    have hle := ceilDiv_le_self n f.recsiz
    have hquot : (n + f.recsiz - 1) % 2 ^ 16 / f.recsiz < 2 ^ 16 :=
      (Nat.div_le_self ..).trans_lt (Nat.mod_lt _ (by decide))
    generalize (n + f.recsiz - 1) % 2 ^ 16 / f.recsiz = q at hround hquot
    have hsame : (f.rndm + q) % 2 ^ 32 = (f.rndm + n ⌈/⌉ f.recsiz) % 2 ^ 32 ↔
        q = n ⌈/⌉ f.recsiz := by omega
    rw [hsame, hround]
    omega

/-- **`FcbReadWrite` advances the random record as it should** exactly if the numbers fit. -/
theorem advances_iff (hw : f.Words) (hle : answer io f recno ≤ (f.recsiz * recno : ℕ)) :
    Advances io f recno mode ↔ (Transfers io f recno → Fits io f recno mode) := by
  by_cases ht : Transfers io f recno
  · have hrecsiz := hw.recsiz
    have hrndm := hw.rndm
    have hsize := ht.1
    have hrndm' := counted_rndm io f (answer io f recno % 2 ^ 16).toNat mode
    have hsome : (afterTransfer (counted io f (answer io f recno % 2 ^ 16).toNat mode)
        (f.recsiz * recno) (answer io f recno % 2 ^ 16).toNat mode).isSome = true ↔ _ :=
      afterTransfer_isSome
    rw [counted_recsiz] at hsome
    -- what the call comes to, if it comes to anything
    have hiff : Advances io f recno mode ↔
        ((f.recsiz * recno + 2 ^ 16 - (answer io f recno % 2 ^ 16).toNat) % 2 ^ 16 = 0 ∨
          f.recsiz ≠ 0) ∧
        (mode &&& xfrFcbRandom ≠ 0 → 0 ≤ answer io f recno →
          (counted io f (answer io f recno % 2 ^ 16).toNat mode).rndm =
            (f.rndm + touched f (answer io f recno)) % 2 ^ 32) ∧
        (answer io f recno < 0 →
          (counted io f (answer io f recno % 2 ^ 16).toNat mode).rndm = f.rndm) := by
      rw [← hsome, Advances, fcbReadWrite_eq ht]
      constructor
      · rintro ⟨rc, f', heq, h1, h2⟩
        rw [← afterTransfer_rndm heq]
        exact ⟨by rw [heq]; rfl, fun hm => h1 hm ht, fun hneg => h2 fun h => by omega⟩
      · rintro ⟨his, h1, h2⟩
        obtain ⟨⟨rc, f'⟩, heq⟩ := Option.isSome_iff_exists.mp his
        refine ⟨rc, f', heq, fun hm _ => ?_, fun h => ?_⟩
        · rw [afterTransfer_rndm heq]
          exact h1 hm
        · rw [afterTransfer_rndm heq]
          exact h2 (by by_contra hpos; exact h ⟨ht, by omega⟩)
    rw [hiff, Fits]
    simp only [ht, true_implies]
    rcases Int.lt_or_le (answer io f recno) 0 with hneg | hpos
    · rw [counted_error_iff hw]
      have hzero : f.recsiz = 0 → f.recsiz * recno = 0 := fun h => by rw [h, Nat.zero_mul]
      constructor
      · rintro ⟨h1, -, h2⟩
        refine ⟨fun _ => ?_, fun h => absurd hneg (by omega)⟩
        by_cases hr : f.recsiz = 0
        · have := hzero hr
          omega
        · by_cases he : -answer io f recno % 2 ^ 16 = 0
          · exact Or.inl he
          · exact Or.inr ⟨hr, fun hm => (h2 hneg hm hr).resolve_left he⟩
      · rintro ⟨h, -⟩
        refine ⟨?_, fun _ h => absurd hneg (by omega), fun _ hm hr => ?_⟩
        · rcases h hneg with he | ⟨hr, -⟩
          · by_cases hr : f.recsiz = 0
            · have := hzero hr
              omega
            · exact Or.inr hr
          · exact Or.inr hr
        · exact (h hneg).imp_right fun h' => h'.2 hm
    · have hlt : answer io f recno < 2 ^ 16 := by omega
      constructor
      · rintro ⟨-, h, -⟩
        exact ⟨fun hneg => absurd hpos (by omega), fun _ hm =>
          (counted_count_iff hw hpos hlt hm).mp (h hm hpos)⟩
      · rintro ⟨-, h⟩
        refine ⟨?_, fun hm _ => (counted_count_iff hw hpos hlt hm).mpr (h hpos hm), fun hneg =>
          absurd hpos (by omega)⟩
        by_cases hr : f.recsiz = 0
        · have hzero : f.recsiz * recno = 0 := by rw [hr, Nat.zero_mul]
          omega
        · exact Or.inr hr
  · obtain ⟨rc, heq⟩ := fcbReadWrite_idle ht
    exact iff_of_true ⟨rc, f, heq, fun _ h => absurd h ht, fun _ => rfl⟩ fun h => absurd h ht

/-! ## `FcbRandomBlockIO` -/

theorem calcRec_curec (f : Fcb) : (fcbCalcRec f).curec = f.rndm % 128 := by
  have h := Nat.and_two_pow_sub_one_eq_mod (f.rndm % 2 ^ 8) 7
  rw [fcbCalcRec]
  dsimp only
  rw [show (127 : ℕ) = 2 ^ 7 - 1 by decide, h]
  omega

/-- The block and the record are those of the random record if that is not too large. -/
theorem calcRec_iff (f : Fcb) :
    (fcbCalcRec f).cublock * 128 + (fcbCalcRec f).curec = f.rndm ↔ f.rndm < 2 ^ 23 := by
  rw [calcRec_curec, fcbCalcRec]
  dsimp only
  omega

theorem calcRec_words (h : f.Words) : (fcbCalcRec f).Words where
  cublock := Nat.mod_lt _ (by decide)
  recsiz := h.recsiz
  curec := by
    rw [calcRec_curec]
    omega
  rndm := h.rndm

/-- The random record that is reached has a block. -/
def HasBlock (io : Io) (f : Fcb) (recno : ℕ) : Prop :=
  0 ≤ answer io f recno → (f.rndm + touched f (answer io f recno)) % 2 ^ 32 < 2 ^ 23

/-- **FCB transfers advance the random record as they should** exactly if, whenever the transfer is
made, the numbers fit and the random record that is reached has a block. -/
theorem blockAdvances_iff (hw : f.Words) (hle : answer io f recno ≤ (f.recsiz * recno : ℕ)) :
    (Advances io f recno mode ↔ (Transfers io f recno → Fits io f recno mode)) ∧
      (mode &&& xfrFcbRandom ≠ 0 → (BlockAdvances io f recno mode ↔
        (Transfers io (fcbCalcRec f) recno → Fits io f recno mode ∧ HasBlock io f recno))) := by
  refine ⟨advances_iff hw hle, fun hm => ?_⟩
  have hadv : Advances io (fcbCalcRec f) recno mode ↔
      (Transfers io (fcbCalcRec f) recno → Fits io f recno mode) :=
    advances_iff (calcRec_words hw) hle
  have hrndm := hw.rndm
  have hsmall (h : Transfers io (fcbCalcRec f) recno) (h0 : 0 ≤ answer io f recno) :
      touched f (answer io f recno) < 2 ^ 16 := by
    have hsize : f.recsiz * recno ≤ 0xffff := h.1
    have := ceilDiv_le_self (answer io f recno).toNat f.recsiz
    rw [touched]
    omega
  constructor
  · rintro ⟨rc, f', n, heq, hmade, hnot⟩
    obtain ⟨⟨rc', f''⟩, hread, hmk⟩ := Option.map_eq_some_iff.mp heq
    obtain ⟨rfl, hmk'⟩ := Prod.mk.inj hmk
    obtain ⟨rfl, -⟩ := Prod.mk.inj hmk'
    intro ht
    refine ⟨hadv.mp ⟨rc', f'', hread, fun _ _ h0 => (hmade ht h0).1, fun h => (hnot h).1⟩ ht,
      fun h0 => ?_⟩
    obtain ⟨hto, -, hpair⟩ := hmade ht h0
    rw [← hto]
    exact (calcRec_iff f'').mp hpair
  · intro h
    obtain ⟨rc, f'', hread, hmade, hnot⟩ := hadv.mpr fun ht => (h ht).1
    refine ⟨rc, fcbCalcRec f'', _, by unfold fcbRandomBlockIO; dsimp only; rw [hread]; rfl,
      fun ht h0 => ?_, fun hn => ?_⟩
    · have hto : f''.rndm = (f.rndm + touched f (answer io f recno)) % 2 ^ 32 := hmade hm ht h0
      have hlt := hsmall ht h0
      refine ⟨hto, ?_, (calcRec_iff f'').mpr (hto ▸ (h ht).2 h0)⟩
      change (f''.rndm + 2 ^ 32 - f.rndm) % 2 ^ 32 % 2 ^ 16 = _
      omega
    · have hsame : f''.rndm = f.rndm := hnot hn
      refine ⟨hsame, ?_⟩
      change (f''.rndm + 2 ^ 32 - f.rndm) % 2 ^ 32 % 2 ^ 16 = 0
      omega

/-- Reading one record of 128 bytes, of which there are 100. -/
theorem blockAdvances_iff_eof :
    BlockAdvances ⟨0x80, fun _ => success, fun _ => 100, 100⟩
      ⟨1, Vector.replicate 11 0x41, 0, 128, 100, 0, 0, 5, 0, 0, 0, 0⟩ 1
      (xfrRead ||| xfrFcbRandom) :=
  ((blockAdvances_iff ⟨by decide, by decide, by decide, by decide⟩ (by decide)).2 (by decide)).mpr
    fun _ => ⟨⟨fun h => absurd h (by decide), fun _ _ _ => by decide⟩, fun _ => by decide⟩

/-- A write to a file that is read-only, with records of no bytes. -/
theorem deAccess_divides : ¬ ∀ io f recno, f.Words →
    answer io f recno ≤ (f.recsiz * recno : ℕ) → Advances io f recno xfrWrite := by
  intro h
  obtain ⟨rc, f', heq, -⟩ := h ⟨0x80, fun _ => success, fun _ => -5, 100⟩
    ⟨1, Vector.replicate 11 0x41, 0, 0, 100, 0, 0, 5, 0, 0, 0, 0⟩ 1
    ⟨by decide, by decide, by decide, by decide⟩ (by decide)
  have hnone : fcbReadWrite ⟨0x80, fun _ => success, fun _ => -5, 100⟩
      ⟨1, Vector.replicate 11 0x41, 0, 0, 100, 0, 0, 5, 0, 0, 0, 0⟩ 1 xfrWrite = none := by
    rfl
  rw [hnone] at heq
  exact (nomatch heq)

end Fcbs
end BurdahDos
