import BurdahDos.File.Exits
import BurdahDos.Lib.Run
import Mathlib

/-!
# A file is an array of bytes

Seen through the only SFT that is open on it, a file is an array of bytes that grows: `Content` is
that array, with nothing known of the bytes in a gap.  It is kept beside the system, changed by what
a write stores, and a read has to return what it says.  `behaves_run` proves that for all runs in
which the transfers succeed.

The array is not quite what one would expect on a full disk.  A call that is to write past the end
then stores nothing, but leaves the file as large as the clusters it has got.
-/

set_option autoImplicit false

namespace BurdahDos
namespace File

open Fat

/-! ## The array -/

/-- A file as an array of bytes: `none` is a byte that is not specified. -/
structure Content where
  size : ℕ
  byte : ℕ → Option UInt8

/-- The first `stored` bytes of `buffer` are stored at `p`, and the size becomes `size`. -/
def Content.put (c : Content) (p : ℕ) (buffer : Bytes) (stored size : ℕ) : Content where
  size := size
  byte i :=
    if p ≤ i ∧ i < p + stored then some (buffer (i - p))
    else if i < c.size then c.byte i
    else none

/-- A call on the SFT. -/
inductive Request where
  | seek (offset : ℕ)
  | read (buffer : Bytes) (count : UInt16)
  | write (buffer : Bytes) (count : UInt16)

/-- Set `sft_posit`. -/
def Sft.seek (f : Sft) (offset : ℕ) : Sft := { f with posit := offset }

/-- A call on the SFT `fd`: the result, the buffer and the system. -/
def System.call (s : System) (fd : ℕ) : Request → ℤ × Bytes × System
  | .seek offset =>
    (success, fun _ => 0, { s with sft := Function.update s.sft fd ((s.sft fd).seek offset) })
  | .read buffer count => rwblock s fd buffer count .read
  | .write buffer count => rwblock s fd buffer count .write

/-- The array after a call. -/
def Content.after (c : Content) (s : System) (fd : ℕ) : Request → Content
  | .seek _ => c
  | .read _ _ => c
  | .write buffer count =>
    let r := s.call fd (.write buffer count)
    c.put (s.sft fd).posit buffer r.1.toNat (r.2.2.sft fd).size

/-- A call, for the system and the array. -/
def both (fd : ℕ) (sc : System × Content) (req : Request) : System × Content :=
  ((sc.1.call fd req).2.2, sc.2.after sc.1 fd req)

/-! ## What is asked of a call -/

/-- Positions and counts that are allowed. -/
def Allowed (fd : ℕ) (sc : System × Content) : Request → Prop
  | .seek offset => offset < 2 ^ 32
  | .read _ count => (sc.1.sft fd).posit + count.toNat < 2 ^ 32
  | .write _ count => (sc.1.sft fd).posit + count.toNat < 2 ^ 32

instance (fd : ℕ) (sc : System × Content) : ∀ req, Decidable (Allowed fd sc req)
  | .seek _ => inferInstanceAs (Decidable (_ < _))
  | .read _ _ => inferInstanceAs (Decidable (_ < _))
  | .write _ _ => inferInstanceAs (Decidable (_ < _))

/-- The clusters that belong to something else than the file, and their entries, are as they
were. -/
def OthersKept (s s' : System) (L : List ℕ) : Prop :=
  ∀ c ∉ L, s.vol.dpb.Has c → s.vol.entry c ≠ free → s'.vol.entry c = s.vol.entry c ∧
    ∀ j < s.vol.dpb.clusterSectors, ∀ o,
      s'.vol.disk (s.vol.dpb.clus2phys c + j) o = s.vol.disk (s.vol.dpb.clus2phys c + j) o

/-- The size that a write leaves, if there is room. -/
def Content.grown (c : Content) (p stored : ℕ) (count : UInt16) : ℕ :=
  if count = 0 then p else max (max c.size p) (p + stored)

/-- The disk is full, the position is past the end, and the chain, all of which is in the file now,
does not reach it: up to the position for a write of no bytes, or else beyond it. -/
def Full (s' : System) (fd size p : ℕ) (count : UInt16) (L' : List ℕ) : Prop :=
  size < p ∧ s'.vol.freeCount = 0 ∧ (s'.sft fd).size = L'.length * s'.vol.dpb.clusterSize ∧
    if count = 0 then (s'.sft fd).size < p else (s'.sft fd).size ≤ p

/-- What a call on a file does: a read returns the bytes of the array up to its end, and a write
stores the bytes that it says. -/
def Behaves (fd : ℕ) (sc : System × Content) (req : Request) : Prop :=
  let s := sc.1
  let c := sc.2
  let r := s.call fd req
  let p := (s.sft fd).posit
  (∀ L, (s.sft fd).Attached s.vol L → OthersKept s r.2.2 L) ∧
  match req with
  | .seek offset => (r.2.2.sft fd).posit = offset
  | .read buffer count =>
    r.1 = (min count.toNat (c.size - p) : ℕ) ∧ (r.2.2.sft fd).posit = p + r.1.toNat ∧
      (∀ i < r.1.toNat, ∀ b, c.byte (p + i) = some b → r.2.1 i = b) ∧
      ∀ i, r.1.toNat ≤ i → r.2.1 i = buffer i
  | .write _ count =>
    ∃ stored ≤ count.toNat, r.1 = (stored : ℕ) ∧ (r.2.2.sft fd).posit = p + stored ∧
      (stored = count.toNat ∨ r.2.2.vol.freeCount = 0) ∧
      ((r.2.2.sft fd).size = c.grown p stored count ∨
        stored = 0 ∧ ∃ L', (r.2.2.sft fd).Attached r.2.2.vol L' ∧
          Full r.2.2 fd c.size p count L')

/-- The system holds the array: it is what the SFT and the sectors of the chain say. -/
structure Holds (fd : ℕ) (L : List ℕ) (sc : System × Content) : Prop where
  ok : sc.1.vol.Ok
  succeed : sc.1.vol.outcomes = []
  attached : (sc.1.sft fd).Attached sc.1.vol L
  posit : (sc.1.sft fd).posit < 2 ^ 32
  size : sc.2.size = (sc.1.sft fd).size
  byte : ∀ i < sc.2.size, ∀ b, sc.2.byte i = some b →
    sc.1.vol.disk (loc sc.1.vol.dpb L i).1 (loc sc.1.vol.dpb L i).2 = b

variable {s s' : System} {L L' : List ℕ} {fd : ℕ} {c : Content} {buffer : Bytes} {k : ℕ}

/-! ## A call that stores bytes -/

/-- What a call leaves that stores `k` bytes at the position of the SFT. -/
structure Wrote (fd : ℕ) (s : System) (L L' : List ℕ) (buffer : Bytes) (k size : ℕ)
    (s' : System) : Prop where
  rechained : Rechained L L' s.vol s'.vol
  succeed : s'.vol.outcomes = []
  attached : (s'.sft fd).Attached s'.vol L'
  size : (s'.sft fd).size = size
  posit : (s'.sft fd).posit = (s.sft fd).posit + k
  common : ∃ M, L <+: M ∧ L' <+: M
  within : k = 0 ∨ (s.sft fd).posit + k ≤ L'.length * s.vol.dpb.clusterSize
  stored : Stored s.vol.dpb L' (s.sft fd).posit k buffer s.vol.disk s'.vol.disk

/-- Nothing is stored. -/
theorem stored_zero (d : Dpb) (L : List ℕ) (p : ℕ) (data : Bytes) (disk : ℕ → ℕ → UInt8) :
    Stored d L p 0 data disk disk :=
  ⟨fun _ h => absurd h (Nat.not_lt_zero _), fun _ _ _ => rfl⟩

/-- A sector of a cluster outside the chain holds no byte of the file. -/
theorem loc_ne {d : Dpb} (hd : d.Ok) (hL : ∀ c ∈ L, d.Has c) {c j o i : ℕ} (hc : c ∉ L)
    (hhas : d.Has c) (hj : j < d.clusterSectors) (hi : i < L.length * d.clusterSize) :
    (d.clus2phys c + j, o) ≠ loc d L i := by
  intro heq
  obtain ⟨c', hc', j', hj', hloc⟩ := loc_mem hi
  have hsector : d.clus2phys c + j = d.clus2phys c' + j' := by rw [← hloc, ← heq]
  exact hc ((clus2phys_inj hd hhas (hL c' hc') hj hj' hsector).1 ▸ hc')

theorem Wrote.othersKept {size : ℕ} (h : Wrote fd s L L' buffer k size s') (hok : s.vol.Ok) :
    OthersKept s s' L := by
  intro c hc hhas hused
  have hc' : c ∉ L' := fun hc' => hused (h.rechained.new c hc' hc)
  refine ⟨h.rechained.others c hc hc', fun j hj o => h.stored.outside _ _ fun i hi => ?_⟩
  have hrange : ∀ d ∈ L', s.vol.dpb.Has d := fun d hd =>
    (h.rechained.same.has d).mp (h.rechained.chain.range d hd)
  refine loc_ne hok.dpb hrange hc' hhas hj ?_
  have := h.within
  omega

/-- The system holds the array afterwards. -/
theorem Wrote.holds {size : ℕ} (h : Wrote fd s L L' buffer k size s')
    (hs : Holds fd L (s, c)) (hk : (s.sft fd).posit + k < 2 ^ 32) :
    Holds fd L' (s', c.put (s.sft fd).posit buffer k size) where
  ok := h.rechained.ok
  succeed := h.succeed
  attached := h.attached
  posit := by rw [h.posit]; exact hk
  size := h.size.symm
  byte := by
    intro i hi b hb
    have hsame := h.rechained.same
    have hi' : i < L'.length * s.vol.dpb.clusterSize := by
      have hle := h.attached.size
      rw [h.size, hsame.clusterSize] at hle
      exact hi.trans_le hle
    simp only [Content.put] at hb
    rw [loc_same hsame]
    by_cases hin : (s.sft fd).posit ≤ i ∧ i < (s.sft fd).posit + k
    · -- a byte that was stored
      rw [if_pos hin] at hb
      have hstored := h.stored.inside (i - (s.sft fd).posit) (by omega)
      rw [Nat.add_sub_cancel' hin.1] at hstored
      exact hstored.trans (Option.some.inj hb)
    · -- a byte that was there
      rw [if_neg hin] at hb
      have hold : i < c.size := by
        by_contra hge
        rw [if_neg hge] at hb
        cases hb
      rw [if_pos hold] at hb
      have hiL : i < L.length * s.vol.dpb.clusterSize :=
        hold.trans_le (hs.size.le.trans hs.attached.size)
      obtain ⟨M, hLM, hLM'⟩ := h.common
      have hloc : loc s.vol.dpb L' i = loc s.vol.dpb L i :=
        (loc_grown hLM' hi').symm.trans (loc_grown hLM hiL)
      rw [h.stored.outside _ _ fun j hj heq => ?_, hloc]
      · exact hs.byte i hold b hb
      · have hd := hs.ok.dpb
        have hd' : s'.vol.dpb.Ok := h.rechained.ok.dpb
        have hwithin := h.within
        rw [← loc_same hsame, ← loc_same hsame] at heq
        have := loc_inj hd' h.rechained.chain (by rw [hsame.clusterSize]; exact hi')
          (by rw [hsame.clusterSize]; omega) heq
        omega

/-- The fnode is copied back after bytes have been stored. -/
theorem wrote_back {t : System} {fnp : FNode} (hr : Rechained L L' s.vol t.vol)
    (hnil : t.vol.outcomes = []) (hp : Placed t.vol.dpb L' fnp) (hidx : fnp.sftIdx = fd)
    (hfd : fd ≠ 0xff) (hsize : fnp.dir.size ≤ L'.length * s.vol.dpb.clusterSize)
    (hoff : fnp.offset = (s.sft fd).posit + k) (hcommon : ∃ M, L <+: M ∧ L' <+: M)
    (hwithin : k = 0 ∨ (s.sft fd).posit + k ≤ L'.length * s.vol.dpb.clusterSize)
    (hstored : Stored s.vol.dpb L' (s.sft fd).posit k buffer s.vol.disk t.vol.disk) :
    Wrote fd s L L' buffer k fnp.dir.size (fnodeToSft t fnp) := by
  have hattached := fnodeToSft_attached hr.chain hp (hidx ▸ hfd)
    (by rw [hr.same.clusterSize]; exact hsize)
  rw [hidx] at hattached
  refine ⟨hr, hnil, hattached, ?_, ?_, hcommon, hwithin, hstored⟩
  · simp only [fnodeToSft, hidx, Function.update_self]
  · simp only [fnodeToSft, hidx, Function.update_self]
    exact hoff

/-- What a write returns, beside what it stores. -/
structure Written (fd : ℕ) (s : System) (L L' : List ℕ) (buffer : Bytes) (count : UInt16)
    (k size : ℕ) (r : ℤ × Bytes × System) : Prop where
  wrote : Wrote fd s L L' buffer k size r.2.2
  ret : r.1 = (k : ℕ)
  le : k ≤ count.toNat
  all : k = count.toNat ∨ r.2.2.vol.freeCount = 0

section
variable (hs : Holds fd L (s, c)) (hfd : fd ≠ 0xff) (buffer : Bytes)
include hs hfd

/-- A write past the end of what the disk has room for. -/
theorem written_full {count : UInt16}
    (hrc : (dosExtend s (sftToFnode s fd).modified (count == 0)).1 ≠ success) :
    ∃ L' size, Written fd s L L' buffer count 0 size (rwblock s fd buffer count .write) ∧
      Full (rwblock s fd buffer count .write).2.2 fd c.size (s.sft fd).posit count L' := by
  have hok : s.vol.Ok := hs.ok
  obtain ⟨L', he⟩ := extended_call hok hfd hs.attached hs.posit (count == 0)
  rw [rwblock_full buffer hrc]
  generalize dosExtend s (sftToFnode s fd).modified (count == 0) = e at he hrc
  have hresized : e.2.1.sftIdx = fd ∧ e.2.1.offset = (s.sft fd).posit := by
    obtain ⟨_, _, _, _, _, heq⟩ := he.resized
    rw [heq]
    exact ⟨rfl, rfl⟩
  have hsame := he.grown.kept.same
  obtain ⟨rfl, -⟩ | ⟨-, hrc', -⟩ | ⟨hlt, -, hsize, hlen, hfull⟩ := he.result
  · exact absurd rfl hrc
  · exact absurd hrc' hrc
  · replace hlt : (s.sft fd).size < (s.sft fd).posit := hlt
    replace hlen : L'.length ≤ extendTarget s.vol.dpb (s.sft fd).posit (count == 0) := hlen
    replace hsize : e.2.1.dir.size = L'.length * s.vol.dpb.clusterSize := by
      rw [hsize]
      split
      · rename_i hnil
        have hpre := he.grown.pre
        have hle := hs.attached.size
        rw [hnil] at hpre ⊢
        rw [List.prefix_nil.mp hpre, List.length_nil, Nat.zero_mul] at hle
        rw [List.length_nil, Nat.zero_mul]
        exact Nat.le_zero.mp hle
      · rfl
    have hwrote : Wrote fd s L L' buffer 0 e.2.1.dir.size (fnodeToSft e.2.2 e.2.1) :=
      wrote_back he.grown.rechained (he.sectors.2.trans hs.succeed) he.placed hresized.1 hfd
        hsize.le hresized.2 ⟨L', he.grown.pre, List.prefix_refl L'⟩ (Or.inl rfl) (by
          rw [he.sectors.1]
          exact stored_zero _ _ _ _ _)
    have hend : if count = 0 then L'.length * s.vol.dpb.clusterSize < (s.sft fd).posit
        else L'.length * s.vol.dpb.clusterSize ≤ (s.sft fd).posit := by
      split
      · rename_i hzero
        subst hzero
        replace hlen : L'.length ≤ clustersFor s.vol.dpb (s.sft fd).posit - 1 := hlen
        have hpos : 0 < clustersFor s.vol.dpb (s.sft fd).posit := by
          rw [clustersFor_pos hok.dpb (Nat.zero_lt_of_lt hlt)]
          exact Nat.succ_pos _
        by_contra hge
        have hneed := (clustersFor_le_iff hok.dpb).mpr (Nat.not_lt.mp hge)
        omega
      · exact extendTarget_le hok.dpb hlen
    refine ⟨L', _, ⟨hwrote, rfl, Nat.zero_le _, Or.inr hfull⟩, ?_⟩
    rw [← hsize, ← hwrote.size] at hend
    refine ⟨hs.size ▸ hlt, hfull, ?_, hend⟩
    rw [hwrote.size, hsize, ← hsame.clusterSize]
    rfl

/-- A truncation. -/
theorem written_truncate (hrc : (dosExtend s (sftToFnode s fd).modified true).1 = success) :
    ∃ L', Written fd s L L' buffer 0 0 (s.sft fd).posit (rwblock s fd buffer 0 .write) := by
  have hok : s.vol.Ok := hs.ok
  obtain ⟨L', he⟩ := extended_call hok hfd hs.attached hs.posit true
  rw [rwblock_truncate buffer rfl hrc]
  generalize dosExtend s (sftToFnode s fd).modified true = e at he hrc
  have hresized : e.2.1.sftIdx = fd ∧ e.2.1.offset = (s.sft fd).posit := by
    obtain ⟨_, _, _, _, _, heq⟩ := he.resized
    rw [heq]
    exact ⟨rfl, rfl⟩
  obtain ⟨hneed, hroom, hshrunk⟩ := he.shrunk hok hrc hs.attached.size hfd
  replace hneed : clustersFor s.vol.dpb (s.sft fd).posit ≤ L'.length := hneed
  replace hroom : (s.sft fd).posit ≤
    clustersFor s.vol.dpb (s.sft fd).posit * s.vol.dpb.clusterSize := hroom
  replace hshrunk : Shrunk (e.2.1.setSize e.2.1.offset) e.2.2.vol L'
      (clustersFor s.vol.dpb (s.sft fd).posit)
      (shrinkFile e.2.2.vol (e.2.1.setSize e.2.1.offset)) := hshrunk
  generalize clustersFor s.vol.dpb (s.sft fd).posit = k at hneed hroom hshrunk
  have hresult := hshrunk.result
  have hnil : e.2.2.vol.outcomes = [] := he.sectors.2.trans hs.succeed
  rw [access_none hnil, if_neg fun hf => Bool.false_ne_true hf.2] at hresult
  generalize shrinkFile e.2.2.vol (e.2.1.setSize e.2.1.offset) = r at hshrunk hresult ⊢
  have hmoved : r.2.1.sftIdx = fd ∧ r.2.1.offset = (s.sft fd).posit ∧
      r.2.1.dir.size = (s.sft fd).posit := by
    obtain ⟨_, _, _, _, heq⟩ := hshrunk.moved
    rw [heq]
    exact ⟨hresized.1, hresized.2, hresized.2⟩
  rw [if_neg (by rw [hresult]; decide)]
  refine ⟨L'.take k, ?_, rfl, Nat.zero_le _, Or.inl rfl⟩
  have hwrote : Wrote fd s L (L'.take k) buffer 0 r.2.1.dir.size
    (fnodeToSft { e.2.2 with vol := r.2.2 } r.2.1) := wrote_back (t := { e.2.2 with vol := r.2.2 }) (he.grown.rechained.trans hshrunk.cut.rechained)
    (hshrunk.cut.succeed hnil) hshrunk.placed hmoved.1 hfd (by
      rw [hmoved.2.2, List.length_take_of_le hneed]
      exact hroom) hmoved.2.1
    ⟨L', he.grown.pre, List.take_prefix _ _⟩ (Or.inl rfl) (by
      rw [hshrunk.cut.disk, he.sectors.1]
      exact stored_zero _ _ _ _ _)
  rwa [hmoved.2.2] at hwrote

/-- A write of some bytes. -/
theorem written_loop {count : UInt16} (hcount : count ≠ 0)
    (hlt : (s.sft fd).posit + count.toNat < 2 ^ 32)
    (hrc : (dosExtend s (sftToFnode s fd).modified false).1 = success) :
    ∃ L' k, Written fd s L L' buffer count k (max (max c.size (s.sft fd).posit)
      ((s.sft fd).posit + k)) (rwblock s fd buffer count .write) := by
  have hok : s.vol.Ok := hs.ok
  obtain ⟨L', he⟩ := extended_call hok hfd hs.attached hs.posit false
  generalize hdef : dosExtend s (sftToFnode s fd).modified false = e at he hrc
  obtain ⟨hoff, hle, hmax, hroom⟩ := he.enough hok hrc hs.attached.size
  replace hoff : e.2.1.offset = (s.sft fd).posit := hoff
  replace hmax : e.2.1.dir.size = max c.size (s.sft fd).posit :=
    hmax.trans (by rw [show c.size = _ from hs.size]; rfl)
  have hidx : e.2.1.sftIdx = fd := by
    obtain ⟨_, _, _, _, _, heq⟩ := he.resized
    rw [heq]
    rfl
  have hsame := he.grown.kept.same
  rw [rwblock_write buffer hdef hrc hcount (by rw [hoff, Nat.mod_eq_of_lt hlt]; omega)]
  obtain ⟨L'', k, hr⟩ := rwLoop_spec .write he.grown.kept.ok he.grown.chain he.placed
    (by rw [hidx]; exact hfd) (fun _ => by rw [hoff]; exact hle) 0
    (Nat.le_refl count.toNat) buffer
  generalize rwLoop .write count.toNat e.2.2 e.2.1 buffer 0 count.toNat = r at hr ⊢
  have hnil : e.2.2.vol.outcomes = [] := he.sectors.2.trans hs.succeed
  obtain ⟨hret, hnil', heffect, hstop⟩ := hr.effect hnil
  have hpre := he.grown.pre.trans hr.grown.pre
  have hsize : r.2.1.dir.size = max (max c.size (s.sft fd).posit) ((s.sft fd).posit + k) := by
    rw [hr.write rfl, hmax, hoff]
  have hwithin : k = 0 ∨ (s.sft fd).posit + k ≤ L''.length * s.vol.dpb.clusterSize := by
    rcases Nat.eq_zero_or_pos k with h0 | hk
    · exact Or.inl h0
    · have := hr.bytes hk
      rw [hoff, hsame.clusterSize] at this
      exact Or.inr this
  have hstored := (heffect.same hsame.symm).1
  rw [hoff, he.sectors.1] at hstored
  have hwrote : Wrote fd s L L'' buffer k r.2.1.dir.size (fnodeToSft r.2.2.2 r.2.1) := by
    refine wrote_back (he.grown.rechained.trans hr.grown.rechained) hnil' hr.placed
      (hr.went.sftIdx.trans hidx) hfd ?_ (by rw [hr.offset, hoff]) ⟨L'', hpre, List.prefix_refl _⟩
      hwithin (by simpa only [Nat.zero_add] using hstored)
    have hlen := Nat.mul_le_mul_right s.vol.dpb.clusterSize hr.grown.pre.length_le
    rw [hsize, ← hmax]
    rcases hwithin with rfl | hwithin
    · have : (s.sft fd).posit ≤ e.2.1.dir.size := hle
      omega
    · omega
  rw [hsize] at hwrote
  refine ⟨L'', k, hwrote, by rw [hret, Nat.zero_add], hr.le, ?_⟩
  rcases hstop with hall | hstop
  · exact Or.inl hall
  · obtain ⟨hmode, -⟩ | ⟨-, hfull, -⟩ := hstop
    · cases hmode
    · exact Or.inr hfull

/-- **What a write does.** -/
theorem written {count : UInt16} (hlt : (s.sft fd).posit + count.toNat < 2 ^ 32) :
    ∃ L' k size, Written fd s L L' buffer count k size (rwblock s fd buffer count .write) ∧
      (size = c.grown (s.sft fd).posit k count ∨ k = 0 ∧
        Full (rwblock s fd buffer count .write).2.2 fd c.size (s.sft fd).posit count L') := by
  by_cases hrc : (dosExtend s (sftToFnode s fd).modified (count == 0)).1 = success
  · by_cases hcount : count = 0
    · subst hcount
      obtain ⟨L', hw⟩ := written_truncate hs hfd buffer hrc
      exact ⟨L', 0, _, hw, Or.inl rfl⟩
    · rw [beq_false_of_ne hcount] at hrc
      obtain ⟨L', k, hw⟩ := written_loop hs hfd buffer hcount hlt hrc
      exact ⟨L', k, _, hw, Or.inl (if_neg hcount).symm⟩
  · obtain ⟨L', size, hw, hfull⟩ := written_full hs hfd buffer hrc
    exact ⟨L', 0, size, hw, Or.inr ⟨rfl, hfull⟩⟩

end

/-! ## Runs -/

/-- An SFT is attached to one chain only. -/
theorem Sft.Attached.unique {v : Volume} {f : Sft} (hok : v.Ok) (h : f.Attached v L)
    (h' : f.Attached v L') : L' = L :=
  h'.chain.unique hok h.chain (h'.head.symm.trans h.head)

/-- What a read leaves and returns. -/
theorem read_spec (hs : Holds fd L (s, c)) (hfd : fd ≠ 0xff) (buffer : Bytes) (count : UInt16)
    (hlt : (s.sft fd).posit + count.toNat < 2 ^ 32) :
    let r := rwblock s fd buffer count .read
    let n := min count.toNat (c.size - (s.sft fd).posit)
    Holds fd L (r.2.2, c) ∧ OthersKept s r.2.2 L ∧ r.1 = (n : ℕ) ∧
      (r.2.2.sft fd).posit = (s.sft fd).posit + n ∧
      Fetched s.vol.dpb L (s.sft fd).posit n s.vol.disk 0 buffer r.2.1 := by
  have hok : s.vol.Ok := hs.ok
  have hsz : (s.sft fd).size = c.size := hs.size.symm
  rw [rwblock_read]
  obtain ⟨L', k, hr⟩ := rwLoop_spec .read hok hs.attached.chain
    (hs.attached.placed hok hfd) hfd (fun hr => (nomatch hr)) 0 (Nat.le_refl count.toNat) buffer
  generalize rwLoop .read count.toNat s (sftToFnode s fd) buffer 0 count.toNat = r at hr ⊢
  obtain ⟨rfl, hsft, hsize, hend⟩ := hr.read rfl
  obtain ⟨hret, hnil', ⟨hfetched, hdisk⟩, hstop⟩ := hr.effect hs.succeed
  have hsame := hr.grown.kept.same
  have hidx : r.2.1.sftIdx = fd := hr.went.sftIdx
  replace hsize : r.2.1.dir.size = c.size := hsize.trans hsz
  replace hend : 0 < k → (s.sft fd).posit + k ≤ c.size := fun hk => hsz ▸ hend hk
  have hle := hr.le
  have hk : k = min count.toNat (c.size - (s.sft fd).posit) := by
    rcases hstop with hall | ⟨-, hstop⟩ | ⟨hmode, -⟩
    · omega
    · have hatt := hs.attached.size
      have hstop' : c.size ≤ (s.sft fd).posit + k := by
        rcases hstop with hstop | hstop
        · exact hsz ▸ hstop
        · rw [hsame.clusterSize] at hstop
          exact (hsz ▸ hatt).trans hstop
      omega
    · cases hmode
  have hposit : ((fnodeToSft r.2.2.2 r.2.1).sft fd).posit = (s.sft fd).posit + k := by
    simp only [fnodeToSft, hidx, Function.update_self]
    exact hr.offset
  have hattached := fnodeToSft_attached (s := r.2.2.2) hr.grown.chain hr.placed (hidx ▸ hfd) (by
    rw [hsize, hsame.clusterSize, ← hsz]
    exact hs.attached.size)
  rw [hidx] at hattached
  rw [← hk]
  refine ⟨⟨hr.grown.kept.ok, hnil', hattached, ?_, ?_, fun i hi b hb => ?_⟩, fun c' hc hhas hused =>
    ⟨hr.grown.kept.entry c' hc, fun j _ o => ?_⟩, by rw [hret, Nat.zero_add], hposit, hfetched⟩
  · exact hposit ▸ (by omega)
  · simp only [fnodeToSft, hidx, Function.update_self]
    exact hsize.symm
  · have hb' := hs.byte i hi b hb
    simp only [fnodeToSft, hdisk]
    rw [loc_same hsame]
    exact hb'
  · simp only [fnodeToSft, hdisk]

/-- **One call** does what it should, and the system holds the array afterwards. -/
theorem behaves_step {sc : System × Content} {req : Request} (hs : Holds fd L sc)
    (hfd : fd ≠ 0xff) (ha : Allowed fd sc req) :
    Behaves fd sc req ∧ ∃ L', Holds fd L' (both fd sc req) := by
  obtain ⟨s, c⟩ := sc
  cases req with
  | seek offset =>
    have hself : (Function.update s.sft fd ((s.sft fd).seek offset) fd) = (s.sft fd).seek offset :=
      Function.update_self ..
    refine ⟨⟨fun _ _ c' _ _ _ => ⟨rfl, fun _ _ _ => rfl⟩, ?_⟩, L, hs.ok, hs.succeed, ?_, ?_, ?_,
      hs.byte⟩
    · simp only [System.call, Function.update_self, Sft.seek]
    · simp only [both, System.call, hself]
      exact ⟨hs.attached.chain, hs.attached.head, hs.attached.cached, hs.attached.size⟩
    · simp only [both, System.call, hself]
      exact ha
    · simp only [both, System.call, hself]
      exact hs.size
  | read buffer count =>
    obtain ⟨hs', hothers, hret, hposit, hfetched⟩ := read_spec hs hfd buffer count ha
    refine ⟨⟨fun M hM => hs.attached.unique hs.ok hM ▸ hothers, hret, ?_, ?_, ?_⟩, L, hs'⟩
    · rw [show (s.call fd (.read buffer count)).1 = _ from hret]
      exact hposit
    · intro i hi b hb
      rw [show (s.call fd (.read buffer count)).1 = _ from hret] at hi
      replace hi : i < min count.toNat (c.size - (s.sft fd).posit) := hi
      have hin := hfetched.inside i hi
      rw [Nat.zero_add] at hin
      have hlt : (s.sft fd).posit + i < c.size := by omega
      exact hin.trans (hs.byte _ hlt b hb)
    · intro i hi
      rw [show (s.call fd (.read buffer count)).1 = _ from hret] at hi
      exact hfetched.outside i (Or.inr (by rw [Nat.zero_add]; exact hi))
  | write buffer count =>
    obtain ⟨L', k, size, hw, hsize⟩ := written hs hfd buffer ha
    have hok : s.vol.Ok := hs.ok
    have hle := hw.le
    have hlt : (s.sft fd).posit + count.toNat < 2 ^ 32 := ha
    have hcall : (s.call fd (.write buffer count)).1.toNat = k := by
      rw [show (s.call fd (.write buffer count)).1 = _ from hw.ret]
      rfl
    refine ⟨⟨fun M hM => hs.attached.unique hok hM ▸ hw.wrote.othersKept hok, k, hle, hw.ret,
      hw.wrote.posit, hw.all, ?_⟩, L', ?_⟩
    · rcases hsize with hsize | ⟨hk, hfull⟩
      · exact Or.inl (hw.wrote.size.trans hsize)
      · exact Or.inr ⟨hk, L', hw.wrote.attached, hfull⟩
    · have hholds := hw.wrote.holds hs (by omega)
      rw [both, Content.after]
      dsimp only
      rw [hcall, show ((s.call fd (.write buffer count)).2.2.sft fd).size = size from hw.wrote.size]
      exact hholds

/-- **A file is an array of bytes**, along every run of calls on the SFT that is open on it. -/
theorem behaves_run {sc : System × Content} {reqs : List Request} (hs : Holds fd L sc)
    (hfd : fd ≠ 0xff) (ha : Along (both fd) (Allowed fd) sc reqs) :
    Along (both fd) (Behaves fd) sc reqs := by
  refine Along.of_inv (I := fun sc => ∃ L, Holds fd L sc) ?_ ⟨L, hs⟩ ha
  rintro sc req ⟨L, hs⟩ ha
  exact (behaves_step hs hfd ha).symm

/-- A full disk with a file of 10 bytes, and an SFT at the position 1000 of it. -/
def fullDisk : System :=
  smallSystem (smallVolume (fun _ => 0xFFF) []) (smallSft 2 10 1000 0 2)
    { smallSft 0 0 0 0 0 with count := 0 }

theorem fullDisk_holds : Holds 0 [2] (fullDisk, ⟨10, fun _ => some 0⟩) where
  ok := smallVolume_ok _ _
  succeed := rfl
  attached := ⟨by decide, rfl, Or.inr rfl, by decide⟩
  posit := by decide
  size := rfl
  byte _ _ _ hb := Option.some.inj hb

theorem behaves_run_fullDisk : Along (both 0) (Behaves 0) (fullDisk, ⟨10, fun _ => some 0⟩)
    [.write (fun _ => 1) 1, .seek 5, .read (fun _ => 0) 3] :=
  behaves_run fullDisk_holds (by decide) ⟨by decide, by decide, by decide, trivial⟩

/-- On a full disk the size does not become the position of the write. -/
theorem fullDisk_size : Holds 0 [2] (fullDisk, ⟨10, fun _ => some 0⟩) ∧
    Allowed 0 (fullDisk, ⟨10, fun _ => some 0⟩) (.write (fun _ => 1) 1) ∧
      (rwblock fullDisk 0 (fun _ => 1) 1 .write).1 = 0 ∧
      ((rwblock fullDisk 0 (fun _ => 1) 1 .write).2.2.sft 0).size ≠
        (⟨10, fun _ => some 0⟩ : Content).grown 1000 0 1 :=
  ⟨fullDisk_holds, by decide, by decide, by decide⟩

end File
end BurdahDos
