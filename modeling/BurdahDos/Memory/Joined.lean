import BurdahDos.Lib.Runs
import BurdahDos.Memory.Chain
import Mathlib

/-!
# What a search makes of a chain

`joinMCBs` merges a free block with all free blocks that follow it, and a search of `DosMemAlloc`
does so with every free block it comes past.  So what it chooses from, though it sees some of it
before it has been joined, is what is free in the chain with all runs merged (`search_exact`).

`Coalesced` says what has become of a chain: its allocated blocks are the same, and the headers that
are no longer blocks are marked as "fake".
-/

set_option autoImplicit false

namespace BurdahDos
namespace Memory

open Tiling

/-- The block is free. -/
def Free (m : Mcb) : Prop := m.mPsp = freePsp

instance : DecidablePred Free := fun m => inferInstanceAs (Decidable (m.mPsp = freePsp))

/-- The header of a block that has taken in the one after it. -/
def mergeMcb (b c : Mcb) : Mcb := { b with mType := c.mType, mSize := b.mSize + c.mSize + 1 }

theorem merges_mcb : Merges Free mergeMcb where
  size _ _ := rfl
  free _ _ := Iff.rfl
  assoc b c d := by
    simp only [mergeMcb, Mcb.mk.injEq, true_and, and_true]
    omega

theorem mcbFree_iff (m : Mcb) : mcbFree m = true ↔ Free m := by simp [mcbFree, Free]

/-- What joining makes of the chain `bs`. -/
structure Coalesced (mem : Mem) (a e : ℕ) (bs : List Mcb) (mem' : Mem) (bs' : List Mcb) : Prop where
  tiled : Tiled mem' a bs' e
  joined : joined Free mergeMcb bs' = joined Free mergeMcb bs
  alloc : ∀ x h, ¬ Free h → (At a bs' x h ↔ At a bs x h)
  /-- No header has become a block. -/
  starts : ∀ x, (∃ h, At a bs' x h) → ∃ h, At a bs x h
  /-- A block that is none any more is fake, and fake ones remain so. -/
  fake : ∀ x, (∃ h, At a bs x h) ∨ (mem x).mSize = 0xffff →
    (∃ h, At a bs' x h) ∨ (mem' x).mSize = 0xffff

section
variable {mem mem' mem'' : Mem} {a e : ℕ} {bs bs' bs'' pre suf : List Mcb} {b c : Mcb}

theorem Coalesced.refl (h : Tiled mem a bs e) : Coalesced mem a e bs mem bs :=
  ⟨h, rfl, fun _ _ _ => Iff.rfl, fun _ => id, fun _ => id⟩

theorem Coalesced.trans (h : Coalesced mem a e bs mem' bs')
    (h' : Coalesced mem' a e bs' mem'' bs'') : Coalesced mem a e bs mem'' bs'' :=
  ⟨h'.tiled, h'.joined.trans h.joined, fun x k hk => (h'.alloc x k hk).trans (h.alloc x k hk),
    fun x hx => h.starts x (h'.starts x hx), fun x hx => h'.fake x (h.fake x hx)⟩

/-! ## Joining -/

/-- The headers after one block has been taken in. -/
theorem joinNext_apply (h : Tiled mem a (pre ++ b :: c :: suf) e) (he : e ≤ 2 ^ 16) (x : ℕ) :
    joinNext mem (a + total pre) (a + total (pre ++ [b])) x =
      if x = a + total (pre ++ [b]) then { c with mSize := 0xffff }
      else if x = a + total pre then mergeMcb b c
      else mem x := by
  have hend := block_end h
  have h' : Tiled mem a ((pre ++ [b]) ++ c :: suf) e := by simpa using h
  have htot : a + total (pre ++ [b]) = a + total pre + (b.mSize + 1) := by
    simp only [total_append, total, size_mcb]; omega
  simp only [total, size_mcb] at hend
  have hsize : (b.mSize + c.mSize + 1) % 2 ^ 16 = b.mSize + c.mSize + 1 :=
    Nat.mod_eq_of_lt (by omega)
  have hne : a + total (pre ++ [b]) ≠ a + total pre := by omega
  simp only [joinNext, modify_apply, mem_block h, mem_block h', hsize, hne, if_false, mergeMcb]

theorem joinNext_tiled (h : Tiled mem a (pre ++ b :: c :: suf) e) (he : e ≤ 2 ^ 16) :
    Tiled (joinNext mem (a + total pre) (a + total (pre ++ [b]))) a
      (pre ++ mergeMcb b c :: suf) e := by
  have hmem := joinNext_apply h he
  have htot : a + total (pre ++ [b]) = a + total pre + (b.mSize + 1) := by
    simp only [total_append, total, size_mcb]; omega
  have htotal : total [mergeMcb b c] = total [b, c] := by
    simp only [total, size_mcb, mergeMcb]; omega
  refine Tiled.replace [b, c] [_] h htotal (fun hE => ?_) ⟨?_, trivial⟩ (fun x hx => ?_) (by simp)
  · cases suf with
    | nil => exact hE.2
    | cons d ds => exact ⟨hE.2.1, hE.2.2⟩
  · rw [hmem, if_neg (by omega), if_pos rfl]
  · simp only [total, size_mcb] at hx
    rw [hmem, if_neg (by omega), if_neg (by omega)]

/-- One block is taken in. -/
theorem joinNext_exact (h : Tiled mem a (pre ++ b :: c :: suf) e) (he : e ≤ 2 ^ 16) (hb : Free b)
    (hc : Free c) :
    Coalesced mem a e (pre ++ b :: c :: suf)
      (joinNext mem (a + total pre) (a + total (pre ++ [b]))) (pre ++ mergeMcb b c :: suf) := by
  have hmem := joinNext_apply h he
  have htot : a + total (pre ++ [b]) = a + total pre + (b.mSize + 1) := by
    simp only [total_append, total, size_mcb]; omega
  have htotal : total [mergeMcb b c] = total [b, c] := by
    simp only [total, size_mcb, mergeMcb]; omega
  have hwhere : ∀ x k, At (a + total pre) (b :: c :: suf) x k ↔
      x = a + total pre ∧ k = b ∨ x = a + total (pre ++ [b]) ∧ k = c ∨
        At (a + total pre + total [b, c]) suf x k := by
    intro x k
    rw [at_cons, at_cons, htot]
    simp only [total, size_mcb, Nat.add_assoc, Nat.add_zero]
  have hwhere' : ∀ x k, At (a + total pre) (mergeMcb b c :: suf) x k ↔
      x = a + total pre ∧ k = mergeMcb b c ∨ At (a + total pre + total [b, c]) suf x k := by
    intro x k
    rw [at_cons, ← htotal]
    rfl
  refine ⟨?_, ?_, fun x k hk => ?_, fun x hx => ?_, fun x hx => ?_⟩
  · exact joinNext_tiled h he
  · refine joined_append_congr merges_mcb pre ?_
    rw [joined, joined, joinFrom, if_pos ⟨hb, hc⟩]
  · rw [at_append, at_append, hwhere, hwhere']
    refine or_congr_right ⟨?_, ?_⟩
    · rintro (⟨-, rfl⟩ | hat)
      · exact absurd hb hk
      · exact Or.inr (Or.inr hat)
    · rintro (⟨-, rfl⟩ | ⟨-, rfl⟩ | hat)
      · exact absurd hb hk
      · exact absurd hc hk
      · exact Or.inr hat
  · obtain ⟨k, hk⟩ := hx
    rw [at_append, hwhere'] at hk
    rcases hk with hk | ⟨rfl, -⟩ | hk
    · exact ⟨k, at_append.mpr (Or.inl hk)⟩
    · exact ⟨b, at_append.mpr (Or.inr ((hwhere _ _).mpr (Or.inl ⟨rfl, rfl⟩)))⟩
    · exact ⟨k, at_append.mpr (Or.inr ((hwhere _ _).mpr (Or.inr (Or.inr hk))))⟩
  · by_cases hxq : x = a + total (pre ++ [b])
    · exact Or.inr (by rw [hmem, if_pos hxq])
    · by_cases hxp : x = a + total pre
      · exact Or.inl ⟨mergeMcb b c,
          at_append.mpr (Or.inr ((hwhere' _ _).mpr (Or.inl ⟨hxp, rfl⟩)))⟩
      · rcases hx with ⟨k, hk⟩ | hfake
        · rw [at_append, hwhere] at hk
          rcases hk with hk | ⟨hk, -⟩ | ⟨hk, -⟩ | hk
          · exact Or.inl ⟨k, at_append.mpr (Or.inl hk)⟩
          · exact absurd hk hxp
          · exact absurd hk hxq
          · exact Or.inl ⟨k, at_append.mpr (Or.inr ((hwhere' _ _).mpr (Or.inr hk)))⟩
        · exact Or.inr (by rw [hmem, if_neg hxq, if_neg hxp, hfake])

/-- **What `joinMCBs` does** to a free block: it takes in the run that it begins. -/
theorem joinLoop_exact (fuel : ℕ) (h : Tiled mem a (pre ++ b :: suf) e) (ha : 0 < a)
    (he : e ≤ 2 ^ 16) (hb : Free b) (hf : suf.length < fuel) :
    ∃ mem', joinLoop fuel mem (a + total pre) = some (success, mem') ∧
      Coalesced mem a e (pre ++ b :: suf) mem'
        (pre ++ (absorb Free mergeMcb b suf).1 :: (absorb Free mergeMcb b suf).2) := by
  induction fuel generalizing mem b suf with
  | zero => exact absurd hf (Nat.not_lt_zero _)
  | succ fuel ih =>
    rw [joinLoop, mem_block h]
    rcases block_type h with ⟨rfl, ht⟩ | ⟨hs, ht⟩
    · rw [if_pos (by rw [ht]; decide)]
      exact ⟨mem, rfl, .refl h⟩
    · rw [if_neg (by rw [ht]; decide), nxtMCB_eq h he hs]
      cases suf with
      | nil => exact absurd rfl hs
      | cons c suf =>
        have h' : Tiled mem a ((pre ++ [b]) ++ c :: suf) e := by simpa using h
        simp only [mem_block h']
        rw [absorb]
        by_cases hc : Free c
        · have hvalid : mcbValid c = true :=
            block_valid h' (block_small h' he (by omega))
          rw [if_neg (by simp [(mcbFree_iff c).mpr hc]), if_neg (by simp [hvalid]), if_pos hc]
          have hnext := joinNext_exact h he hb hc
          obtain ⟨mem', heq, hco⟩ := ih hnext.tiled hb (by simpa using hf)
          exact ⟨mem', heq, hnext.trans hco⟩
        · rw [if_pos (by simpa [mcbFree, Free] using hc), if_neg hc]
          exact ⟨mem, rfl, .refl h⟩

theorem joinMCBs_exact (h : Tiled mem a (pre ++ b :: suf) e) (ha : 0 < a) (he : e ≤ 2 ^ 16)
    (hb : Free b) :
    ∃ mem', joinMCBs mem (a + total pre) = some (success, mem') ∧
      Coalesced mem a e (pre ++ b :: suf) mem'
        (pre ++ (absorb Free mergeMcb b suf).1 :: (absorb Free mergeMcb b suf).2) :=
  joinLoop_exact chainFuel h ha he hb (suf_lt_fuel h he)

end

/-! ## Searching -/

/-- Strategies that look for the smallest block. -/
def IsBest (mode : UInt16) : Prop := mode = bestFit ∨ mode = bestFitU ∨ mode = bestFitUo

/-- Strategies that take the first block. -/
def IsFirst (mode : UInt16) : Prop := mode = firstFit ∨ mode = firstFitU ∨ mode = firstFitUo

instance (mode : UInt16) : Decidable (IsBest mode) := inferInstanceAs (Decidable (_ ∨ _))
instance (mode : UInt16) : Decidable (IsFirst mode) := inferInstanceAs (Decidable (_ ∨ _))

/-- Of these places and sizes, the strategy prefers one to another. -/
def Prefers (mode : UInt16) (r r' : ℕ × ℕ) : Prop :=
  if IsBest mode then r.2 ≤ r'.2 else if IsFirst mode then r.1 ≤ r'.1 else r'.1 ≤ r.1

/-- The strategy chooses this one for a request. -/
structure Chosen (mode : UInt16) (size : ℕ) (R : List (ℕ × ℕ)) (r : ℕ × ℕ) : Prop where
  mem : r ∈ R
  fits : size ≤ r.2
  best : ∀ r' ∈ R, size ≤ r'.2 → Prefers mode r r'

/-- What the variables of a search say when it has come past free blocks with these places and
sizes. -/
structure Vars (size : ℕ) (mode : UInt16) (R : List (ℕ × ℕ)) (t : Search) : Prop where
  biggest : t.biggestSeg = none ∧ R = [] ∨
    ∃ r ∈ R, t.biggestSeg = some r.1 ∧ ∀ r' ∈ R, r'.2 ≤ r.2
  found : t.foundSeg = none ∧ (mode = largest ∨ ∀ r ∈ R, r.2 < size) ∨
    mode ≠ largest ∧ ∃ r, Chosen mode size R r ∧ t.foundSeg = some r.1
  /-- A search for the first block ends with it. -/
  first : IsFirst mode → t.foundSeg = none

section
variable {mem mem' mem₀ : Mem} {a e size p n : ℕ} {mode : UInt16}
  {bs₀ pre suf done chain : List Mcb} {b : Mcb} {R : List (ℕ × ℕ)} {r : ℕ × ℕ} {s t : Search}

theorem isBest_iff : IsBest mode ↔ mode = bestFit ∨ mode = bestFitU ∨ mode = bestFitUo := Iff.rfl

theorem isFirst_iff : IsFirst mode ↔ mode = firstFit ∨ mode = firstFitU ∨ mode = firstFitUo :=
  Iff.rfl

theorem IsBest.not_first (h : IsBest mode) : ¬ IsFirst mode := by
  rcases h with rfl | rfl | rfl <;> decide

/-- The biggest block so far, with one more. -/
theorem Vars.biggest_snoc (h : Vars size mode R s) (hsize : ∀ r ∈ R, (mem r.1).mSize = r.2) :
    ∃ r ∈ R ++ [(p, n)], (match s.biggestSeg with
        | none => some p
        | some b => if (mem b).mSize < n then some p else some b) = some r.1 ∧
      ∀ r' ∈ R ++ [(p, n)], r'.2 ≤ r.2 := by
  rcases h.biggest with ⟨hnone, rfl⟩ | ⟨r, hr, hsome, hmax⟩
  · rw [hnone]
    exact ⟨(p, n), by simp, rfl, by simp⟩
  · rw [hsome]
    simp only [hsize r hr]
    by_cases hlt : r.2 < n
    · rw [if_pos hlt]
      refine ⟨(p, n), by simp, rfl, fun r' hr' => ?_⟩
      rcases List.mem_append.mp hr' with hr' | hr'
      · exact (hmax r' hr').trans hlt.le
      · rw [List.mem_singleton.mp hr']
    · rw [if_neg hlt]
      refine ⟨r, by simp [hr], rfl, fun r' hr' => ?_⟩
      rcases List.mem_append.mp hr' with hr' | hr'
      · exact hmax r' hr'
      · rw [List.mem_singleton.mp hr']
        exact Nat.not_lt.mp hlt

/-- One that the strategy does not prefer does not change the choice. -/
theorem Chosen.snoc_old (h : Chosen mode size R r) (hp : size ≤ n → Prefers mode r (p, n)) :
    Chosen mode size (R ++ [(p, n)]) r := by
  refine ⟨List.mem_append_left _ h.mem, h.fits, fun r' hr' hfits => ?_⟩
  rcases List.mem_append.mp hr' with hr' | hr'
  · exact h.best r' hr' hfits
  · rw [List.mem_singleton.mp hr'] at hfits ⊢
    exact hp hfits

/-- One that it prefers to all that are large enough becomes the choice. -/
theorem Chosen.snoc_new (hle : size ≤ n) (hp : ∀ r ∈ R, size ≤ r.2 → Prefers mode (p, n) r) :
    Chosen mode size (R ++ [(p, n)]) (p, n) := by
  refine ⟨by simp, hle, fun r' hr' hfits => ?_⟩
  rcases List.mem_append.mp hr' with hr' | hr'
  · exact hp r' hr' hfits
  · rw [List.mem_singleton.mp hr', Prefers]
    split_ifs <;> exact Nat.le_refl _

/-- **The rule set**, applied to a free block behind those of `R`. -/
theorem tryBlock_exact (h : Vars size mode R s) (hsize : ∀ r ∈ R, (s.mem r.1).mSize = r.2)
    (hlt : ∀ r ∈ R, r.1 < p) (hp : (s.mem p).mSize = n) :
    (∃ t, tryBlock size mode p s = .next t ∧ t.mem = s.mem ∧ Vars size mode (R ++ [(p, n)]) t) ∨
      ∃ t, tryBlock size mode p s = .stopIt t ∧ t.mem = s.mem ∧ IsFirst mode ∧
        t.foundSeg = some p ∧ size ≤ n ∧ ∀ r ∈ R, r.2 < size := by
  have hbig := h.biggest_snoc (p := p) (n := n) hsize
  rw [tryBlock, hp]
  simp only
  by_cases hn : n < size
  · rw [if_pos hn]
    refine Or.inl ⟨_, rfl, rfl, Or.inr hbig, ?_, h.first⟩
    rcases h.found with ⟨hnone, hor⟩ | ⟨hl, r, hr, hsome⟩
    · refine Or.inl ⟨hnone, hor.imp_right fun hsmall r hr => ?_⟩
      rcases List.mem_append.mp hr with hr | hr
      · exact hsmall r hr
      · rwa [List.mem_singleton.mp hr]
    · exact Or.inr ⟨hl, r, hr.snoc_old fun hle => absurd hn (Nat.not_lt.mpr hle), hsome⟩
  · rw [if_neg hn]
    have hle : size ≤ n := Nat.not_lt.mp hn
    by_cases hl : mode = largest
    · rw [if_pos hl]
      refine Or.inl ⟨_, rfl, rfl, Or.inr hbig, ?_, h.first⟩
      rcases h.found with ⟨hnone, -⟩ | ⟨hl', -⟩
      · exact Or.inl ⟨hnone, Or.inl hl⟩
      · exact absurd hl hl'
    · rw [if_neg hl]
      -- while nothing has been found, all blocks before were too small
      have hsmall : s.foundSeg = none → ∀ r ∈ R, r.2 < size := by
        intro hnone
        rcases h.found with ⟨-, hor⟩ | ⟨-, r, -, hsome⟩
        · exact hor.resolve_left hl
        · rw [hnone] at hsome
          cases hsome
      by_cases hb : IsBest mode
      · rw [if_pos (isBest_iff.mp hb)]
        refine Or.inl ⟨_, rfl, rfl, Or.inr hbig, Or.inr ⟨hl, ?_⟩,
          fun hf => absurd hf hb.not_first⟩
        cases hfound : s.foundSeg with
        | none =>
          exact ⟨(p, n), Chosen.snoc_new hle fun r hr hfits =>
            absurd (hsmall hfound r hr) (Nat.not_lt.mpr hfits), rfl⟩
        | some f =>
          rcases h.found with ⟨hnone, -⟩ | ⟨-, r, hr, hsome⟩
          · rw [hfound] at hnone
            cases hnone
          · obtain rfl : f = r.1 := Option.some.inj (hfound.symm.trans hsome)
            simp only [hsize r hr.mem]
            by_cases hgt : r.2 > n
            · rw [if_pos hgt]
              refine ⟨(p, n), Chosen.snoc_new hle fun r' hr' hfits => ?_, rfl⟩
              have := hr.best r' hr' hfits
              rw [Prefers, if_pos hb] at this ⊢
              exact hgt.le.trans this
            · rw [if_neg hgt]
              refine ⟨r, hr.snoc_old fun _ => ?_, rfl⟩
              rw [Prefers, if_pos hb]
              exact Nat.not_lt.mp hgt
      · rw [if_neg (isBest_iff.not.mp hb)]
        by_cases hf : IsFirst mode
        · rw [if_pos (isFirst_iff.mp hf)]
          exact Or.inr ⟨_, rfl, rfl, hf, rfl, hle, hsmall (h.first hf)⟩
        · rw [if_neg (isFirst_iff.not.mp hf)]
          refine Or.inl ⟨_, rfl, rfl, Or.inr hbig, Or.inr ⟨hl, (p, n), ?_, rfl⟩,
            fun hf' => absurd hf' hf⟩
          refine Chosen.snoc_new hle fun r hr _ => ?_
          rw [Prefers, if_neg hb, if_neg hf]
          exact (hlt r hr).le

/-- What a search ends with, where `all` is what the chain it searched becomes when all runs are
merged; before that chain there are the blocks `pre`. -/
def Ends (size : ℕ) (mode : UInt16) (mem₀ : Mem) (a e : ℕ) (bs₀ pre all : List Mcb) :
    Progress → Prop
  | .destroyed _ => False
  | .stopIt t => IsFirst mode ∧ ∃ r bs' k,
      Chosen mode size (frees Free (a + total pre) all) r ∧ t.foundSeg = some r.1 ∧
      Coalesced mem₀ a e bs₀ t.mem bs' ∧ At a bs' r.1 k ∧ Free k ∧ k.mSize = r.2
  | .next t => Coalesced mem₀ a e bs₀ t.mem (pre ++ all) ∧
      Vars size mode (frees Free (a + total pre) all) t

/-- **What a search chooses from** is what is free once all runs have been merged. -/
theorem search_exact (fuel : ℕ) {all : List Mcb}
    (h : Coalesced mem₀ a e bs₀ s.mem ((pre ++ done) ++ b :: suf)) (ha : 0 < a) (he : e ≤ 2 ^ 16)
    (hall : done ++ joined Free mergeMcb (b :: suf) = all)
    (hs : Vars size mode (frees Free (a + total pre) done) s) (hf : suf.length < fuel) :
    ∃ p, search size mode fuel (a + total (pre ++ done)) s = some p ∧
      Ends size mode mem₀ a e bs₀ pre all p := by
  induction fuel generalizing done b suf s with
  | zero => exact absurd hf (Nat.not_lt_zero _)
  | succ fuel ih =>
    have hvalid : mcbValid b = true := block_valid h.tiled (block_small h.tiled he (by omega))
    -- the next round, with the block `b'` that has come in the place of `b`
    have hgo : ∀ (b' : Mcb) (suf' : List Mcb) (t : Search),
        Coalesced mem₀ a e bs₀ t.mem ((pre ++ done) ++ b' :: suf') →
        done ++ b' :: joined Free mergeMcb suf' = all →
        Vars size mode (frees Free (a + total pre) (done ++ [b'])) t → suf'.length ≤ suf.length →
        ∃ p, (if (t.mem (a + total (pre ++ done))).mType = mcbLast then some (.next t)
          else search size mode fuel (nxtMCB t.mem (a + total (pre ++ done))) t) = some p ∧
          Ends size mode mem₀ a e bs₀ pre all p := by
      intro b' suf' t hco hall' hvars hlen
      rw [mem_block hco.tiled]
      rcases block_type hco.tiled with ⟨rfl, hlast⟩ | ⟨hne, hmore⟩
      · rw [if_pos hlast]
        refine ⟨_, rfl, ?_, ?_⟩
        · rw [← hall']
          simpa [joined] using hco
        · rw [← hall']
          exact hvars
      · rw [if_neg (by rw [hmore]; decide), nxtMCB_eq hco.tiled he hne]
        obtain ⟨c, cs, rfl⟩ := List.exists_cons_of_ne_nil hne
        rw [List.append_assoc pre done [b']]
        refine ih (by simpa using hco) (by simpa using hall') hvars ?_
        simp only [List.length_cons] at hlen
        omega
    rw [search, visit, mem_block h.tiled, hvalid]
    by_cases hfree : Free b
    · rw [if_neg (by decide), if_neg (by simp [(mcbFree_iff b).mpr hfree])]
      obtain ⟨mem', heq, hjoin⟩ := joinMCBs_exact h.tiled ha he hfree
      generalize hab : absorb Free mergeMcb b suf = ab at hjoin
      obtain ⟨b', suf'⟩ := ab
      have hfree' : Free b' := by
        have := (absorb_free merges_mcb b suf).mpr hfree
        rwa [hab] at this
      have hall' : done ++ b' :: joined Free mergeMcb suf' = all := by
        rw [← hall, joined, joinFrom_absorb merges_mcb hfree, hab]
      have hlen : suf'.length ≤ suf.length := by
        have := (absorb_snd b suf : (absorb Free mergeMcb b suf).2.length ≤ _ ∧ _).1
        rwa [hab] at this
      have hco := h.trans hjoin
      have hb' := mem_block hco.tiled
      have hplace : ∀ r ∈ frees Free (a + total pre) done,
          (mem' r.1).mSize = r.2 ∧ r.1 < a + total (pre ++ done) := by
        intro r hr
        obtain ⟨k, hk, -, hn⟩ := mem_frees.mp hr
        have hat : At a ((pre ++ done) ++ b' :: suf') r.1 k :=
          at_append.mpr (Or.inl (at_append.mpr (Or.inr hk)))
        have := (frees_bounds hr).2
        rw [total_append, hco.tiled.linked.mem_eq hat]
        exact ⟨hn, by omega⟩
      have hsnoc : frees Free (a + total pre) (done ++ [b']) =
          frees Free (a + total pre) done ++ [(a + total (pre ++ done), b'.mSize)] := by
        rw [frees_append, frees_singleton hfree', total_append, Nat.add_assoc, size_mcb]
      rw [heq]
      simp only [if_neg (not_not_intro rfl)]
      rcases tryBlock_exact (s := { s with mem := mem' }) (n := b'.mSize)
          ⟨hs.biggest, hs.found, hs.first⟩ (fun r hr => (hplace r hr).1)
          (fun r hr => (hplace r hr).2) (congrArg Mcb.mSize hb') with
        ⟨t, ht, hmem, hvars⟩ | ⟨t, ht, hmem, hfirst, hfound, hle, hsmall⟩
      · rw [ht]
        exact hgo b' suf' t (by rw [hmem]; exact hco) hall' (hsnoc ▸ hvars) hlen
      · rw [ht]
        refine ⟨_, rfl, hfirst, (a + total (pre ++ done), b'.mSize), _, b', ?_, hfound,
          by rw [hmem]; exact hco,
          ⟨_, _, rfl, rfl⟩, hfree', rfl⟩
        rw [← hall', ← List.singleton_append, ← List.append_assoc, frees_append, hsnoc]
        refine ⟨by simp, hle, fun r hr hfits => ?_⟩
        rw [Prefers, if_neg fun hb => hb.not_first hfirst, if_pos hfirst]
        rcases List.mem_append.mp hr with hr | hr
        · rcases List.mem_append.mp hr with hr | hr
          · exact absurd (hsmall r hr) (Nat.not_lt.mpr hfits)
          · rw [List.mem_singleton.mp hr]
        · have := (frees_bounds hr).1
          simp only [total_append] at this ⊢
          omega
    · rw [if_neg (by decide), if_pos (by simpa [mcbFree, Free] using hfree)]
      refine hgo b suf s h ?_ ?_ (Nat.le_refl _)
      · rw [← hall, joined, joinFrom_of_not_free hfree]
      · rw [frees_append]
        simpa [frees, hfree] using hs

end

end Memory
end BurdahDos
