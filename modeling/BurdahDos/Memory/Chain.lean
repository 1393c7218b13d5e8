import BurdahDos.Lib.Tiling
import BurdahDos.Memory.Defs
import Mathlib

/-!
# MCBs: what each function does to the chain

One lemma per function of `Memory/Defs.lean`, over a chain that tiles its range.  A function that
works on one block is stated for the chain split at that block, `pre ++ b :: suf`, and says what
comes in the place of `b :: suf`.

`Keeps` is what the callers of the memory manager care about: the allocated blocks, other than the
one an operation is about, are still there.
-/

set_option autoImplicit false

namespace BurdahDos
namespace Memory

open Tiling

instance : Header Mcb where
  size := Mcb.mSize
  more m := m.mType = mcbNormal
  last m := m.mType = mcbLast

@[simp] theorem size_mcb (m : Mcb) : Header.size m = m.mSize := rfl

theorem not_last_of_more (m : Mcb) (h : Header.more m) : ¬ Header.last m := by
  intro hl
  exact absurd (h.symm.trans hl) (by decide)

/-- The allocated blocks, but for those in `T`, are still at their places with the same size and
owner. -/
def Keeps (T : ℕ → UInt16 → Prop) (a : ℕ) (bs bs' : List Mcb) : Prop :=
  ∀ x h, At a bs x h → h.mPsp ≠ freePsp → ¬ T x h.mPsp →
    ∃ h', At a bs' x h' ∧ h'.mSize = h.mSize ∧ h'.mPsp = h.mPsp

theorem Keeps.refl (T : ℕ → UInt16 → Prop) (a : ℕ) (bs : List Mcb) : Keeps T a bs bs :=
  fun _ h hx _ _ => ⟨h, hx, rfl, rfl⟩

theorem Keeps.trans {T : ℕ → UInt16 → Prop} {a : ℕ} {bs cs ds : List Mcb} (h : Keeps T a bs cs)
    (h' : Keeps T a cs ds) : Keeps T a bs ds := by
  intro x b hx hb hT
  obtain ⟨c, hc, hs, hp⟩ := h x b hx hb hT
  obtain ⟨d, hd, hs', hp'⟩ := h' x c hc (hp ▸ hb) (hp ▸ hT)
  exact ⟨d, hd, hs'.trans hs, hp'.trans hp⟩

/-- What replaces free blocks and blocks of `T` loses nothing. -/
theorem Keeps.replace {T : ℕ → UInt16 → Prop} {a : ℕ} {pre suf : List Mcb} (mid mid' : List Mcb)
    (htotal : total mid' = total mid)
    (hmid : ∀ x h, At (a + total pre) mid x h → h.mPsp = freePsp ∨ T x h.mPsp) :
    Keeps T a (pre ++ (mid ++ suf)) (pre ++ (mid' ++ suf)) := by
  intro x h hx hp hT
  rcases hx.replace htotal with hx | hx
  · exact ((hmid x h hx).resolve_left hp |> hT).elim
  · exact ⟨h, hx, rfl, rfl⟩

/-! ## Headers in a chain -/

section Chain

variable {mem : Mem} {a e : ℕ} {pre suf : List Mcb} {b : Mcb}

/-- The header at a block of the chain. -/
theorem mem_block (h : Tiled mem a (pre ++ b :: suf) e) : mem (a + total pre) = b :=
  (linked_append.mp h.linked).2.1

theorem block_end (h : Tiled mem a (pre ++ b :: suf) e) :
    a + total pre + (b.mSize + 1) + total suf = e := by
  have := h.fills
  simp only [total_append, total, size_mcb] at this
  omega

/-- A block is the last one exactly if its type says so. -/
theorem block_type (h : Tiled mem a (pre ++ b :: suf) e) :
    (suf = [] ∧ b.mType = mcbLast) ∨ (suf ≠ [] ∧ b.mType = mcbNormal) := by
  have := ((ended_append (List.cons_ne_nil b suf)).mp h.ended).2
  cases suf with
  | nil => exact Or.inl ⟨rfl, this⟩
  | cons c cs => exact Or.inr ⟨List.cons_ne_nil c cs, this.1⟩

/-- The next block is where `nxtMCB` says. -/
theorem nxtMCB_eq (h : Tiled mem a (pre ++ b :: suf) e) (he : e ≤ 2 ^ 16) (hs : suf ≠ []) :
    nxtMCB mem (a + total pre) = a + total (pre ++ [b]) := by
  have hend := block_end h
  have hpos : 0 < total suf := by
    have := length_le_total suf
    have := List.length_pos_iff.mpr hs
    omega
  rw [nxtMCB, nxtMCBsize, mem_block h, total_append]
  simp only [total, size_mcb]
  omega

/-- The headers of a chain have one of the two types; what can be wrong with one is its size. -/
theorem block_valid (h : Tiled mem a (pre ++ b :: suf) e) (hsize : b.mSize ≠ 0xffff) :
    mcbValid b = true := by
  rcases block_type h with ⟨-, ht⟩ | ⟨-, ht⟩ <;> simp [mcbValid, ht, hsize]

/-- Only a block that begins at segment 0 and takes all of memory is of that size. -/
theorem block_small (h : Tiled mem a (pre ++ b :: suf) e) (he : e ≤ 2 ^ 16)
    (hpos : 0 < a + total pre) : b.mSize ≠ 0xffff := by
  have hend := block_end h
  omega

/-- The number of blocks is bounded by the fuel of the loops. -/
theorem suf_lt_fuel (h : Tiled mem a (pre ++ b :: suf) e) (he : e ≤ 2 ^ 16) :
    suf.length < chainFuel := by
  have := block_end h
  have := length_le_total suf
  rw [chainFuel]
  omega

end Chain

/-! ## Joining -/

/-- What `joinMCBs` leaves in the place of `b :: suf`: a block `b'` of the same owner and not
smaller, which has taken in free blocks. -/
structure Joined (mem : Mem) (a : ℕ) (pre : List Mcb) (b : Mcb) (suf : List Mcb) (e : ℕ)
    (mem' : Mem) (b' : Mcb) (suf' : List Mcb) : Prop where
  tiled : Tiled mem' a (pre ++ b' :: suf') e
  psp : b'.mPsp = b.mPsp
  le : b.mSize ≤ b'.mSize
  length : suf'.length ≤ suf.length
  keeps : ∀ T : ℕ → UInt16 → Prop, b.mPsp = freePsp ∨ T (a + total pre) b.mPsp →
    Keeps T a (pre ++ b :: suf) (pre ++ b' :: suf')

theorem modify_apply (mem : Mem) (p x : ℕ) (f : Mcb → Mcb) :
    mem.modify p f x = if x = p then f (mem p) else mem x := by
  rw [Mem.modify, Function.update_apply]

theorem joinNext_spec {mem : Mem} {a e : ℕ} {pre suf : List Mcb} {b c : Mcb}
    (h : Tiled mem a (pre ++ b :: c :: suf) e) (he : e ≤ 2 ^ 16) (hc : c.mPsp = freePsp) :
    ∃ b', Joined mem a pre b (c :: suf) e
      (joinNext mem (a + total pre) (a + total (pre ++ [b]))) b' suf := by
  have hb := mem_block h
  have hend := block_end h
  have h' : Tiled mem a ((pre ++ [b]) ++ c :: suf) e := by simpa using h
  have hq := mem_block h'
  have htot : a + total (pre ++ [b]) = a + total pre + (b.mSize + 1) := by
    simp only [total_append, total, size_mcb]; omega
  simp only [total, size_mcb] at hend
  have hsize : (b.mSize + c.mSize + 1) % 2 ^ 16 = b.mSize + c.mSize + 1 :=
    Nat.mod_eq_of_lt (by omega)
  have htotal : total [{ b with mType := c.mType, mSize := b.mSize + c.mSize + 1 }] =
      total [b, c] := by
    simp only [total, size_mcb]; omega
  have hmem : ∀ x, joinNext mem (a + total pre) (a + total (pre ++ [b])) x =
      if x = a + total (pre ++ [b]) then { c with mSize := 0xffff }
      else if x = a + total pre then { b with mType := c.mType, mSize := b.mSize + c.mSize + 1 }
      else mem x := by
    intro x
    have hne : a + total (pre ++ [b]) ≠ a + total pre := by omega
    simp only [joinNext, modify_apply, hb, hq, hsize, hne, if_false]
  refine ⟨{ b with mType := c.mType, mSize := b.mSize + c.mSize + 1 }, ?_, rfl, ?_, ?_, ?_⟩
  · refine Tiled.replace [b, c] [_] h htotal (fun hE => ?_) ⟨?_, trivial⟩
      (fun x hx => ?_) (by simp)
    · cases suf with
      | nil => exact hE.2
      | cons d ds => exact ⟨hE.2.1, hE.2.2⟩
    · rw [hmem, if_neg (by omega), if_pos rfl]
    · simp only [total, size_mcb] at hx
      rw [hmem, if_neg (by omega), if_neg (by omega)]
  · simp only
    omega
  · simp
  · intro T hT
    refine Keeps.replace [b, c] [_] htotal fun x k hk => ?_
    rcases at_cons.mp hk with ⟨rfl, rfl⟩ | hk
    · exact hT
    · rcases at_cons.mp hk with ⟨rfl, rfl⟩ | ⟨r, t, hr, -⟩
      · exact Or.inl hc
      · simp at hr

/-- **What `joinMCBs` does.**  It ends, and whatever its answer the chain stays a chain. -/
theorem joinLoop_spec (fuel : ℕ) {mem : Mem} {a e : ℕ} {pre suf : List Mcb} {b : Mcb}
    (h : Tiled mem a (pre ++ b :: suf) e) (he : e ≤ 2 ^ 16) (hf : suf.length < fuel) :
    ∃ rc mem' b' suf', joinLoop fuel mem (a + total pre) = some (rc, mem') ∧
      Joined mem a pre b suf e mem' b' suf' := by
  induction fuel generalizing mem b suf with
  | zero => exact absurd hf (Nat.not_lt_zero _)
  | succ fuel ih =>
    have hsame : Joined mem a pre b suf e mem b suf :=
      ⟨h, rfl, Nat.le_refl _, Nat.le_refl _, fun _ _ => Keeps.refl _ _ _⟩
    rw [joinLoop, mem_block h]
    rcases block_type h with ⟨rfl, ht⟩ | ⟨hs, ht⟩
    · rw [if_pos (by rw [ht]; decide)]
      exact ⟨_, _, _, _, rfl, hsame⟩
    · rw [if_neg (by rw [ht]; decide), nxtMCB_eq h he hs]
      cases suf with
      | nil => exact absurd rfl hs
      | cons c suf =>
        have h' : Tiled mem a ((pre ++ [b]) ++ c :: suf) e := by simpa using h
        simp only [mem_block h']
        split
        · exact ⟨_, _, _, _, rfl, hsame⟩
        · rename_i hfree
          split
          · exact ⟨_, _, _, _, rfl, hsame⟩
          · have hc : c.mPsp = freePsp := by simpa [mcbFree] using hfree
            obtain ⟨b1, h1⟩ := joinNext_spec h he hc
            obtain ⟨rc, mem', b', suf', heq, h2⟩ := ih h1.tiled (by simpa using hf)
            refine ⟨rc, mem', b', suf', heq, h2.tiled, h2.psp.trans h1.psp, h1.le.trans h2.le,
              h2.length.trans h1.length, fun T hT => (h1.keeps T hT).trans (h2.keeps T ?_)⟩
            rwa [h1.psp]

theorem joinMCBs_spec {mem : Mem} {a e : ℕ} {pre suf : List Mcb} {b : Mcb}
    (h : Tiled mem a (pre ++ b :: suf) e) (he : e ≤ 2 ^ 16) :
    ∃ rc mem' b' suf', joinMCBs mem (a + total pre) = some (rc, mem') ∧
      Joined mem a pre b suf e mem' b' suf' :=
  joinLoop_spec chainFuel h he (suf_lt_fuel h he)

/-! ## Searching -/

/-- What the variables of the search say: free blocks among those seen, and large enough if
found. -/
structure Seen (size : ℕ) (a : ℕ) (bs : List Mcb) (t : Search) : Prop where
  found : ∀ f, t.foundSeg = some f → ∃ h, At a bs f h ∧ h.mPsp = freePsp ∧ size ≤ h.mSize
  biggest : ∀ f, t.biggestSeg = some f → ∃ h, At a bs f h ∧ h.mPsp = freePsp

theorem Seen.append {size a : ℕ} {bs : List Mcb} {t : Search} (h : Seen size a bs t)
    (cs : List Mcb) : Seen size a (bs ++ cs) t where
  found f hf := (h.found f hf).imp fun _ hk => ⟨at_append.mpr (Or.inl hk.1), hk.2⟩
  biggest f hf := (h.biggest f hf).imp fun _ hk => ⟨at_append.mpr (Or.inl hk.1), hk.2⟩

/-- The rule set at a free block `b`, after the blocks `pre`. -/
theorem tryBlock_spec {size : ℕ} (mode : UInt16) {a : ℕ} {pre : List Mcb} {s : Search} {b : Mcb}
    (h : Seen size a pre s) (hb : s.mem (a + total pre) = b) (hfree : b.mPsp = freePsp) :
    (∃ t, tryBlock size mode (a + total pre) s = .next t ∧ t.mem = s.mem ∧
      Seen size a (pre ++ [b]) t) ∨
    (∃ t, tryBlock size mode (a + total pre) s = .stopIt t ∧ t.mem = s.mem ∧
      t.foundSeg = some (a + total pre) ∧ size ≤ b.mSize) := by
  have hat : At a (pre ++ [b]) (a + total pre) b := ⟨pre, [], rfl, rfl⟩
  have hnew : ∀ f, f = a + total pre → ∃ h, At a (pre ++ [b]) f h ∧ h.mPsp = freePsp := by
    rintro f rfl
    exact ⟨b, hat, hfree⟩
  have h' := h.append [b]
  -- the biggest block so far is an old one or this one
  have hbig : ∀ big : Option ℕ, (s.biggestSeg = none → big = some (a + total pre)) →
      (∀ g, s.biggestSeg = some g →
        big = if (s.mem g).mSize < b.mSize then some (a + total pre) else some g) →
      ∀ f, big = some f → ∃ h, At a (pre ++ [b]) f h ∧ h.mPsp = freePsp := by
    intro big hnone hsome f hf
    cases hg : s.biggestSeg with
    | none =>
      rw [hnone hg] at hf
      cases hf
      exact hnew _ rfl
    | some g =>
      rw [hsome g hg] at hf
      split at hf <;> cases hf
      · exact hnew _ rfl
      · exact h'.biggest _ hg
  rw [tryBlock, hb]
  simp only
  split
  · exact Or.inl ⟨_, rfl, rfl, h'.found, hbig _ (fun hn => by rw [hn]) fun g hg => by rw [hg]⟩
  · rename_i hsize
    rw [not_lt] at hsize
    have hself : ∃ h, At a (pre ++ [b]) (a + total pre) h ∧ h.mPsp = freePsp ∧ size ≤ h.mSize :=
      ⟨b, hat, hfree, hsize⟩
    split
    · exact Or.inl ⟨_, rfl, rfl, h'.found, hbig _ (fun hn => by rw [hn]) fun g hg => by rw [hg]⟩
    · split
      · refine Or.inl ⟨_, rfl, rfl, fun f hf => ?_, hbig _ (fun hn => by rw [hn]) fun g hg => by rw [hg]⟩
        simp only at hf
        split at hf
        · cases hf; exact hself
        · rename_i g hg
          split at hf <;> cases hf
          · exact hself
          · exact h'.found _ hg
      · split
        · exact Or.inr ⟨_, rfl, rfl, rfl, hsize⟩
        · exact Or.inl ⟨_, rfl, rfl, fun f hf => by cases hf; exact hself,
            hbig _ (fun hn => by rw [hn]) fun g hg => by rw [hg]⟩

/-- Nothing is the target of a search. -/
def noTarget : ℕ → UInt16 → Prop := fun _ _ => False

/-- What a search makes of the chain `bs`: still a chain, which keeps the allocated blocks and
has a block at `x`, where the search began. -/
structure Scanned (a e x : ℕ) (bs : List Mcb) (mem : Mem) (bs' : List Mcb) : Prop where
  tiled : Tiled mem a bs' e
  keeps : Keeps noTarget a bs bs'
  start : ∃ h, At a bs' x h

theorem Scanned.of_keeps {a e x : ℕ} {bs cs bs' : List Mcb} {mem : Mem}
    (h : Scanned a e x cs mem bs') (hk : Keeps noTarget a bs cs) : Scanned a e x bs mem bs' :=
  ⟨h.tiled, hk.trans h.keeps, h.start⟩

/-- What a search over the chain `bs` ends with; its variables point to free blocks. -/
def Searched (size a e x : ℕ) (bs : List Mcb) : Progress → Prop
  | .destroyed mem => ∃ bs', Scanned a e x bs mem bs'
  | .stopIt t => ∃ bs', Scanned a e x bs t.mem bs' ∧
      ∃ f h, t.foundSeg = some f ∧ At a bs' f h ∧ h.mPsp = freePsp ∧ size ≤ h.mSize
  | .next t => ∃ bs', Scanned a e x bs t.mem bs' ∧ Seen size a bs' t

theorem Searched.of_keeps {size a e x : ℕ} {bs cs : List Mcb} {p : Progress}
    (h : Searched size a e x cs p) (hk : Keeps noTarget a bs cs) : Searched size a e x bs p := by
  cases p with
  | destroyed => exact h.imp fun _ h => h.of_keeps hk
  | stopIt => exact h.imp fun _ h => ⟨h.1.of_keeps hk, h.2⟩
  | next => exact h.imp fun _ h => ⟨h.1.of_keeps hk, h.2⟩

/-- One round of the search: it ends the search, or goes on with the chain after the block. -/
theorem visit_spec (size : ℕ) (mode : UInt16) {a e x : ℕ} {pre suf : List Mcb} {b : Mcb}
    {s : Search} (h : Tiled s.mem a (pre ++ b :: suf) e) (he : e ≤ 2 ^ 16)
    (hs : Seen size a pre s) (hx : ∃ h, At a (pre ++ [b]) x h) :
    ∃ p, visit size mode (a + total pre) s = some p ∧
      match p with
      | .next t => ∃ b' suf', Tiled t.mem a (pre ++ b' :: suf') e ∧
          Keeps noTarget a (pre ++ b :: suf) (pre ++ b' :: suf') ∧
          Seen size a (pre ++ [b']) t ∧ suf'.length ≤ suf.length ∧ ∃ h, At a (pre ++ [b']) x h
      | p => Searched size a e x (pre ++ b :: suf) p := by
  -- the block where the search began is still one, whatever comes in the place of `b`
  have hstart : ∀ b', ∃ h, At a (pre ++ [b']) x h := by
    intro b'
    obtain ⟨k, hk⟩ := hx
    rcases at_append.mp hk with hk | hk
    · exact ⟨k, at_append.mpr (Or.inl hk)⟩
    · rcases at_cons.mp hk with ⟨rfl, -⟩ | ⟨r, t, hr, -⟩
      · exact ⟨b', pre, [], rfl, rfl⟩
      · simp at hr
  have hstart' : ∀ b' suf', ∃ h, At a (pre ++ b' :: suf') x h := by
    intro b' suf'
    obtain ⟨k, hk⟩ := hstart b'
    have := (at_append : At a ((pre ++ [b']) ++ suf') x k ↔ _).mpr (Or.inl hk)
    exact ⟨k, by simpa using this⟩
  rw [visit, mem_block h]
  split
  · exact ⟨_, rfl, _, h, Keeps.refl _ _ _, hstart' _ _⟩
  · split
    · exact ⟨_, rfl, b, suf, h, Keeps.refl _ _ _, hs.append [b], Nat.le_refl _, hx⟩
    · rename_i hfree
      have hfree : b.mPsp = freePsp := by simpa [mcbFree] using hfree
      obtain ⟨rc, mem', b', suf', heq, hj⟩ := joinMCBs_spec h he
      have hk := hj.keeps noTarget (Or.inl hfree)
      rw [heq]
      simp only
      split
      · exact ⟨_, rfl, _, hj.tiled, hk, hstart' _ _⟩
      · rcases tryBlock_spec mode (s := { s with mem := mem' }) ⟨hs.found, hs.biggest⟩
          (mem_block hj.tiled) (hj.psp.trans hfree) with ⟨t, ht, hm, hseen⟩ | ⟨t, ht, hm, hf, hle⟩
        · exact ⟨_, congrArg some ht, b', suf', by rw [hm]; exact hj.tiled, hk, hseen, hj.length,
            hstart b'⟩
        · exact ⟨_, congrArg some ht, _, ⟨by rw [hm]; exact hj.tiled, hk, hstart' _ _⟩, _, b', hf,
            ⟨pre, suf', rfl, rfl⟩, hj.psp.trans hfree, hle⟩

/-- **What the search does.**  It ends, and joins only free blocks on its way. -/
theorem search_spec (size : ℕ) (mode : UInt16) (fuel : ℕ) {a e x : ℕ} {pre suf : List Mcb}
    {b : Mcb} {s : Search} (h : Tiled s.mem a (pre ++ b :: suf) e) (he : e ≤ 2 ^ 16)
    (hs : Seen size a pre s) (hx : ∃ h, At a (pre ++ [b]) x h) (hf : suf.length < fuel) :
    ∃ p, search size mode fuel (a + total pre) s = some p ∧
      Searched size a e x (pre ++ b :: suf) p := by
  induction fuel generalizing pre b suf s with
  | zero => exact absurd hf (Nat.not_lt_zero _)
  | succ fuel ih =>
    obtain ⟨p, hp, hspec⟩ := visit_spec size mode h he hs hx
    rw [search, hp]
    cases p with
    | destroyed mem => exact ⟨_, rfl, hspec⟩
    | stopIt t => exact ⟨_, rfl, hspec⟩
    | next t =>
      obtain ⟨b', suf', ht, hk, hseen, hlen, hstart⟩ := hspec
      simp only
      split
      · rename_i hlast
        rw [mem_block ht] at hlast
        rcases block_type ht with ⟨rfl, -⟩ | ⟨-, hmore⟩
        · exact ⟨_, rfl, _, ⟨ht, hk, hstart⟩, hseen⟩
        · rw [hlast] at hmore; exact absurd hmore (by decide)
      · rename_i hlast
        rw [mem_block ht] at hlast
        rcases block_type ht with ⟨-, hl⟩ | ⟨hne, -⟩
        · exact absurd hl hlast
        · obtain ⟨c, cs, rfl⟩ := List.exists_cons_of_ne_nil hne
          rw [nxtMCB_eq ht he hne]
          have ht' : Tiled t.mem a ((pre ++ [b']) ++ c :: cs) e := by simpa using ht
          obtain ⟨p, hp, hsp⟩ := ih ht' hseen
            (hstart.imp fun _ hk => at_append.mpr (Or.inl hk))
            (by simp only [List.length_cons] at hlen; omega)
          refine ⟨p, hp, Searched.of_keeps (by simpa using hsp) ?_⟩
          simpa using hk

/-! ## Rewriting and splitting one block -/

section Block

variable {mem mem' : Mem} {a e : ℕ} {pre suf : List Mcb} {b b' b₁ b₂ : Mcb}

/-- A block gets another owner. -/
theorem retag_spec (h : Tiled mem a (pre ++ b :: suf) e) (hb : mem' (a + total pre) = b')
    (hsize : b'.mSize = b.mSize) (htype : b'.mType = b.mType)
    (hmem : ∀ x, x ≠ a + total pre → mem' x = mem x) :
    Tiled mem' a (pre ++ b' :: suf) e ∧
      ∀ T : ℕ → UInt16 → Prop, b.mPsp = freePsp ∨ T (a + total pre) b.mPsp →
        Keeps T a (pre ++ b :: suf) (pre ++ b' :: suf) := by
  have htotal : total [b'] = total [b] := by simp only [total, size_mcb, hsize]
  refine ⟨Tiled.replace [b] [b'] h htotal (fun hE => ?_) ⟨hb, trivial⟩
    (fun x hx => hmem x ?_) (by simp), fun T hT =>
      Keeps.replace [b] [b'] htotal fun x k hk => ?_⟩
  · cases suf with
    | nil => exact htype.trans hE
    | cons c cs => exact ⟨htype.trans hE.1, hE.2⟩
  · simp only [total, size_mcb] at hx
    omega
  · rcases at_cons.mp hk with ⟨rfl, rfl⟩ | ⟨r, t, hr, -⟩
    · exact hT
    · simp at hr

/-- A block is split in two; the second one gets its type. -/
theorem split_spec (h : Tiled mem a (pre ++ b :: suf) e) (h₁ : mem' (a + total pre) = b₁)
    (h₂ : mem' (a + total pre + (b₁.mSize + 1)) = b₂)
    (hsize : b₁.mSize + (b₂.mSize + 1) = b.mSize) (ht₁ : b₁.mType = mcbNormal)
    (ht₂ : b₂.mType = b.mType)
    (hmem : ∀ x, x ≠ a + total pre → x ≠ a + total pre + (b₁.mSize + 1) → mem' x = mem x) :
    Tiled mem' a (pre ++ b₁ :: b₂ :: suf) e ∧
      ∀ T : ℕ → UInt16 → Prop, b.mPsp = freePsp ∨ T (a + total pre) b.mPsp →
        Keeps T a (pre ++ b :: suf) (pre ++ b₁ :: b₂ :: suf) := by
  have htotal : total [b₁, b₂] = total [b] := by simp only [total, size_mcb]; omega
  refine ⟨Tiled.replace [b] [b₁, b₂] h htotal (fun hE => ⟨ht₁, ?_⟩)
    ⟨h₁, h₂, trivial⟩ (fun x hx => hmem x ?_ ?_) (by simp), fun T hT =>
      Keeps.replace [b] [b₁, b₂] htotal fun x k hk => ?_⟩
  · cases suf with
    | nil => exact ht₂.trans hE
    | cons c cs => exact ⟨ht₂.trans hE.1, hE.2⟩
  · simp only [total, size_mcb] at hx
    omega
  · simp only [total, size_mcb] at hx
    omega
  · rcases at_cons.mp hk with ⟨rfl, rfl⟩ | ⟨r, t, hr, -⟩
    · exact hT
    · simp at hr

end Block

theorem sub16_eq {m n : ℕ} (hm : m < 2 ^ 16) (hn : n ≤ m) : sub16 m n = m - n := by
  rw [sub16]
  omega

/-- The memory after a block has been allocated from the end of the block `b` at `p`. -/
theorem carve_last {mem : Mem} {size p : ℕ} {b : Mcb} {mode : UInt16} (cuPsp : UInt16)
    (hb : mem p = b) (hp : p + (b.mSize + 1) ≤ 2 ^ 16) (hlt : size < b.mSize)
    (hmode : mode = lastFit ∨ mode = lastFitUo ∨ mode = lastFitU) (x : ℕ) :
    (carve mem size mode cuPsp p).2 x =
      if x = p + (b.mSize - (size + 1) + 1) then
        { mem x with
          mType := b.mType, mSize := size, mPsp := cuPsp, mName := (mem x).mName.set 0 0 }
      else if x = p then
        { b with mType := mcbNormal, mSize := b.mSize - (size + 1), mPsp := freePsp }
      else mem x := by
  have hrest : sub16 b.mSize (size + 1) = b.mSize - (size + 1) := sub16_eq (by omega) (by omega)
  have hq : nxtMCBsize p (b.mSize - (size + 1)) = p + (b.mSize - (size + 1) + 1) :=
    Nat.mod_eq_of_lt (by omega)
  have hne : p ≠ p + (b.mSize - (size + 1) + 1) := by omega
  have hlarge : mode ≠ largest := by
    rintro rfl
    rcases hmode with h | h | h <;> exact absurd h (by decide)
  rw [carve, hb, if_pos ⟨hlarge, hlt.ne⟩, if_pos hmode]
  simp only [nxtMCB, modify_apply, if_true, hb, hrest, hq, hne, hne.symm, if_false]
  split
  · rename_i hx
    simp [hx]
  · split <;> simp_all

/-- The memory after a block has been allocated from the beginning of the block `b` at `p`. -/
theorem carve_first {mem : Mem} {size p : ℕ} {b : Mcb} {mode : UInt16} (cuPsp : UInt16)
    (hb : mem p = b) (hp : p + (b.mSize + 1) ≤ 2 ^ 16) (hlt : size < b.mSize)
    (hlarge : mode ≠ largest) (hmode : ¬ (mode = lastFit ∨ mode = lastFitUo ∨ mode = lastFitU))
    (x : ℕ) :
    (carve mem size mode cuPsp p).2 x =
      if x = p then
        { b with mType := mcbNormal, mSize := size, mPsp := cuPsp, mName := b.mName.set 0 0 }
      else if x = p + (size + 1) then
        { mem x with mType := b.mType, mSize := b.mSize - (size + 1), mPsp := freePsp }
      else mem x := by
  have hrest : sub16 b.mSize (size + 1) = b.mSize - (size + 1) := sub16_eq (by omega) (by omega)
  have hq : nxtMCBsize p size = p + (size + 1) := Nat.mod_eq_of_lt (by omega)
  have hne : p ≠ p + (size + 1) := by omega
  rw [carve, hb, if_pos ⟨hlarge, hlt.ne⟩, if_neg hmode]
  simp only [modify_apply, if_true, hb, hrest, hq, hne, hne.symm, if_false]
  split
  · simp
  · split <;> simp_all

/-- **What the carving of a found block does**: it takes the block, or an end of it. -/
theorem carve_spec {mem : Mem} {a e size : ℕ} {pre suf : List Mcb} {b : Mcb} (mode cuPsp : UInt16)
    (h : Tiled mem a (pre ++ b :: suf) e) (he : e ≤ 2 ^ 16) (hfree : b.mPsp = freePsp)
    (hsize : size ≤ b.mSize) :
    ∃ bs', Tiled (carve mem size mode cuPsp (a + total pre)).2 a bs' e ∧
      Keeps noTarget a (pre ++ b :: suf) bs' := by
  have hb := mem_block h
  have hend := block_end h
  have hT : b.mPsp = freePsp ∨ noTarget (a + total pre) b.mPsp := Or.inl hfree
  by_cases hsplit : mode ≠ largest ∧ size ≠ b.mSize
  · have hlt : size < b.mSize := lt_of_le_of_ne hsize hsplit.2
    by_cases hlast : mode = lastFit ∨ mode = lastFitUo ∨ mode = lastFitU
    · have happ := carve_last cuPsp hb (by omega) hlt hlast
      have hne : a + total pre ≠ a + total pre + (b.mSize - (size + 1) + 1) := by omega
      have := split_spec h ((happ _).trans ((if_neg hne).trans (if_pos rfl)))
        ((happ _).trans (if_pos rfl)) (by simp only; omega) rfl rfl
        fun x hx hx' => (happ x).trans ((if_neg hx').trans (if_neg hx))
      exact ⟨_, this.1, this.2 _ hT⟩
    · have happ := carve_first cuPsp hb (by omega) hlt hsplit.1 hlast
      have hne : a + total pre + (size + 1) ≠ a + total pre := by omega
      have := split_spec h ((happ _).trans (if_pos rfl))
        ((happ _).trans ((if_neg hne).trans (if_pos rfl))) (by simp only; omega) rfl rfl
        fun x hx hx' => (happ x).trans ((if_neg hx).trans (if_neg hx'))
      exact ⟨_, this.1, this.2 _ hT⟩
  · rw [carve, hb, if_neg hsplit]
    have hmem := fun x => modify_apply mem (a + total pre) x fun m =>
      { m with mPsp := cuPsp, mName := m.mName.set 0 0 }
    have := retag_spec h ((hmem _).trans (if_pos rfl)) (by simp only [hb]) (by simp only [hb])
      fun x hx => (hmem x).trans (if_neg hx)
    exact ⟨_, this.1, this.2 _ hT⟩

end Memory
end BurdahDos
