import BurdahDos.Memory.Release
import BurdahDos.Memory.Starts
import Mathlib

/-!
# The link of upper memory

Low memory ends where upper memory begins, at `uppermem_root`, and `DosUmbLink` makes one chain of
the two or cuts it there again.  Whether it is one chain is recorded twice, by `uppermem_link` and
by the type of the last low block.

`Parts` is what keeps the two records together: there is a block at `uppermem_root` as long as upper
memory is linked in.  Every operation keeps it but those that join this block to the one before, for
which it must have been freed (`told_run`).
-/

set_option autoImplicit false

namespace BurdahDos
namespace Memory

open Tiling

variable {s s' : State} {mem : Mem} {a e x : ℕ} {bs pre suf : List Mcb} {b : Mcb}

/-! ## Following a chain -/

/-- The next header. -/
def NextMcb (mem : Mem) (p q : ℕ) : Prop := (mem p).mType = mcbNormal ∧ nxtMCB mem p = q

/-- Following the headers from `p` on leads to `q`. -/
def Reaches (mem : Mem) (p q : ℕ) : Prop := Relation.ReflTransGen (NextMcb mem) p q

theorem Reaches.at (h : Tiled mem a bs e) (he : e ≤ 2 ^ 16) (hx : Reaches mem a x) :
    ∃ k, At a bs x k := by
  induction hx with
  | refl => exact at_first h
  | tail _ hnext ih =>
    obtain ⟨htype, rfl⟩ := hnext
    obtain ⟨c, hc⟩ := h.next not_last_of_more ih htype
    have hbounds := hc.bounds
    have hfills := h.fills
    rw [nxtMCB, nxtMCBsize, Nat.mod_eq_of_lt (by rw [size_mcb] at hbounds; omega)]
    exact ⟨c, hc⟩

theorem reaches_block (h : Tiled mem a (pre ++ b :: suf) e) (he : e ≤ 2 ^ 16) :
    Reaches mem a (a + total pre) := by
  induction pre using List.reverseRecOn generalizing b suf with
  | nil => exact .refl
  | append_singleton pre c ih =>
    have h' : Tiled mem a (pre ++ c :: (b :: suf)) e := by simpa using h
    have hne : b :: suf ≠ [] := List.cons_ne_nil b suf
    refine (ih h').tail ⟨?_, nxtMCB_eq h' he hne⟩
    rw [mem_block h']
    rcases block_type h' with ⟨hnil, -⟩ | ⟨-, htype⟩
    · exact absurd hnil hne
    · exact htype

theorem reaches_iff (h : Tiled mem a bs e) (he : e ≤ 2 ^ 16) :
    Reaches mem a x ↔ ∃ k, At a bs x k := by
  refine ⟨Reaches.at h he, ?_⟩
  rintro ⟨k, pre, suf, rfl, rfl⟩
  exact reaches_block h he

/-! ## Two chains or one -/

/-- Low memory from `first_mcb` up to `uppermem_root`, and upper memory from there up to `e`: two
chains, or one with a block at `uppermem_root`. -/
structure Parts (e : ℕ) (s : State) : Prop where
  first : 0 < s.firstMcb
  below : s.firstMcb < s.uppermemRoot
  upper : s.uppermemRoot ≠ 0xffff
  fits : e ≤ 2 ^ 16
  chains : s.uppermemLink = 0 ∧
      (∃ low, Tiled s.mem s.firstMcb low s.uppermemRoot) ∧ (∃ up, Tiled s.mem s.uppermemRoot up e) ∨
    s.uppermemLink = 1 ∧ ∃ bs, Tiled s.mem s.firstMcb bs e ∧ ∃ k, At s.firstMcb bs s.uppermemRoot k

theorem Parts.low_fits (h : Parts e s) : s.uppermemRoot ≤ e := by
  rcases h.chains with ⟨-, -, up, hup⟩ | ⟨-, bs, hbs, k, hk⟩
  · have := hup.fills
    omega
  · have := hk.bounds
    have := hbs.fills
    omega

/-- What is said of the two parts: upper memory is linked in exactly if it is reached from
`first_mcb`; else low memory is a chain that ends before it, and in either case upper memory is
one. -/
structure Told (e : ℕ) (s : State) : Prop where
  link : s.uppermemLink = 1 ↔ Reaches s.mem s.firstMcb s.uppermemRoot
  low : s.uppermemLink ≠ 1 → ∃ low, Tiled s.mem s.firstMcb low s.uppermemRoot
  upper : ∃ up, Tiled s.mem s.uppermemRoot up e

/-- The rest of a chain from a block on. -/
theorem tiled_rest (h : Tiled mem a bs e) (hx : ∃ k, At a bs x k) : ∃ cs, Tiled mem x cs e := by
  obtain ⟨k, pre, suf, rfl, rfl⟩ := hx
  refine ⟨k :: suf, (linked_append.mp h.linked).2, ?_, ?_⟩
  · exact ((ended_append (List.cons_ne_nil k suf)).mp h.ended).2
  · have := h.fills
    rwa [total_append, ← Nat.add_assoc] at this

theorem Parts.told (h : Parts e s) : Told e s := by
  have hle := h.low_fits
  have hfits := h.fits
  rcases h.chains with ⟨hlink, ⟨low, hlow⟩, hup⟩ | ⟨hlink, bs, hbs, hat⟩
  · refine ⟨⟨fun h1 => ?_, fun hreach => ?_⟩, fun _ => ⟨low, hlow⟩, hup⟩
    · rw [hlink] at h1
      exact absurd h1 (by decide)
    · -- the chain of low memory ends before
      obtain ⟨k, hk⟩ := Reaches.at hlow (by omega) hreach
      have := hk.bounds
      have := hlow.fills
      omega
  · exact ⟨iff_of_true hlink ((reaches_iff hbs hfits).mpr hat), fun h1 => absurd hlink h1,
      tiled_rest hbs hat⟩

/-! ## Linking -/

/-- `DosUmbLink` has changed the type of the block before `uppermem_root`, and the variable. -/
def OnlyLinks (s s' : State) : Prop :=
  ∃ q t, Reaches s.mem s.firstMcb q ∧ nxtMCB s.mem q = s.uppermemRoot ∧
    s' = { s with
      mem := s.mem.modify q fun m => { m with mType := t }
      uppermemLink := s'.uppermemLink }

/-- The block before `uppermem_root`. -/
theorem Parts.before (h : Parts e s) :
    ∃ q, Reaches s.mem s.firstMcb q ∧ nxtMCB s.mem q = s.uppermemRoot := by
  have hle := h.low_fits
  have hfits := h.fits
  have hbelow := h.below
  have hupper := h.upper
  rcases h.chains with ⟨-, ⟨low, hlow⟩, up, hup⟩ | ⟨-, bs, hbs, k, pre, suf, rfl, hroot⟩
  · obtain ⟨pre, z, rfl⟩ := (List.eq_nil_or_concat' low).resolve_left hlow.ended.ne_nil
    have hend := block_end hlow
    have hpos := length_le_total up
    have hup' := List.length_pos_iff.mpr hup.ended.ne_nil
    have hfills := hup.fills
    refine ⟨s.firstMcb + total pre, reaches_block hlow (by omega), ?_⟩
    simp only [total] at hend
    rw [nxtMCB, nxtMCBsize, mem_block hlow, Nat.mod_eq_of_lt (by omega)]
    omega
  · obtain ⟨pre, z, rfl⟩ := (List.eq_nil_or_concat' pre).resolve_left fun h0 => by
      rw [h0, total] at hroot
      omega
    have h' : Tiled s.mem s.firstMcb (pre ++ z :: k :: suf) e := by simpa using hbs
    refine ⟨s.firstMcb + total pre, reaches_block h' hfits, ?_⟩
    rw [nxtMCB_eq h' hfits (List.cons_ne_nil k suf), hroot]

theorem Parts.onlyLinks (h : Parts e s) : OnlyLinks s s := by
  obtain ⟨q, hq, hnext⟩ := h.before
  refine ⟨q, (s.mem q).mType, hq, hnext, ?_⟩
  have hmem : (s.mem.modify q fun m => { m with mType := (s.mem q).mType }) = s.mem := by
    funext x
    rw [modify_apply]
    split
    · rename_i hx
      rw [hx]
    · rfl
  rw [hmem]

/-- The chain is cut before the block `c`. -/
theorem unlinked_tiled {c : Mcb} (h : Tiled mem a (pre ++ b :: c :: suf) e) :
    Tiled (mem.modify (a + total pre) fun m => { m with mType := mcbLast }) a
        (pre ++ [{ b with mType := mcbLast }]) (a + total (pre ++ [b])) ∧
      Tiled (mem.modify (a + total pre) fun m => { m with mType := mcbLast })
        (a + total (pre ++ [b])) (c :: suf) e := by
  have hmem := fun x => modify_apply mem (a + total pre) x fun m => { m with mType := mcbLast }
  have htotal : a + total (pre ++ [b]) = a + total pre + (b.mSize + 1) := by
    simp only [total_append, total, size_mcb]
    omega
  obtain ⟨hl, hb, hl'⟩ := linked_append.mp h.linked
  have hended := (ended_append (List.cons_ne_nil b (c :: suf))).mp h.ended
  refine ⟨⟨linked_append.mpr ⟨hl.congr fun x _ hx => ?_, ?_, trivial⟩, ?_, ?_⟩, ?_, hended.2.2, ?_⟩
  · rw [hmem, if_neg (by omega)]
  · rw [hmem, if_pos rfl, hb]
  · exact (ended_append (List.cons_ne_nil _ _)).mpr ⟨hended.1, rfl⟩
  · simp only [total_append, total, size_mcb]
  · rw [htotal]
    exact hl'.congr fun x hx _ => by rw [hmem, if_neg (by rw [size_mcb] at hx; omega)]
  · rw [htotal]
    exact block_end h

theorem Parts.umbLink (h : Parts e s) (n : ℕ) :
    ∃ s', dosUmbLink s n = some s' ∧ Parts e s' ∧ OnlyLinks s s' := by
  have hfits := h.fits
  by_cases hidle : n > 1 ∨ s.uppermemLink &&& 1 = n
  · refine ⟨s, ?_, h, h.onlyLinks⟩
    rw [dosUmbLink, if_neg h.upper, if_pos hidle]
  · rw [not_or, Nat.not_lt] at hidle
    rcases h.chains with ⟨hlink, ⟨low, hlow⟩, up, hup⟩ | ⟨hlink, bs, hbs, k, pre, suf, rfl, hroot⟩
    · obtain rfl : n = 1 := by
        have : n ≠ 0 := fun h0 => hidle.2 (by rw [hlink, h0]; rfl)
        omega
      obtain ⟨pre, z, rfl⟩ := (List.eq_nil_or_concat' low).resolve_left hlow.ended.ne_nil
      have hend := block_end hlow
      have hle := h.low_fits
      simp only [total] at hend
      refine ⟨_, dosUmbLink_one h.upper (by rw [hlink]; rfl) hlow hup hfits,
        ⟨h.first, h.below, h.upper, hfits, Or.inr ⟨rfl, _, linked_tiled hlow hup, ?_⟩⟩, ?_⟩
      · obtain ⟨u, us, rfl⟩ := List.exists_cons_of_ne_nil hup.ended.ne_nil
        refine ⟨u, pre ++ [{ z with mType := mcbNormal }], us, by simp, ?_⟩
        simp only [total_append, total, size_mcb]
        omega
      · have hpos := length_le_total up
        have hne := List.length_pos_iff.mpr hup.ended.ne_nil
        have hfills := hup.fills
        refine ⟨s.firstMcb + total pre, mcbNormal, reaches_block hlow (by omega), ?_, rfl⟩
        rw [nxtMCB, nxtMCBsize, mem_block hlow, Nat.mod_eq_of_lt (by omega)]
        omega
    · obtain rfl : n = 0 := by
        have : n ≠ 1 := fun h1 => hidle.2 (by rw [hlink, h1]; rfl)
        omega
      have hbelow := h.below
      obtain ⟨pre, z, rfl⟩ := (List.eq_nil_or_concat' pre).resolve_left fun h0 => by
        rw [h0, total] at hroot
        omega
      have h' : Tiled s.mem s.firstMcb (pre ++ z :: k :: suf) e := by simpa using hbs
      obtain ⟨hlow, hup⟩ := unlinked_tiled h'
      rw [← hroot] at hlow hup
      exact ⟨_, dosUmbLink_zero h.upper hlink h' hfits hroot.symm,
        ⟨h.first, h.below, h.upper, hfits, Or.inl ⟨rfl, ⟨_, hlow⟩, _, hup⟩⟩,
        s.firstMcb + total pre, mcbLast, reaches_block h' hfits,
        by rw [nxtMCB_eq h' hfits (List.cons_ne_nil k suf), hroot], rfl⟩

/-! ## Freeing -/

/-- Owners and names do not matter. -/
theorem Parts.freed {ps : UInt16} (h : Parts e s) (hf : Freed ps s.mem mem) :
    Parts e { s with mem := mem } := by
  have hrewrite : ∀ {a e bs}, Tiled s.mem a bs e →
      ∃ bs', Tiled mem a bs' e ∧ ∀ x b, At a bs x b → At a bs' x (mem x) := fun ht =>
    ht.rewrite hf.size (fun x hx => (hf.type x).trans hx) fun x hx => (hf.type x).trans hx
  refine ⟨h.first, h.below, h.upper, h.fits, ?_⟩
  rcases h.chains with ⟨hlink, ⟨low, hlow⟩, up, hup⟩ | ⟨hlink, bs, hbs, k, hk⟩
  · obtain ⟨low', hlow', -⟩ := hrewrite hlow
    obtain ⟨up', hup', -⟩ := hrewrite hup
    exact Or.inl ⟨hlink, ⟨low', hlow'⟩, up', hup'⟩
  · obtain ⟨bs', hbs', hat⟩ := hrewrite hbs
    exact Or.inr ⟨hlink, bs', hbs', _, hat _ _ hk⟩

theorem Parts.memFree (h : Parts e s) (para : ℕ) :
    ∃ mem, (dosMemFree s para).2 = { s with mem := mem } ∧ Parts e { s with mem := mem } := by
  obtain ⟨mem, hmem, hf⟩ := @dosMemFree_freed _ s para rfl
  exact ⟨mem, hmem, h.freed hf⟩

/-- `FreeProcessMem` when upper memory is linked in. -/
theorem freeProcessMem_linked (h : Arena s bs e) (hlink : s.uppermemLink = 1) (ps : UInt16) :
    ∃ rc mem, freeProcessMem s ps = some (rc, { s with mem := mem }) ∧ Freed ps s.mem mem := by
  have hapart : ¬ Apart s := fun h0 => absurd (hlink ▸ h0.2) (by decide)
  obtain ⟨b, suf, rfl⟩ := List.exists_cons_of_ne_nil h.tiled.ended.ne_nil
  have h' : Arena s ([] ++ b :: suf) e := h
  obtain ⟨done, mem, hloop, hfreed, -⟩ := freeLoop_spec ps chainFuel h' (by
    have := block_end h'.tiled
    have := h.fits
    rw [chainFuel]
    omega)
  simp only [total, Nat.add_zero] at hloop
  rw [freeProcessMem, dosUmbLink_idle hapart s.mem (Or.inl rfl)]
  simp only [hloop]
  cases done with
  | false => exact ⟨_, mem, rfl, hfreed⟩
  | true =>
    simp only [dosUmbLink_idle hapart _ (Or.inr rfl)]
    exact ⟨_, mem, rfl, hfreed⟩

theorem Parts.freeProcessMem (h : Parts e s) (ps : UInt16) :
    ∃ rc mem, freeProcessMem s ps = some (rc, { s with mem := mem }) ∧
      Parts e { s with mem := mem } := by
  rcases h.chains with ⟨hlink, ⟨low, hlow⟩, up, hup⟩ | ⟨hlink, bs, hbs, -⟩
  · obtain ⟨pre, z, rfl⟩ := (List.eq_nil_or_concat' low).resolve_left hlow.ended.ne_nil
    obtain ⟨mem, hmem, hf⟩ :=
      freeProcessMem_linking h.upper (by rw [hlink]; rfl) hlow hup h.fits ps
    have hparts := h.freed hf
    rw [← hlink] at hmem
    exact ⟨_, mem, hmem, hparts⟩
  · obtain ⟨rc, mem, hmem, hf⟩ := freeProcessMem_linked ⟨hbs, h.fits⟩ hlink ps
    exact ⟨rc, mem, hmem, h.freed hf⟩

/-! ## Allocating and resizing -/

theorem Parts.memAlloc (h : Parts e s)
    (hcross : ∀ bs e', Arena s bs e' → ¬ Follows s.uppermemRoot s.firstMcb bs) (size : ℕ)
    (mode : UInt16) :
    ∃ answer mem, dosMemAlloc s size mode = some (answer, { s with mem := mem }) ∧
      Parts e { s with mem := mem } ∧
      (s.uppermemLink ≠ 1 → (∀ x, s.uppermemRoot ≤ x → mem x = s.mem x) ∧
        ∀ p, answer.para = some p → p + ((mem p).mSize + 1) ≤ s.uppermemRoot) := by
  have hle := h.low_fits
  have hfits := h.fits
  rcases h.chains with ⟨hlink, ⟨low, hlow⟩, up, hup⟩ | ⟨hlink, bs, hbs, hat⟩
  · have harena : Arena s low s.uppermemRoot := ⟨hlow, by omega⟩
    have hupper : s.upperLinked = false := by simp [State.upperLinked, hlink]
    obtain ⟨answer, mem, low', heq, hall⟩ :=
      dosMemAlloc_allocated harena h.first (fun h0 => by
        rw [hupper] at h0
        exact (nomatch h0)) size mode
    refine ⟨answer, mem, heq, ⟨h.first, h.below, h.upper, hfits, Or.inl ⟨hlink, ⟨low', hall.tiled⟩,
      up, hall.outside.tiled_high hup⟩⟩, fun _ => ⟨fun x hx => hall.outside x (Or.inr hx),
        fun p hp => ?_⟩⟩
    obtain ⟨k, hk⟩ := hall.para p hp
    have hbounds := hk.bounds
    rw [hall.tiled.linked.mem_eq hk, ← hall.tiled.fills]
    exact hbounds.2
  · have harena : Arena s bs e := ⟨hbs, hfits⟩
    obtain ⟨answer, mem, bs', heq, hall⟩ :=
      dosMemAlloc_allocated harena h.first (fun _ => ⟨hat, hcross _ _ harena⟩) size mode
    exact ⟨answer, mem, heq, ⟨h.first, h.below, h.upper, hfits, Or.inr ⟨hlink, bs', hall.tiled,
      hall.root_kept hat (hcross _ _ harena)⟩⟩, fun h0 => absurd hlink h0⟩

/-- The block at `p` is one of low memory or of upper memory. -/
def IsPart (s : State) (p : ℕ) : Prop :=
  ∃ a, (a = s.firstMcb ∨ a = s.uppermemRoot) ∧
    ∃ bs e' b, Tiled s.mem a bs e' ∧ e' ≤ 2 ^ 16 ∧ At a bs p b

/-- In the one chain. -/
theorem IsPart.linked {p : ℕ} (hp : IsPart s p) (h : Tiled s.mem s.firstMcb bs e)
    (hroot : ∃ k, At s.firstMcb bs s.uppermemRoot k) : ∃ b, At s.firstMcb bs p b := by
  obtain ⟨a, rfl | rfl, cs, e', b, hcs, -, hb⟩ := hp
  · obtain ⟨rfl, -⟩ := h.unique not_last_of_more hcs
    exact ⟨b, hb⟩
  · obtain ⟨k, pre, suf, rfl, hpos⟩ := hroot
    have hrest : Tiled s.mem s.uppermemRoot (k :: suf) e := by
      rw [hpos]
      have hfills := h.fills
      rw [total_append, ← Nat.add_assoc] at hfills
      exact ⟨(linked_append.mp h.linked).2,
        ((ended_append (List.cons_ne_nil k suf)).mp h.ended).2, hfills⟩
    obtain ⟨rfl, -⟩ := hrest.unique not_last_of_more hcs
    rw [hpos] at hb
    exact ⟨b, at_append.mpr (Or.inr hb)⟩

theorem Parts.memChange {para : ℕ} (h : Parts e s) (hpart : IsPart s (sub16 para 1))
    (hclear : ∀ pre b suf e', Arena s (pre ++ b :: suf) e' →
      sub16 para 1 = s.firstMcb + total pre → Clear s.uppermemRoot s.firstMcb pre b suf)
    (size : ℕ) :
    ∃ answer mem, dosMemChange s para size = some (answer, { s with mem := mem }) ∧
      Parts e { s with mem := mem } := by
  have hle := h.low_fits
  have hfits := h.fits
  have hbelow := h.below
  rcases h.chains with ⟨hlink, ⟨low, hlow⟩, up, hup⟩ | ⟨hlink, bs, hbs, hat⟩
  · obtain ⟨a, rfl | rfl, cs, e', b, hcs, -, pre, suf, rfl, hpos⟩ := hpart
    · obtain ⟨rfl, -⟩ := hlow.unique not_last_of_more hcs
      obtain ⟨answer, mem, low', heq, hlow', hout, -⟩ :=
        dosMemChange_chain hlow h.first (by omega) hpos size
      exact ⟨answer, mem, heq, h.first, h.below, h.upper, hfits,
        Or.inl ⟨hlink, ⟨low', hlow'⟩, up, hout.tiled_high hup⟩⟩
    · obtain ⟨rfl, -⟩ := hup.unique not_last_of_more hcs
      obtain ⟨answer, mem, up', heq, hup', hout, -⟩ :=
        dosMemChange_chain hup (by omega) hfits hpos size
      exact ⟨answer, mem, heq, h.first, h.below, h.upper, hfits,
        Or.inl ⟨hlink, ⟨low, hout.tiled_low hlow⟩, up', hup'⟩⟩
  · obtain ⟨b, pre, suf, rfl, hpos⟩ := hpart.linked hbs hat
    obtain ⟨answer, mem, bs', heq, hbs', -, hstarts⟩ :=
      dosMemChange_chain hbs h.first hfits hpos size
    exact ⟨answer, mem, heq, h.first, h.below, h.upper, hfits, Or.inr ⟨hlink, bs', hbs',
      hstarts _ hat (hclear _ _ _ _ ⟨hbs, hfits⟩ hpos)⟩⟩

/-! ## Runs -/

/-- A request to the memory manager, or to link upper memory or not (INT 21h/AX=5803h). -/
inductive Call where
  | request (r : Request)
  | dosUmbLink (n : ℕ)

/-- The state after a call, if the call ends. -/
def perform (s : State) : Call → Option State
  | .request r => exec s r
  | .dosUmbLink n => dosUmbLink s n

/-- `perform`, and no change for a call that does not end. -/
def after (s : State) (c : Call) : State := (perform s c).getD s

/-- `DosMemChange` is called on a block. -/
def Permitted (s : State) : Call → Prop
  | .request (.dosMemChange para _) => IsPart s (sub16 para 1)
  | _ => True

/-- No free blocks are joined across `uppermem_root`: the blocks there and before it are not both
free when a block is looked for, and the one there is not among the free blocks behind the one that
is resized. -/
def Uncrossing (s : State) : Call → Prop
  | .request (.dosMemAlloc _ _) => ∀ bs e', Arena s bs e' → ¬ Follows s.uppermemRoot s.firstMcb bs
  | .request (.dosMemChange para _) => ∀ pre b suf e', Arena s (pre ++ b :: suf) e' →
      sub16 para 1 = s.firstMcb + total pre → Clear s.uppermemRoot s.firstMcb pre b suf
  | _ => True

/-- An allocation writes to no header of upper memory, and gives away a block of low memory. -/
def StaysLow (s : State) (size : ℕ) (mode : UInt16) : Prop :=
  ∀ answer s', dosMemAlloc s size mode = some (answer, s') →
    (∀ x, s.uppermemRoot ≤ x → s'.mem x = s.mem x) ∧
      ∀ p, answer.para = some p → p + ((s'.mem p).mSize + 1) ≤ s.uppermemRoot

/-- What a call does to the two parts: it ends, and they are told apart as before, at the same
place.  Linking only marks the last low block, and an allocation stays in low memory while upper
memory is not linked in. -/
structure InStep (e : ℕ) (s : State) (c : Call) : Prop where
  ends : (perform s c).isSome = true
  first : (after s c).firstMcb = s.firstMcb
  root : (after s c).uppermemRoot = s.uppermemRoot
  told : Told e (after s c)
  links : ∀ n, c = .dosUmbLink n → OnlyLinks s (after s c)
  staysLow : ∀ size mode, c = .request (.dosMemAlloc size mode) → s.uppermemLink ≠ 1 →
    StaysLow s size mode

/-- A call that ends, and neither links nor allocates. -/
theorem Parts.inStep {c : Call} (hp : Parts e s') (hc : perform s c = some s')
    (hfirst : s'.firstMcb = s.firstMcb) (hroot : s'.uppermemRoot = s.uppermemRoot)
    (hlinks : ∀ n, c = .dosUmbLink n → OnlyLinks s s')
    (hlow : ∀ size mode, c = .request (.dosMemAlloc size mode) → s.uppermemLink ≠ 1 →
      StaysLow s size mode) : Parts e (after s c) ∧ InStep e s c := by
  have hafter : after s c = s' := by rw [after, hc]; rfl
  refine ⟨hafter ▸ hp, by rw [hc]; rfl, by rw [hafter, hfirst], by rw [hafter, hroot],
    hafter ▸ hp.told, fun n hn => ?_, hlow⟩
  rw [hafter]
  exact hlinks n hn

theorem Parts.step (h : Parts e s) {c : Call} (hp : Permitted s c) (hc : Uncrossing s c) :
    Parts e (after s c) ∧ InStep e s c := by
  cases c with
  | dosUmbLink n =>
    obtain ⟨s', hs', hparts, hlinks⟩ := h.umbLink n
    obtain ⟨q, t, -, -, heq⟩ := id hlinks
    exact hparts.inStep hs' (by rw [heq]) (by rw [heq]) (fun _ _ => hlinks)
      fun _ _ h0 => (by cases h0)
  | request r =>
    cases r with
    | dosMemAlloc size mode =>
      obtain ⟨answer, mem, heq, hparts, hlow⟩ := h.memAlloc hc size mode
      refine hparts.inStep (by rw [perform, exec, heq]; rfl) rfl rfl (fun _ h0 => (by cases h0)) ?_
      intro size' mode' hsame hlink answer' s' heq'
      obtain ⟨rfl, rfl⟩ : size = size' ∧ mode = mode' := by simpa using hsame
      obtain ⟨rfl, rfl⟩ := Prod.mk.inj (Option.some.inj (heq.symm.trans heq'))
      exact hlow hlink
    | dosMemFree para =>
      obtain ⟨mem, heq, hparts⟩ := h.memFree para
      exact hparts.inStep (by rw [perform, exec, heq]) rfl rfl (fun _ h0 => (by cases h0))
        fun _ _ h0 => (by cases h0)
    | dosMemChange para size =>
      obtain ⟨answer, mem, heq, hparts⟩ := h.memChange hp hc size
      exact hparts.inStep (by rw [perform, exec, heq]; rfl) rfl rfl (fun _ h0 => (by cases h0))
        fun _ _ h0 => (by cases h0)
    | freeProcessMem ps =>
      obtain ⟨rc, mem, heq, hparts⟩ := h.freeProcessMem ps
      exact hparts.inStep (by rw [perform, exec, heq]; rfl) rfl rfl (fun _ h0 => (by cases h0))
        fun _ _ h0 => (by cases h0)
    | setPsp psp =>
      have hparts : Parts e { s with cuPsp := psp } :=
        ⟨h.first, h.below, h.upper, h.fits, h.chains⟩
      exact hparts.inStep rfl rfl rfl (fun _ h0 => (by cases h0)) fun _ _ h0 => (by cases h0)
    | setMemAccessMode mode =>
      have hparts : Parts e { s with memAccessMode := mode } :=
        ⟨h.first, h.below, h.upper, h.fits, h.chains⟩
      exact hparts.inStep rfl rfl rfl (fun _ h0 => (by cases h0)) fun _ _ h0 => (by cases h0)

/-- **The link is told** along every run in which no free blocks are joined across
`uppermem_root`. -/
theorem told_run (h : Parts e s) (calls : List Call)
    (hok : Along after (fun s c => Permitted s c ∧ Uncrossing s c) s calls) :
    Told e s ∧ Along after (InStep e) s calls :=
  ⟨h.told, Along.of_inv (I := Parts e) (fun _ _ hs hc => hs.step hc.1 hc.2) h hok⟩

/-- Nothing is joined across `uppermem_root` while the block there has an owner. -/
theorem uncrossing_of_owned (h : mcbFree (s.mem s.uppermemRoot) = false) (c : Call) :
    Uncrossing s c := by
  have howned : ∀ {k : Mcb}, s.mem s.uppermemRoot = k → ¬ Free k := by
    rintro k rfl hfree
    rw [(mcbFree_iff _).mpr hfree] at h
    exact (nomatch h)
  cases c with
  | dosUmbLink => trivial
  | request r =>
    cases r with
    | dosMemAlloc size mode =>
      rintro bs e' harena ⟨pre, b, c, suf, rfl, -, hfree, hroot⟩
      have hat : At s.firstMcb (pre ++ b :: c :: suf) s.uppermemRoot c :=
        ⟨pre ++ [b], suf, by simp, hroot⟩
      exact howned (harena.tiled.linked.mem_eq hat) hfree
    | dosMemChange para size =>
      rintro pre b suf e' harena - ⟨k, hk⟩
      have hfree : Free k := by
        obtain ⟨l, r, hlr, -⟩ := id hk
        exact free_of_mem_freeRun (hlr ▸ List.mem_append_right _ List.mem_cons_self)
      have hat : At s.firstMcb ((pre ++ [b]) ++ (freeRun suf ++ afterRun suf)) s.uppermemRoot k :=
        at_append.mpr (Or.inr (at_append.mpr (Or.inl hk)))
      rw [freeRun_append, List.append_assoc, List.singleton_append] at hat
      exact howned (harena.tiled.linked.mem_eq hat) hfree
    | _ => trivial

theorem booted_parts : Parts 0xcfff booted where
  first := by decide
  below := by decide
  upper := by decide
  fits := by decide
  chains := Or.inl ⟨rfl,
    ⟨[booted.mem 0x100, booted.mem 0x110], ⟨rfl, rfl, trivial⟩, ⟨rfl, rfl⟩, rfl⟩,
    [booted.mem 0x9fff, booted.mem 0xc800], ⟨rfl, rfl, trivial⟩, ⟨rfl, rfl⟩, rfl⟩

theorem told_run_booted :
    Along after (InStep 0xcfff) booted
      [.dosUmbLink 1, .request (.dosMemAlloc 0x10 firstFit), .dosUmbLink 0] :=
  (told_run booted_parts
    [.dosUmbLink 1, .request (.dosMemAlloc 0x10 firstFit), .dosUmbLink 0]
    ⟨⟨trivial, trivial⟩, ⟨trivial, uncrossing_of_owned (by decide +kernel) _⟩, ⟨trivial, trivial⟩,
      trivial⟩).2

/-- The block at the root is freed and joined while upper memory is linked in; after unlinking, two
allocations put a block there again. -/
def regainRoot : List Call :=
  [.dosUmbLink 1, .request (.dosMemFree 0x9fff), .request (.dosMemAlloc 0x10 firstFit),
    .dosUmbLink 0, .request (.dosMemAlloc 0x9edd firstFit), .request (.dosMemAlloc 0x10 firstFit)]

theorem regainRoot_not_told : ¬ ∀ e s calls, Parts e s → mcbFree (s.mem s.uppermemRoot) = false →
    Along after Permitted s calls →
    mcbFree ((runSteps after s calls).mem (runSteps after s calls).uppermemRoot) = false →
    Told e (runSteps after s calls) := by
  intro h
  have hlink := (h _ _ regainRoot booted_parts (by decide)
    ⟨trivial, trivial, trivial, trivial, trivial, trivial, trivial⟩ (by decide +kernel)).link
  generalize hs : runSteps after booted regainRoot = s at hlink
  have hstate : s.uppermemLink = 0 ∧ s.firstMcb = 0x100 ∧ s.uppermemRoot = 0x9fff := by
    rw [← hs]
    decide +kernel
  have h1 : NextMcb s.mem 0x100 0x110 := by
    rw [← hs]
    exact ⟨by decide +kernel, by decide +kernel⟩
  have h2 : NextMcb s.mem 0x110 0x121 := by
    rw [← hs]
    exact ⟨by decide +kernel, by decide +kernel⟩
  have h3 : NextMcb s.mem 0x121 0x9fff := by
    rw [← hs]
    exact ⟨by decide +kernel, by decide +kernel⟩
  obtain ⟨hunlinked, hfirst, hroot⟩ := hstate
  rw [hunlinked, hfirst, hroot] at hlink
  have hreach : Reaches s.mem 0x100 0x9fff :=
    ((Relation.ReflTransGen.single h1).tail h2).tail h3
  exact absurd (hlink.mpr hreach) (by decide)

end Memory
end BurdahDos
