import BurdahDos.Memory.Arena
import Mathlib

/-!
# The end of a process

`FreeProcessMem` links upper memory in, walks along the chain and frees the blocks of the process,
and puts upper memory back to where it was.  At a damaged header it returns at once: if it was the
one to link upper memory in, it stays linked in (`Damaged`).  In every other case the state of the
link is what it was, and after a walk to the end of the chain the process owns nothing
(`freeProcessMem_restores_iff`).
-/

set_option autoImplicit false

namespace BurdahDos
namespace Memory

open Tiling

/-! ## Chains with a damaged header -/

/-- The segments of the blocks `bs` from `a` on. -/
def segments : ℕ → List Mcb → List ℕ
  | _, [] => []
  | a, b :: bs => a :: segments (a + (b.mSize + 1)) bs

/-- From `a` on there are the intact blocks `bs`, and they lead to the header at `x`. -/
structure Leads (mem : Mem) (a : ℕ) (bs : List Mcb) (x : ℕ) : Prop where
  linked : Linked mem a bs
  intact : ∀ b ∈ bs, mcbValid b = true ∧ b.mType = mcbNormal
  reaches : a + total bs = x
  fits : x < 2 ^ 16

/-- No chain goes on behind this header: it is that of the last block, or damaged. -/
def Stops (m : Mcb) : Prop := mcbValid m = true → m.mType = mcbLast

variable {mem mem' : Mem} {a x : ℕ} {bs cs : List Mcb} {b : Mcb} {ps : UInt16}

theorem segments_append (a : ℕ) (bs cs : List Mcb) :
    segments a (bs ++ cs) = segments a bs ++ segments (a + total bs) cs := by
  induction bs generalizing a with
  | nil => rfl
  | cons b bs ih =>
    simp only [List.cons_append, segments, total, size_mcb, ih, Nat.add_assoc]

theorem Leads.nil (h : x < 2 ^ 16) : Leads mem x [] x :=
  ⟨trivial, fun _ hb => (nomatch hb), Nat.add_zero x, h⟩

theorem Leads.head (h : Leads mem a (b :: bs) x) :
    mem a = b ∧ mcbValid b = true ∧ b.mType = mcbNormal ∧ nxtMCB mem a = a + (b.mSize + 1) ∧
      a < x := by
  have hreaches := h.reaches
  have hfits := h.fits
  obtain ⟨hvalid, htype⟩ := h.intact b List.mem_cons_self
  simp only [total, size_mcb] at hreaches
  refine ⟨h.linked.1, hvalid, htype, ?_, by omega⟩
  rw [nxtMCB, nxtMCBsize, h.linked.1, Nat.mod_eq_of_lt (by omega)]
  omega

theorem Leads.tail (h : Leads mem a (b :: bs) x) : Leads mem (a + (b.mSize + 1)) bs x := by
  have hreaches := h.reaches
  simp only [total, size_mcb] at hreaches
  exact ⟨h.linked.2, fun c hc => h.intact c (List.mem_cons_of_mem b hc), by omega, h.fits⟩

theorem Leads.append (h : Leads mem a bs x) {y : ℕ} (h' : Leads mem x cs y) :
    Leads mem a (bs ++ cs) y := by
  refine ⟨linked_append.mpr ⟨h.linked, h.reaches ▸ h'.linked⟩, fun c hc => ?_, ?_, h'.fits⟩
  · exact (List.mem_append.mp hc).elim (h.intact c) (h'.intact c)
  · rw [total_append, ← Nat.add_assoc, h.reaches, h'.reaches]

theorem Leads.congr (h : Leads mem a bs x) (hm : ∀ y, a ≤ y → y < x → mem' y = mem y) :
    Leads mem' a bs x :=
  ⟨h.linked.congr fun y hy hy' => hm y hy (by rwa [h.reaches] at hy'), h.intact, h.reaches, h.fits⟩

theorem Leads.lt_fuel (h : Leads mem a bs x) : bs.length < chainFuel := by
  have := length_le_total bs
  have := h.reaches
  have := h.fits
  rw [chainFuel]
  omega

/-! ## Freeing the blocks of a process -/

/-- The process gives back its blocks among those at `xs`. -/
def release (ps : UInt16) (xs : List ℕ) (mem : Mem) : Mem := fun x =>
  if x ∈ xs ∧ (mem x).mPsp = ps ∧ ps ≠ freePsp then
    { mem x with mPsp := freePsp, mName := List.replicate 8 0 }
  else mem x

theorem release_nil : release ps [] mem = mem :=
  funext fun _ => if_neg fun h => (nomatch h.1)

theorem release_of_notMem {xs : List ℕ} (h : x ∉ xs) : release ps xs mem x = mem x :=
  if_neg fun h' => h h'.1

theorem release_of_ne {xs : List ℕ} (h : (mem x).mPsp ≠ ps) : release ps xs mem x = mem x :=
  if_neg fun h' => h h'.2.1

@[simp] theorem release_type (xs : List ℕ) : (release ps xs mem x).mType = (mem x).mType := by
  rw [release]
  split <;> rfl

@[simp] theorem release_size (xs : List ℕ) : (release ps xs mem x).mSize = (mem x).mSize := by
  rw [release]
  split <;> rfl

theorem release_valid (xs : List ℕ) : mcbValid (release ps xs mem x) = mcbValid (mem x) := by
  rw [mcbValid, release_size, release_type, ← mcbValid]

/-- The process owns no block that was in the list. -/
theorem release_psp {xs : List ℕ} (h : x ∈ xs) (hfree : mcbFree (release ps xs mem x) = false) :
    (release ps xs mem x).mPsp ≠ ps := by
  by_cases hps : (mem x).mPsp = ps ∧ ps ≠ freePsp
  · rw [release, if_pos ⟨h, hps⟩]
    exact fun h0 => hps.2 h0.symm
  · have hkept : release ps xs mem x = mem x := if_neg fun h' => hps h'.2
    rw [hkept, mcbFree, beq_eq_false_iff_ne] at hfree
    rw [hkept]
    exact fun h' => hps ⟨h', h' ▸ hfree⟩

theorem release_release (xs : List ℕ) (y : ℕ) :
    release ps xs (release ps [y] mem) = release ps (y :: xs) mem := by
  funext x
  simp only [release, List.mem_cons, List.not_mem_nil, or_false]
  by_cases hps : (mem x).mPsp = ps ∧ ps ≠ freePsp
  · by_cases hx : x = y
    · have hne : ¬ freePsp = ps := fun h0 => hps.2 h0.symm
      simp only [if_pos (And.intro hx hps), hne, false_and, and_false, if_false]
      rw [if_pos ⟨Or.inl hx, hps⟩]
    · simp [hx]
  · simp [hps]

theorem release_singleton (h : (mem x).mPsp = ps) (h0 : ps ≠ freePsp) : release ps [x] mem =
    mem.modify x fun m => { m with mPsp := freePsp, mName := List.replicate 8 0 } := by
  funext y
  rw [modify_apply, release]
  by_cases hy : y = x
  · subst hy
    rw [if_pos rfl, if_pos ⟨List.mem_singleton_self y, h, h0⟩]
  · rw [if_neg hy, if_neg fun hy' => hy (List.mem_singleton.mp hy'.1)]

/-- `DosMemFree` in one round of the loop. -/
theorem dosMemFree_release {s : State} (hx : 0 < x) (hvalid : mcbValid (s.mem x) = true) :
    (if (s.mem x).mPsp = ps then (dosMemFree s x).2 else s) =
      { s with mem := release ps [x] s.mem } := by
  have hfreeable : mcbFreeable (s.mem x) = true := by
    rw [mcbValid, Bool.and_eq_true] at hvalid
    exact hvalid.2
  by_cases hps : (s.mem x).mPsp = ps ∧ ps ≠ freePsp
  · have hfree : mcbFree (s.mem x) = false := by
      rw [mcbFree, hps.1, beq_eq_false_iff_ne]
      exact hps.2
    rw [if_pos hps.1, dosMemFree, if_neg (by omega), hfreeable, hfree,
      release_singleton hps.1 hps.2]
    rfl
  · have hmem : release ps [x] s.mem = s.mem := by
      refine funext fun y => if_neg ?_
      rintro ⟨hy, h⟩
      rw [List.mem_singleton.mp hy] at h
      exact hps h
    rw [hmem]
    split
    · rename_i h
      have hfree : mcbFree (s.mem x) = true := by
        rw [mcbFree, beq_iff_eq, h]
        exact not_not.mp fun h0 => hps ⟨h, h0⟩
      rw [dosMemFree, if_neg (by omega), hfreeable, hfree]
      rfl
    · rfl

/-- One round of the loop. -/
theorem freeLoop_round {s : State} (fuel : ℕ) (hx : 0 < x) (hvalid : mcbValid (s.mem x) = true) :
    freeLoop ps (fuel + 1) x s =
      if (s.mem x).mType = mcbLast then some (true, { s with mem := release ps [x] s.mem })
      else freeLoop ps fuel (nxtMCB s.mem x) { s with mem := release ps [x] s.mem } := by
  rw [freeLoop, hvalid]
  simp only [dosMemFree_release hx hvalid, release_type, nxtMCB, release_size]
  rfl

/-- The segments at which the walk frees. -/
def freedAt (mem : Mem) (a : ℕ) (bs : List Mcb) (x : ℕ) : List ℕ :=
  segments a bs ++ if mcbValid (mem x) then [x] else []

/-- **What the loop of `FreeProcessMem` does**: it frees the blocks of the process up to the end of
the chain or a damaged header. -/
theorem freeLoop_exact (ps : UInt16) (fuel : ℕ) {s : State} (h : Leads s.mem a bs x)
    (hstop : Stops (s.mem x)) (ha : 0 < a) (hfuel : bs.length < fuel) :
    freeLoop ps fuel a s =
      some (mcbValid (s.mem x), { s with mem := release ps (freedAt s.mem a bs x) s.mem }) := by
  induction bs generalizing a s fuel with
  | nil =>
    obtain ⟨fuel, rfl⟩ := Nat.exists_eq_succ_of_ne_zero (Nat.ne_of_gt hfuel)
    obtain rfl : a = x := h.reaches
    cases hvalid : mcbValid (s.mem a) with
    | false => simp [freeLoop, freedAt, hvalid, segments, release_nil]
    | true =>
      rw [freeLoop_round fuel ha hvalid, if_pos (hstop hvalid), freedAt, hvalid]
      rfl
  | cons b bs ih =>
    obtain ⟨fuel, rfl⟩ := Nat.exists_eq_succ_of_ne_zero (Nat.ne_zero_of_lt hfuel)
    obtain ⟨hb, hvalid, htype, hnext, hlt⟩ := h.head
    have hx : x ∉ [a] := fun hx => absurd (List.mem_singleton.mp hx) (by omega)
    have hleads : Leads (release ps [a] s.mem) (a + (b.mSize + 1)) bs x :=
      h.tail.congr fun y hy _ => release_of_notMem fun hy' =>
        absurd (List.mem_singleton.mp hy') (by omega)
    have hstop' : Stops (release ps [a] s.mem x) := by rwa [release_of_notMem hx]
    have hnormal : (s.mem a).mType ≠ mcbLast := by
      rw [hb, htype]
      decide
    have hrest := ih fuel (s := { s with mem := release ps [a] s.mem }) hleads hstop' (by omega)
      (Nat.lt_of_succ_lt_succ hfuel)
    rw [freeLoop_round fuel ha (by rw [hb, hvalid]), if_neg hnormal, hnext, hrest]
    simp only [release_of_notMem hx, freedAt, release_release]
    rfl

/-- Freed blocks are where they were. -/
theorem Leads.release (h : Leads mem a bs x) (ps : UInt16) (xs : List ℕ) :
    ∃ bs', Leads (release ps xs mem) a bs' x ∧ segments a bs' = segments a bs := by
  induction bs generalizing a with
  | nil =>
    obtain rfl : a = x := h.reaches
    exact ⟨[], Leads.nil h.fits, rfl⟩
  | cons b bs ih =>
    obtain ⟨bs', hbs', hsegments⟩ := ih h.tail
    obtain ⟨hb, hvalid, htype, -⟩ := h.head
    have hsize : (Memory.release ps xs mem a).mSize = b.mSize := by rw [release_size, hb]
    rw [← hb] at hvalid htype
    have hreaches := hbs'.reaches
    refine ⟨Memory.release ps xs mem a :: bs', ⟨⟨rfl, ?_⟩, fun c hc => ?_, ?_, h.fits⟩, ?_⟩
    · rw [size_mcb, hsize]
      exact hbs'.linked
    · rcases List.mem_cons.mp hc with rfl | hc
      · exact ⟨by rw [release_valid, hvalid], by rw [release_type, htype]⟩
      · exact hbs'.intact c hc
    · simp only [total, size_mcb, hsize]
      omega
    · rw [segments, hsize, hsegments, segments]

/-! ## Linking upper memory in and out -/

/-- The walk of `DosUmbLink` along intact blocks up to the root or the last block. -/
theorem umbWalk_leads {root : ℕ} (fuel : ℕ) (q : Option ℕ) (h : Leads mem a bs x) (hle : x ≤ root)
    (hstop : x = root ∨ (mem x).mType = mcbLast) (hfuel : bs.length < fuel) :
    umbWalk mem root fuel a q = some (some (x, (segments a bs).getLast?.or q)) := by
  induction bs generalizing a q fuel with
  | nil =>
    obtain ⟨fuel, rfl⟩ := Nat.exists_eq_succ_of_ne_zero (Nat.ne_of_gt hfuel)
    obtain rfl : a = x := h.reaches
    rw [umbWalk, if_neg]
    · rfl
    · rintro ⟨hne, htype⟩
      exact hstop.elim hne htype
  | cons b bs ih =>
    obtain ⟨fuel, rfl⟩ := Nat.exists_eq_succ_of_ne_zero (Nat.ne_zero_of_lt hfuel)
    obtain ⟨hb, hvalid, htype, hnext, hlt⟩ := h.head
    rw [umbWalk, if_pos ⟨by omega, by rw [hb, htype]; decide⟩, hb, hvalid, hnext,
      ih fuel (some a) h.tail (Nat.lt_of_succ_lt_succ hfuel), segments, List.getLast?_cons]
    cases (segments (a + (b.mSize + 1)) bs).getLast? <;> rfl

/-- The walk of `DosUmbLink` to a damaged header that does not look like a last block. -/
theorem umbWalk_damaged {root : ℕ} (fuel : ℕ) (q : Option ℕ) (h : Leads mem a bs x)
    (hlt : x < root) (htype : (mem x).mType ≠ mcbLast) (hdamaged : mcbValid (mem x) = false)
    (hfuel : bs.length < fuel) : umbWalk mem root fuel a q = some none := by
  induction bs generalizing a q fuel with
  | nil =>
    obtain ⟨fuel, rfl⟩ := Nat.exists_eq_succ_of_ne_zero (Nat.ne_of_gt hfuel)
    obtain rfl : a = x := h.reaches
    rw [umbWalk, if_pos ⟨by omega, htype⟩, hdamaged]
    rfl
  | cons b bs ih =>
    obtain ⟨fuel, rfl⟩ := Nat.exists_eq_succ_of_ne_zero (Nat.ne_zero_of_lt hfuel)
    obtain ⟨hb, hvalid, hnormal, hnext, hlt'⟩ := h.head
    rw [umbWalk, if_pos ⟨by omega, by rw [hb, hnormal]; decide⟩, hb, hvalid, hnext,
      ih fuel (some a) h.tail (Nat.lt_of_succ_lt_succ hfuel)]
    rfl

/-- Upper memory is there, and not linked in. -/
def Apart (s : State) : Prop := s.uppermemRoot ≠ 0xffff ∧ s.uppermemLink &&& 1 = 0

instance (s : State) : Decidable (Apart s) := inferInstanceAs (Decidable (_ ∧ _))

/-- Low memory from `first_mcb` to the header at `z`, and upper memory from `uppermem_root` to the
header at `u`.  Either chain may be damaged there.  If they are not linked, an undamaged low chain
ends where upper memory begins, and otherwise upper memory is part of the chain, if it is not
damaged. -/
structure Laid (s : State) (low upper : List Mcb) (z u : ℕ) : Prop where
  first : 0 < s.firstMcb
  leads : Leads s.mem s.firstMcb low z
  stops : Stops (s.mem z)
  meets : Apart s → z ≤ s.uppermemRoot ∧
    (mcbValid (s.mem z) = true → z + ((s.mem z).mSize + 1) = s.uppermemRoot)
  leadsUpper : Apart s → Leads s.mem s.uppermemRoot upper u ∧ Stops (s.mem u)
  linked : s.uppermemRoot ≠ 0xffff → s.uppermemLink &&& 1 = 1 → mcbValid (s.mem z) = true →
    s.uppermemRoot ∈ segments s.firstMcb low ++ [z]

/-- The segments of the blocks of both chains. -/
def chains (s : State) (low upper : List Mcb) (z u : ℕ) : List ℕ :=
  segments s.firstMcb low ++ z ::
    if Apart s then segments s.uppermemRoot upper ++ [u] else []

section Process

variable {s : State} {low upper : List Mcb} {z u : ℕ}

theorem dosUmbLink_idle (h : ¬ Apart s) (mem : Mem) {n : ℕ}
    (hn : n = 1 ∨ n = s.uppermemLink &&& 1) :
    dosUmbLink { s with mem := mem } n = some { s with mem := mem } := by
  rw [dosUmbLink]
  by_cases hroot : s.uppermemRoot = 0xffff
  · rw [if_pos hroot]
  · have hlink : s.uppermemLink &&& 1 = 1 := by
      have : s.uppermemLink &&& 1 ≠ 0 := fun h0 => h ⟨hroot, h0⟩
      rw [Nat.and_one_is_mod] at this ⊢
      omega
    rw [if_neg hroot, if_pos (Or.inr (by rw [hlink]; omega))]

/-- Linking upper memory in: whatever looks like the last low block is followed by another one. -/
theorem dosUmbLink_in (h : Laid s low upper z u) (hapart : Apart s)
    (htype : (s.mem z).mType = mcbLast) :
    dosUmbLink s 1 = some { s with
      mem := s.mem.modify z fun m => { m with mType := mcbNormal }
      uppermemLink := 1 } := by
  have hwalk := umbWalk_leads chainFuel none h.leads (h.meets hapart).1 (Or.inr htype)
    h.leads.lt_fuel
  rw [dosUmbLink, if_neg hapart.1, if_neg (by rw [hapart.2]; decide), hwalk]
  simp only [htype, if_true]
  rfl

/-- No last low block is found. -/
theorem dosUmbLink_in_silent (h : Laid s low upper z u) (hapart : Apart s)
    (htype : (s.mem z).mType ≠ mcbLast) : dosUmbLink s 1 = some s := by
  have hdamaged : mcbValid (s.mem z) = false := by
    by_contra hvalid
    exact htype (h.stops (by simpa using hvalid))
  rw [dosUmbLink, if_neg hapart.1, if_neg (by rw [hapart.2]; decide)]
  rcases Nat.lt_or_eq_of_le (h.meets hapart).1 with hlt | heq
  · rw [umbWalk_damaged chainFuel none h.leads hlt htype hdamaged h.leads.lt_fuel]
  · rw [umbWalk_leads chainFuel none h.leads heq.le (Or.inl heq) h.leads.lt_fuel]
    simp only [htype, if_false]
    rfl

/-- Linking upper memory out again: the block before the root is the last low one. -/
theorem dosUmbLink_out (hroot : s.uppermemRoot ≠ 0xffff) (hlink : s.uppermemLink = 1)
    (h : Leads s.mem s.firstMcb low s.uppermemRoot)
    (hlast : (segments s.firstMcb low).getLast? = some z) (htype : (s.mem z).mType = mcbNormal) :
    dosUmbLink s 0 = some { s with
      mem := s.mem.modify z fun m => { m with mType := mcbLast }
      uppermemLink := 0 } := by
  have hwalk := umbWalk_leads chainFuel none h (Nat.le_refl _) (Or.inl rfl) h.lt_fuel
  rw [dosUmbLink, if_neg hroot, if_neg (by rw [hlink]; decide), hwalk, hlast]
  simp only [Option.some_or, htype, and_self, if_true]

/-! ## `FreeProcessMem` -/

/-- `FreeProcessMem` on the chain that it finds after linking. -/
theorem freeProcessMem_eq {s₁ : State} (hin : dosUmbLink s 1 = some s₁)
    (h : Leads s₁.mem s₁.firstMcb bs x) (hstop : Stops (s₁.mem x)) (hfirst : 0 < s₁.firstMcb)
    (ps : UInt16) :
    freeProcessMem s ps =
      if mcbValid (s₁.mem x) then
        (dosUmbLink { s₁ with mem := release ps (freedAt s₁.mem s₁.firstMcb bs x) s₁.mem }
          (s.uppermemLink &&& 1)).map fun s' => (success, s')
      else some (deMcbdestry,
        { s₁ with mem := release ps (freedAt s₁.mem s₁.firstMcb bs x) s₁.mem }) := by
  rw [freeProcessMem, hin]
  simp only [freeLoop_exact ps chainFuel h hstop hfirst h.lt_fuel]
  cases mcbValid (s₁.mem x) with
  | false => rfl
  | true =>
    simp only [if_true]
    cases dosUmbLink { s₁ with mem := release ps (freedAt s₁.mem s₁.firstMcb bs x) s₁.mem }
      (s.uppermemLink &&& 1) <;> rfl

/-- Upper memory is linked in already, or there is none. -/
theorem freeProcessMem_idle (h : Laid s low upper z u) (hapart : ¬ Apart s) (ps : UInt16) :
    freeProcessMem s ps = some (if mcbValid (s.mem z) then success else deMcbdestry,
      { s with mem := release ps (freedAt s.mem s.firstMcb low z) s.mem }) := by
  have hin := dosUmbLink_idle hapart s.mem (Or.inl rfl)
  rw [freeProcessMem_eq hin h.leads h.stops h.first]
  simp only [dosUmbLink_idle hapart _ (Or.inr rfl)]
  cases mcbValid (s.mem z) <;> rfl

/-- Upper memory cannot be linked in. -/
theorem freeProcessMem_silent (h : Laid s low upper z u) (hapart : Apart s)
    (htype : (s.mem z).mType ≠ mcbLast) (ps : UInt16) :
    freeProcessMem s ps = some (deMcbdestry,
      { s with mem := release ps (freedAt s.mem s.firstMcb low z) s.mem }) := by
  have hdamaged : mcbValid (s.mem z) = false := by
    by_contra hvalid
    exact htype (h.stops (by simpa using hvalid))
  rw [freeProcessMem_eq (dosUmbLink_in_silent h hapart htype) h.leads h.stops h.first, hdamaged]
  rfl

/-- The chain through low and upper memory, when it has been linked. -/
theorem leads_in (h : Laid s low upper z u) (hapart : Apart s)
    (hvalid : mcbValid (s.mem z) = true) :
    Leads (s.mem.modify z fun m => { m with mType := mcbNormal }) s.firstMcb
      ((low ++ [{ s.mem z with mType := mcbNormal }]) ++ upper) u ∧
    Leads (s.mem.modify z fun m => { m with mType := mcbNormal }) s.firstMcb
      (low ++ [{ s.mem z with mType := mcbNormal }]) s.uppermemRoot := by
  have hmeets := (h.meets hapart).2 hvalid
  have hupper := (h.leadsUpper hapart).1
  have hle : s.uppermemRoot ≤ u := by
    have := hupper.reaches
    omega
  have hz : Leads (s.mem.modify z fun m => { m with mType := mcbNormal }) z
      [{ s.mem z with mType := mcbNormal }] s.uppermemRoot := by
    refine ⟨⟨(modify_apply ..).trans (if_pos rfl), trivial⟩, fun c hc => ?_, ?_, ?_⟩
    · rw [List.mem_singleton.mp hc]
      refine ⟨?_, rfl⟩
      rw [mcbValid, Bool.and_eq_true] at hvalid ⊢
      exact ⟨hvalid.1, rfl⟩
    · simp only [total, size_mcb]
      omega
    · have := hupper.fits
      omega
  have hlow : Leads (s.mem.modify z fun m => { m with mType := mcbNormal }) s.firstMcb low z :=
    h.leads.congr fun y _ hy => (modify_apply ..).trans (if_neg (by omega))
  have hup : Leads (s.mem.modify z fun m => { m with mType := mcbNormal }) s.uppermemRoot upper u :=
    hupper.congr fun y hy _ => (modify_apply ..).trans (if_neg (by omega))
  exact ⟨(hlow.append hz).append hup, hlow.append hz⟩

/-- Upper memory is linked in, and the walk ends at a damaged header. -/
theorem freeProcessMem_damaged (h : Laid s low upper z u) (hapart : Apart s)
    (htype : (s.mem z).mType = mcbLast)
    (hdamaged : mcbValid (s.mem z) = false ∨ mcbValid (s.mem u) = false) (ps : UInt16) :
    ∃ mem, freeProcessMem s ps = some (deMcbdestry, { s with mem := mem, uppermemLink := 1 }) := by
  have hin := dosUmbLink_in h hapart htype
  have happly := fun y => modify_apply s.mem z y fun m => { m with mType := mcbNormal }
  -- the header at which the walk ends
  obtain ⟨bs, x, hleads, hx⟩ : ∃ bs x,
      Leads (s.mem.modify z fun m => { m with mType := mcbNormal }) s.firstMcb bs x ∧
        mcbValid (s.mem.modify z (fun m => { m with mType := mcbNormal }) x) = false := by
    cases hvalid : mcbValid (s.mem z) with
    | false =>
      refine ⟨low, z, h.leads.congr fun y _ hy => (happly y).trans (if_neg (by omega)), ?_⟩
      rw [happly, if_pos rfl]
      rw [mcbValid, htype] at hvalid
      rw [mcbValid]
      simpa using hvalid
    | true =>
      have hlt : z < u := by
        have := (h.leadsUpper hapart).1.reaches
        have := (h.meets hapart).2 hvalid
        omega
      refine ⟨_, u, (leads_in h hapart hvalid).1, ?_⟩
      rw [happly, if_neg (by omega)]
      exact hdamaged.resolve_left (by rw [hvalid]; decide)
  rw [freeProcessMem_eq hin hleads (fun hv => absurd (hx.symm.trans hv) (by decide)) h.first, hx]
  exact ⟨_, rfl⟩

/-- The last low block gets its mark back. -/
theorem release_modify {xs : List ℕ} (htype : (mem z).mType = mcbLast) :
    (release ps xs (mem.modify z fun m => { m with mType := mcbNormal })).modify z
      (fun m => { m with mType := mcbLast }) = release ps xs mem := by
  funext y
  by_cases hy : y = z
  · subst hy
    simp only [release, modify_apply, if_true, ← htype]
    split <;> rfl
  · simp only [release, modify_apply, if_neg hy]

/-- Upper memory is linked in, the walk ends at the last block, and upper memory is linked out. -/
theorem freeProcessMem_intact (h : Laid s low upper z u) (hapart : Apart s)
    (hz : mcbValid (s.mem z) = true) (hu : mcbValid (s.mem u) = true) (ps : UInt16) :
    freeProcessMem s ps = some (success,
      { s with mem := release ps (chains s low upper z u) s.mem, uppermemLink := 0 }) := by
  have htype := h.stops hz
  have hin := dosUmbLink_in h hapart htype
  have happly := fun y => modify_apply s.mem z y fun m => { m with mType := mcbNormal }
  obtain ⟨hleads, hroot⟩ := leads_in h hapart hz
  have hlt : z < u := by
    have := (h.leadsUpper hapart).1.reaches
    have := (h.meets hapart).2 hz
    omega
  have hx : s.mem.modify z (fun m => { m with mType := mcbNormal }) u = s.mem u :=
    (happly u).trans (if_neg (by omega))
  have hfreed : freedAt (s.mem.modify z fun m => { m with mType := mcbNormal }) s.firstMcb
      ((low ++ [{ s.mem z with mType := mcbNormal }]) ++ upper) u = chains s low upper z u := by
    have hreaches := h.leads.reaches
    have hreaches' := hroot.reaches
    rw [freedAt, hx, hu, chains, if_pos hapart, segments_append, segments_append, hreaches,
      hreaches']
    simp [segments]
  obtain ⟨bs', hbs', hsegments⟩ := hroot.release ps (chains s low upper z u)
  have hlast : (segments s.firstMcb bs').getLast? = some z := by
    rw [hsegments, segments_append, h.leads.reaches]
    exact List.getLast?_concat ..
  have hnormal : (release ps (chains s low upper z u)
      (s.mem.modify z fun m => { m with mType := mcbNormal }) z).mType = mcbNormal := by
    rw [release_type, happly, if_pos rfl]
  have hout := dosUmbLink_out (s := { s with
    mem := release ps (chains s low upper z u)
      (s.mem.modify z fun m => { m with mType := mcbNormal })
    uppermemLink := 1 }) hapart.1 rfl hbs' hlast hnormal
  have hstop : Stops (s.mem.modify z (fun m => { m with mType := mcbNormal }) u) := by
    rw [hx]
    exact (h.leadsUpper hapart).2
  rw [freeProcessMem_eq hin hleads hstop h.first]
  simp only [hfreed, hx, hu, if_true, hapart.2, hout, Option.map_some, release_modify htype]

/-- Upper memory was not linked in, `DosUmbLink` finds what looks like the last low block, and the
walk through both chains meets a damaged header. -/
def Damaged (s : State) (z u : ℕ) : Prop :=
  Apart s ∧ (s.mem z).mType = mcbLast ∧ (mcbValid (s.mem z) = false ∨ mcbValid (s.mem u) = false)

/-- The link of upper memory is what it was: the variable, and the mark of the last low block. -/
def LinkKept (s s' : State) : Prop :=
  s'.uppermemLink &&& 1 = s.uppermemLink &&& 1 ∧ ∀ x, (s'.mem x).mType = (s.mem x).mType

/-- The process owns none of the blocks at `xs`, and those of others are what they were. -/
def Released (ps : UInt16) (xs : List ℕ) (s s' : State) : Prop :=
  (∀ x ∈ xs, mcbFree (s'.mem x) = false → (s'.mem x).mPsp ≠ ps) ∧
    ∀ x, (s.mem x).mPsp ≠ ps → s'.mem x = s.mem x

theorem linkKept_release (xs : List ℕ) :
    LinkKept s { s with mem := release ps xs s.mem } :=
  ⟨rfl, fun _ => release_type xs⟩

theorem released_release {xs ys : List ℕ} (h : ∀ x ∈ xs, x ∈ ys) (n : ℕ) :
    Released ps xs s { s with mem := release ps ys s.mem, uppermemLink := n } :=
  ⟨fun x hx => release_psp (h x hx), fun _ => release_of_ne⟩

/-- `FreeProcessMem` as the end of a process needs it. -/
def Restores (s : State) (ps : UInt16) (xs : List ℕ) : Prop :=
  ∃ rc s', freeProcessMem s ps = some (rc, s') ∧ LinkKept s s' ∧
    (rc = success → Released ps xs s s')

/-- **`FreeProcessMem` puts upper memory back** to where it was, and frees the blocks of the process
if it reports success, unless it was the one to link upper memory in and meets a damaged header. -/
theorem freeProcessMem_restores_iff (h : Laid s low upper z u) (ps : UInt16) :
    Restores s ps (chains s low upper z u) ↔ ¬ Damaged s z u := by
  constructor
  · rintro ⟨rc, s', heq, ⟨hlink, -⟩, -⟩ ⟨hapart, htype, hdamaged⟩
    obtain ⟨mem, heq'⟩ := freeProcessMem_damaged h hapart htype hdamaged ps
    obtain ⟨-, rfl⟩ := Prod.mk.inj (Option.some.inj (heq.symm.trans heq'))
    rw [hapart.2] at hlink
    exact absurd (show 1 &&& 1 = 0 from hlink) (by decide)
  · intro hwhole
    by_cases hapart : Apart s
    · by_cases htype : (s.mem z).mType = mcbLast
      · have hvalid : mcbValid (s.mem z) = true ∧ mcbValid (s.mem u) = true := by
          constructor <;> by_contra hinvalid
          · exact hwhole ⟨hapart, htype, Or.inl (by simpa using hinvalid)⟩
          · exact hwhole ⟨hapart, htype, Or.inr (by simpa using hinvalid)⟩
        refine ⟨_, _, freeProcessMem_intact h hapart hvalid.1 hvalid.2 ps, ?_, fun _ =>
          released_release (fun _ hx => hx) 0⟩
        exact ⟨(Nat.zero_and 1).trans hapart.2.symm, fun _ => release_type _⟩
      · exact ⟨_, _, freeProcessMem_silent h hapart htype ps, linkKept_release _,
          fun hrc => absurd hrc (by decide)⟩
    · refine ⟨_, _, freeProcessMem_idle h hapart ps, linkKept_release _, fun hrc => ?_⟩
      cases hz : mcbValid (s.mem z) with
      | false =>
        rw [hz] at hrc
        exact absurd hrc (by decide)
      | true =>
        refine released_release (fun x hx => ?_) s.uppermemLink
        rw [freedAt, hz]
        rwa [chains, if_neg hapart] at hx

end Process

theorem booted_laid : Laid booted [booted.mem 0x100] [booted.mem 0x9fff] 0x110 0xc800 where
  first := by decide
  leads := ⟨⟨rfl, trivial⟩, by decide, by decide, by decide⟩
  stops := fun _ => by decide
  meets := fun _ => ⟨by decide, fun _ => by decide⟩
  leadsUpper := fun _ => ⟨⟨⟨rfl, trivial⟩, by decide, by decide, by decide⟩, fun _ => by decide⟩
  linked := fun _ h => absurd h (by decide)

/-- `booted`, with the header at `c800h` overwritten. -/
def overwritten : State :=
  { booted with mem := booted.mem.modify 0xc800 fun m => { m with mType := 0 } }

theorem overwritten_laid :
    Laid overwritten [booted.mem 0x100] [booted.mem 0x9fff] 0x110 0xc800 where
  first := by decide
  leads := ⟨⟨by decide, trivial⟩, by decide, by decide, by decide⟩
  stops := fun _ => by decide
  meets := fun _ => ⟨by decide, fun _ => by decide⟩
  leadsUpper := fun _ => ⟨⟨⟨by decide, trivial⟩, by decide, by decide, by decide⟩, fun h =>
    absurd h (by decide)⟩
  linked := fun _ h => absurd h (by decide)

theorem freeProcessMem_restores_booted :
    Restores booted 0x101 (chains booted [booted.mem 0x100] [booted.mem 0x9fff] 0x110 0xc800) :=
  (freeProcessMem_restores_iff booted_laid 0x101).mpr fun h =>
    h.2.2.elim (fun hz => absurd hz (by decide)) fun hu => absurd hu (by decide)

theorem overwritten_left_linked : ¬ ∀ s low upper z u ps, Laid s low upper z u →
    Restores s ps (chains s low upper z u) := by
  intro h
  obtain ⟨rc, s', heq, ⟨hlink, -⟩, -⟩ := h _ _ _ _ _ 0x101 overwritten_laid
  have hleft : (freeProcessMem overwritten 0x101).map (fun r => r.2.uppermemLink &&& 1) =
      some 1 := by
    decide +kernel
  rw [heq] at hleft
  exact absurd ((Option.some.inj hleft).symm.trans hlink) (by decide)

end Memory
end BurdahDos
