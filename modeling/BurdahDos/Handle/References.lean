import BurdahDos.Dir.Returns
import BurdahDos.Handle.Open
import BurdahDos.Share.Slots
import Mathlib

/-!
# Reference counts

`sft_count` should be the number of handles that hold the SFT.  What an SFT has too much is its
`surplus`, and each call is a few steps that change the surplus by one; those of a call cancel out.

They do not where a handle is duplicated onto itself: its SFT is closed on the way.  There are
three more ways to lose count: `sft_count` is a `WORD`, a slot of a job file table is a byte, of
which 0xff is an unused slot, and a PSP may be made where there is one whose handles are open.
-/

set_option autoImplicit false

namespace BurdahDos
namespace Handle

open File (System Sft FNode success deAccess deInvldHndl)
open Share (inc16 dec16 countP_set_add)

variable {s s' : State} {k : Env}

/-! ## Counting -/

/-- A slot of a job file table holds the index of an SFT. -/
def holds (idx : ℕ) (b : UInt8) : Bool := b != 0xff && b.toNat == idx

/-- The number of handles of all processes that hold an SFT. -/
def State.handles (s : State) (idx : ℕ) : ℕ := ∑ p, (s.jft p).countP (holds idx)

/-- `sft_count`, as the `WORD` that it is. -/
def State.sftCount (s : State) (idx : ℕ) : ℤ :=
  let count := (s.sys.sft idx).count
  if count < 2 ^ 15 then count else count - 2 ^ 16

/-- The reference count of each SFT is the number of its handles. -/
structure Counted (s : State) : Prop where
  word : ∀ idx < s.sys.total, (s.sys.sft idx).count < 2 ^ 16
  count : ∀ idx < s.sys.total, s.sftCount idx = s.handles idx

theorem Counted.eq (h : Counted s) {idx : ℕ} (hidx : idx < s.sys.total) :
    (s.sys.sft idx).count = s.handles idx ∧ s.handles idx < 2 ^ 15 := by
  have hw := h.word idx hidx
  have hc := h.count idx hidx
  rw [State.sftCount] at hc
  split at hc <;> omega

theorem counted_of_eq (h : ∀ idx < s.sys.total,
    (s.sys.sft idx).count = s.handles idx ∧ (s.sys.sft idx).count < 2 ^ 15) : Counted s where
  word idx hidx := (h idx hidx).2.trans (by decide)
  count idx hidx := by
    rw [State.sftCount]
    rw [if_pos (h idx hidx).2, (h idx hidx).1]

/-- An SFT has a reference exactly if some handle holds it. -/
theorem Counted.open_iff (h : Counted s) {idx : ℕ} (hidx : idx < s.sys.total) :
    (s.sys.sft idx).count ≠ 0 ↔ ∃ p, ∃ b ∈ s.jft p, holds idx b = true := by
  rw [(h.eq hidx).1, State.handles, ne_eq, Finset.sum_eq_zero_iff]
  simp only [Finset.mem_univ, true_implies, List.countP_eq_zero]
  push Not
  simp

/-- What the count of an SFT is too much. -/
def State.surplus (s : State) (idx : ℕ) : ℤ := (s.sys.sft idx).count - s.handles idx

/-- 1 if the slot holds the index, else 0. -/
def one (idx : ℕ) (b : UInt8) : ℤ := if holds idx b then 1 else 0

@[simp] theorem one_unused (idx : ℕ) : one idx 0xff = 0 := by simp [one, holds]

theorem handles_setHandle {p : Seg} {hndl : ℕ} {b : UInt8} (hb : (s.jft p)[hndl]? = some b)
    (c : UInt8) (idx : ℕ) :
    ((s.setHandle p hndl c).handles idx : ℤ) = s.handles idx - one idx b + one idx c := by
  have hset := countP_set_add (p := holds idx) (b := c) hb
  have hsplit (f : Seg → List UInt8) : ∑ q, (f q).countP (holds idx) =
      (f p).countP (holds idx) + ∑ q ∈ Finset.univ.erase p, (f q).countP (holds idx) :=
    (Finset.add_sum_erase _ _ (Finset.mem_univ p)).symm
  have hrest : ∑ q ∈ Finset.univ.erase p, ((s.setHandle p hndl c).jft q).countP (holds idx) =
      ∑ q ∈ Finset.univ.erase p, (s.jft q).countP (holds idx) := by
    refine Finset.sum_congr rfl fun q hq => ?_
    simp only [State.setHandle, Function.update_of_ne (Finset.ne_of_mem_erase hq)]
  have hself : (s.setHandle p hndl c).jft p = (s.jft p).set hndl c := by
    simp [State.setHandle]
  rw [State.handles, State.handles, hsplit, hsplit, hrest, hself, one, one]
  split at hset <;> split at hset <;> rename_i hc hb <;>
    simp only [hc, hb, Bool.false_eq_true, if_true, if_false] <;> push_cast <;> omega

/-! ## The account of a step -/

theorem surplus_setHandle {p : Seg} {hndl : ℕ} {b : UInt8} (hb : (s.jft p)[hndl]? = some b)
    (c : UInt8) (idx : ℕ) :
    (s.setHandle p hndl c).surplus idx = s.surplus idx + one idx b - one idx c := by
  have h := handles_setHandle hb c idx
  change ((s.sys.sft idx).count : ℤ) - _ = _
  rw [h, State.surplus]
  omega

theorem surplus_of_count (hjft : s'.jft = s.jft) (idx : ℕ) :
    s'.surplus idx = s.surplus idx + (s'.sys.sft idx).count - (s.sys.sft idx).count := by
  have : s'.handles idx = s.handles idx := by rw [State.handles, State.handles, hjft]
  rw [State.surplus, State.surplus, this]
  omega

/-- Each SFT has as many references too much as before. -/
structure Balanced (s s' : State) : Prop where
  total : s'.sys.total = s.sys.total
  surplus : ∀ idx < s.sys.total, s'.surplus idx = s.surplus idx

theorem Balanced.refl (s : State) : Balanced s s := ⟨rfl, fun _ _ => rfl⟩

theorem Counted.of_balanced (h : Counted s) (hb : Balanced s s')
    (hcount : ∀ idx < s.sys.total, (s'.sys.sft idx).count < 2 ^ 15) : Counted s' := by
  refine counted_of_eq fun idx hidx => ?_
  rw [hb.total] at hidx
  have hs := hb.surplus idx hidx
  have heq := h.eq hidx
  rw [State.surplus, State.surplus] at hs
  exact ⟨by omega, hcount idx hidx⟩

/-! ## Closing -/

/-- Drivers, redirectors and disk succeed. -/
structure Works (s : State) (k : Env) : Prop where
  charIO : ∀ dhp cmd, k.charIO dhp cmd = true
  redirects : k.Redirects
  sound : Dir.Sound s.sys.vol

theorem Works.not_refused (h : Works s k) (fname : Path.Str) : ¬ Refused k fname := by
  rintro ⟨-, dhp, -, -, hio⟩
  rw [h.charIO] at hio
  exact absurd hio (by decide)

/-- A reference has been dropped. -/
structure HasDropped (s : State) (idx : ℕ) (r : ℤ × State) : Prop where
  result : r.1 = success
  jft : r.2.jft = s.jft
  cuPsp : r.2.cuPsp = s.cuPsp
  total : r.2.sys.total = s.sys.total
  count : ∀ i, (r.2.sys.sft i).count =
    if i = idx then dec16 (s.sys.sft idx).count else (s.sys.sft i).count

theorem dosCloseSft_spec (hw : Works s k) {idx : ℕ} (hopen : s.isOpen idx = true) :
    HasDropped s idx (dosCloseSft k s idx false) := by
  have hcount : (s.sys.sft idx).count ≠ 0 := by
    rw [State.isOpen, Bool.and_eq_true] at hopen
    exact bne_iff_ne.mp hopen.2
  rw [dosCloseSft]
  simp only [hopen, Bool.not_true, Bool.false_eq_true, if_false, hw.charIO, Bool.and_false,
    false_or]
  split
  · obtain ⟨hres, hdrop⟩ := hw.redirects.closed (s.sys.sft idx) (s.rest idx) hcount
    refine ⟨hres, rfl, rfl, rfl, fun i => ?_⟩
    rw [setSft_count, hdrop]
  · split
    · exact ⟨rfl, rfl, rfl, rfl, fun i => modifyCount_count s idx dec16 i⟩
    · have hcounts := dirClose_counts s.sys idx
      have hres := Dir.dosClose_sound hw.sound idx
      generalize Dir.dosClose s.sys idx = r at hcounts hres ⊢
      rw [if_neg (not_not.mpr hres)]
      refine ⟨rfl, ?_, ?_, ?_, fun i => ?_⟩
      · split <;> rfl
      · split <;> rfl
      · split <;> exact hcounts.total
      · rw [modifyCount_count]
        split
        · split
          · simp only [State.releaseShare, setSft_count, if_true]
            rw [hcounts.count]
          · dsimp only
            rw [hcounts.count]
        · rename_i hi
          split
          · simp only [State.releaseShare, setSft_count, if_neg hi]
            exact hcounts.count i
          · exact hcounts.count i

theorem getSft_some {hndl idx : ℕ} (h : s.getSft hndl = some idx) :
    ∃ b, (s.jft s.cuPsp)[hndl]? = some b ∧ holds idx b = true ∧ s.isOpen idx = true := by
  rw [State.getSft] at h
  split at h
  · exact (nomatch h)
  · rename_i b hb
    split at h
    · rename_i hopen
      obtain rfl := Option.some.inj h
      exact ⟨b, hb, by simp [holds, hopen.1], hopen.2⟩
    · exact (nomatch h)

theorem isOpen_iff {idx : ℕ} :
    s.isOpen idx = true ↔ idx < s.sys.total ∧ (s.sys.sft idx).count ≠ 0 := by
  simp [State.isOpen]

theorem one_of_holds {idx : ℕ} {b : UInt8} (h : holds idx b = true) (i : ℕ) :
    one i b = if i = idx then 1 else 0 := by
  rw [holds, Bool.and_eq_true, beq_iff_eq] at h
  rw [one, holds, h.1, h.2, Bool.true_and]
  by_cases hi : i = idx
  · rw [if_pos hi, hi, if_pos (beq_self_eq_true idx)]
  · rw [if_neg hi, if_neg (by simpa using Ne.symm hi)]

/-- What `DosClose` comes to if the handle holds an SFT. -/
structure HasClosed (s : State) (hndl idx : ℕ) (r : ℤ × State) : Prop where
  result : r.1 = success
  jft : r.2.jft = (s.setHandle s.cuPsp hndl 0xff).jft
  cuPsp : r.2.cuPsp = s.cuPsp
  total : r.2.sys.total = s.sys.total
  count : ∀ i, (r.2.sys.sft i).count =
    if i = idx then dec16 (s.sys.sft idx).count else (s.sys.sft i).count

theorem dosClose_spec (hw : Works s k) {hndl idx : ℕ} (h : s.getSft hndl = some idx) :
    HasClosed s hndl idx (dosClose k s hndl) := by
  obtain ⟨b, hb, hholds, hopen⟩ := getSft_some h
  have hdropped := dosCloseSft_spec (s := s.setHandle s.cuPsp hndl 0xff)
    ⟨hw.charIO, hw.redirects, hw.sound⟩ hopen
  simp only [dosClose, h]
  exact ⟨hdropped.result, hdropped.jft, hdropped.cuPsp, hdropped.total, hdropped.count⟩

theorem dosClose_none {hndl : ℕ} (h : s.getSft hndl = none) (k : Env) :
    dosClose k s hndl = (deInvldHndl, s) := by
  rw [dosClose, h]

/-- **A close keeps the account**: the handle and the reference go. -/
theorem HasClosed.balanced {hndl idx : ℕ} {r : ℤ × State} (h : HasClosed s hndl idx r)
    (hidx : s.getSft hndl = some idx) (hword : (s.sys.sft idx).count < 2 ^ 16) :
    Balanced s r.2 := by
  obtain ⟨b, hb, hholds, hopen⟩ := getSft_some hidx
  refine ⟨h.total, fun i _ => ?_⟩
  rw [surplus_of_count (s := s.setHandle s.cuPsp hndl 0xff) h.jft, surplus_setHandle hb,
    one_of_holds hholds, one_unused, h.count]
  change _ + ((if i = idx then _ else _ : ℕ) : ℤ) - ((s.sys.sft i).count : ℤ) = _
  split
  · rename_i hi
    subst hi
    rw [Share.dec16_eq (Nat.pos_of_ne_zero (isOpen_iff.mp hopen).2) hword]
    have := (isOpen_iff.mp hopen).2
    omega
  · omega

/-! ## Opening -/

theorem localOpenSft_returns {idx : ℕ} (hs : Dir.Sound s.sys.vol)
    (hshroff : (s.rest idx).shroff = -1) (path : Share.Filename) (flags attrib : ℕ) :
    (localOpenSft s idx path flags attrib).1 ≠ none := by
  have hsys := (shareOpenCheck_spec hshroff path flags).sys
  have hret := Dir.dosOpen_returns
    (s := ((shareOpenCheck s idx path flags).modifyCount idx inc16).sys)
    (by simpa [State.modifyCount, State.setSft, hsys] using hs) path.chars flags (.ofNat attrib) idx
  rw [localOpenSft]
  split
  · exact Option.some_ne_none _
  · split
    · exact Option.some_ne_none _
    · dsimp only
      split
      · exact Option.some_ne_none _
      · split
        · rename_i h
          exact absurd h hret
        · split <;> exact Option.some_ne_none _

theorem remoteOpenSft_returns (k : Env) (s : State) (idx flags attrib : ℕ) :
    (remoteOpenSft k s idx flags attrib).1 ≠ none := by
  simp only [remoteOpenSft]
  generalize (if flags &&& oLegacy = 0 then _ else _ : RemCmd) = cmd
  split <;> exact Option.some_ne_none _

theorem dosOpenSft_returns (hs : Dir.Sound s.sys.vol) (k : Env) (fname : Path.Str)
    (flags attrib : ℕ) : (dosOpenSft k s fname flags attrib).1 ≠ none := by
  simp only [dosOpenSft]
  split
  · exact Option.some_ne_none _
  · split
    · exact Option.some_ne_none _
    · split
      · exact Option.some_ne_none _
      · split
        · exact remoteOpenSft_returns k _ _ _ _
        · refine localOpenSft_returns ?_ ?_ _ _ _
          · exact hs
          · simp [State.setSft]

theorem getFreeHndl_some {hndl : ℕ} (h : s.getFreeHndl = some hndl) :
    (s.jft s.cuPsp)[hndl]? = some 0xff := by
  obtain ⟨hlt, hb, -⟩ := List.findIdx?_eq_some_iff_getElem.mp h
  rw [List.getElem?_eq_getElem hlt, beq_iff_eq.mp hb]

theorem holds_ofNat {idx : ℕ} (h : idx < 0xff) : holds idx (.ofNat idx) = true := by
  have hto : (UInt8.ofNat idx).toNat = idx := by
    rw [UInt8.toNat_ofNat']
    omega
  rw [holds, hto, beq_self_eq_true, Bool.and_true, bne_iff_ne]
  intro heq
  rw [heq] at hto
  exact absurd hto (by simp; omega)

/-- **An open keeps the account.** -/
theorem Counted.dosOpen (h : Counted s) (hw : Works s k) (fname : Path.Str) (mode attrib : ℕ)
    (hbyte : ∀ idx, s.getFreeSft = some idx → idx < 0xff) :
    Counted (dosOpen k s fname mode attrib).2 := by
  have hopened := dosOpenSft_spec (hw.not_refused fname) (fun _ => hw.redirects) s mode attrib
  have hret := dosOpenSft_returns hw.sound k fname mode attrib
  have hsmall : ∀ idx < s.sys.total, (s.sys.sft idx).count < 2 ^ 15 := by
    intro idx hidx
    have := h.eq hidx
    omega
  rcases dosOpen_cases k s fname mode attrib with
    ⟨-, e, he⟩ | ⟨hndl, -, hfree, ⟨x, hx, he⟩ | ⟨hx, he⟩⟩
  · rw [he]
    exact h
  · rw [he]
    generalize dosOpenSft k s fname mode attrib = r at hopened hx ⊢
    obtain ⟨hfreeSft, hone, hother, -⟩ := hopened.ok x hx
    obtain ⟨-, hzero⟩ := getFreeSft_some hfreeSft
    have hcount : ∀ i, (r.2.sys.sft i).count = if i = x.1 then 1 else (s.sys.sft i).count := by
      intro i
      split
      · rename_i hi
        rw [hi, hone]
      · rename_i hi
        exact hother i hi
    refine h.of_balanced ⟨hopened.total, fun i _ => ?_⟩ fun i hi => ?_
    · have hslot : (r.2.jft r.2.cuPsp)[hndl]? = some 0xff := by
        rw [hopened.jft, hopened.cuPsp, getFreeHndl_some hfree]
      rw [surplus_setHandle hslot, surplus_of_count hopened.jft, hcount, one_unused,
        one_of_holds (holds_ofNat (hbyte _ hfreeSft))]
      split
      · rename_i hi
        rw [hi, hzero]
        omega
      · omega
    · change (r.2.sys.sft i).count < 2 ^ 15
      rw [hcount]
      split
      · decide
      · exact hsmall i hi
  · rw [he]
    generalize dosOpenSft k s fname mode attrib = r at hopened hx hret ⊢
    obtain ⟨e, hres⟩ : ∃ e, r.1 = some (.error e) := by
      match hr : r.1 with
      | none => exact absurd hr hret
      | some (.error e) => exact ⟨e, rfl⟩
      | some (.ok x) => exact absurd hr (hx x)
    have hcount := (hopened.error e hres).1
    refine h.of_balanced ⟨hopened.total, fun i _ => ?_⟩ fun i hi => (hcount i) ▸ hsmall i hi
    rw [surplus_of_count hopened.jft, hcount]
    omega

/-! ## Duplicating -/

/-- A handle that is not in use gets a reference to an SFT. -/
theorem balanced_link {p : Seg} {hndl idx : ℕ} {b : UInt8} (hslot : (s.jft p)[hndl]? = some 0xff)
    (hb : holds idx b = true) (hword : (s.sys.sft idx).count + 1 < 2 ^ 16) :
    Balanced s ((s.setHandle p hndl b).modifyCount idx inc16) := by
  refine ⟨rfl, fun i _ => ?_⟩
  have hjft : ((s.setHandle p hndl b).modifyCount idx inc16).jft = (s.setHandle p hndl b).jft := rfl
  rw [surplus_of_count hjft, surplus_setHandle hslot, one_unused, one_of_holds hb,
    modifyCount_count]
  change _ + ((if i = idx then inc16 (s.sys.sft idx).count else _ : ℕ) : ℤ) -
    ((s.sys.sft i).count : ℤ) = _
  split
  · rename_i hi
    rw [Share.inc16_eq hword, hi]
    push_cast
    omega
  · change _ + ((s.sys.sft i).count : ℤ) - _ = _
    omega

theorem getD_of_getElem? {l : List UInt8} {i : ℕ} {b : UInt8} (h : l[i]? = some b) :
    l.getD i 0xff = b := by
  rw [List.getD_eq_getElem?_getD, h, Option.getD_some]

theorem setHandle_jft_self (s : State) (hndl : ℕ) (b : UInt8) :
    (s.setHandle s.cuPsp hndl b).jft s.cuPsp = (s.jft s.cuPsp).set hndl b :=
  Function.update_self ..

/-- **A duplicate keeps the account**, if it is not of a handle onto itself. -/
theorem Counted.dosForceDup (h : Counted s) (hw : Works s k) {oldHandle newHandle : ℕ}
    (hnew : newHandle < (s.jft s.cuPsp).length)
    (hok : ∀ idx, s.getSft oldHandle = some idx → oldHandle ≠ newHandle ∧
      ((s.sys.sft idx).count + 1 < 2 ^ 15 ∨ s.getSft newHandle = some idx)) :
    Counted (dosForceDup k s oldHandle newHandle).2 := by
  rw [Handle.dosForceDup]
  cases hold : s.getSft oldHandle with
  | none => exact h
  | some idx =>
    obtain ⟨hne, hroom⟩ := hok idx hold
    obtain ⟨b, hb, hholds, hopen⟩ := getSft_some hold
    obtain ⟨hidx, hcount⟩ := isOpen_iff.mp hopen
    dsimp only
    -- the reference to `idx` is counted in a state where the new handle is not in use
    have hlink : ∀ s' : State, Balanced s s' → s'.cuPsp = s.cuPsp →
        (s'.jft s.cuPsp)[oldHandle]? = some b → (s'.jft s.cuPsp)[newHandle]? = some 0xff →
        (s'.sys.sft idx).count + 1 < 2 ^ 15 → (∀ i < s.sys.total, (s'.sys.sft i).count < 2 ^ 15) →
        Counted ((s'.setHandle s'.cuPsp newHandle
          ((s'.jft s'.cuPsp).getD oldHandle 0xff)).modifyCount idx inc16) := by
      intro s' hbal hcu hold' hnew' hroom' hsmall
      rw [hcu, getD_of_getElem? hold']
      have hlinked := balanced_link hnew' hholds (hroom'.trans (by decide))
      refine h.of_balanced ⟨hlinked.total.trans hbal.total, fun i hi => ?_⟩ fun i hi => ?_
      · exact (hlinked.surplus i (hbal.total ▸ hi)).trans (hbal.surplus i hi)
      · rw [modifyCount_count]
        change (if i = idx then inc16 (s'.sys.sft idx).count else (s'.sys.sft i).count) < _
        split
        · rw [Share.inc16_eq (hroom'.trans (by decide))]
          exact hroom'
        · exact hsmall i hi
    have hsmall : ∀ i < s.sys.total, (s.sys.sft i).count < 2 ^ 15 := by
      intro i hi
      have := h.eq hi
      omega
    obtain ⟨c, hc⟩ : ∃ c, (s.jft s.cuPsp)[newHandle]? = some c :=
      ⟨_, List.getElem?_eq_getElem hnew⟩
    rw [getD_of_getElem? hc]
    by_cases hfree : c = 0xff
    · subst hfree
      simp only [ne_eq, not_true_eq_false, if_false]
      refine hlink s (.refl s) rfl hb hc ?_ hsmall
      refine hroom.resolve_right fun hsame => ?_
      obtain ⟨c', hc', hholds', -⟩ := getSft_some hsame
      obtain rfl : (0xff : UInt8) = c' := Option.some.inj (hc.symm.trans hc')
      simp [holds] at hholds'
    · rw [if_pos hfree]
      cases hnewSft : s.getSft newHandle with
      | none =>
        rw [dosClose_none hnewSft]
        exact h
      | some j =>
        have hclosed := dosClose_spec hw hnewSft
        generalize dosClose k s newHandle = r at hclosed ⊢
        obtain ⟨-, -, -, hopen'⟩ := getSft_some hnewSft
        obtain ⟨hj, hjcount⟩ := isOpen_iff.mp hopen'
        have hjword := h.word j hj
        rw [if_neg (not_not.mpr hclosed.result)]
        have hjft : r.2.jft s.cuPsp = (s.jft s.cuPsp).set newHandle 0xff := by
          rw [hclosed.jft, setHandle_jft_self]
        have hdec := Share.dec16_eq (Nat.pos_of_ne_zero hjcount) hjword
        refine hlink r.2 (hclosed.balanced hnewSft hjword) hclosed.cuPsp ?_ ?_ ?_ fun i hi => ?_
        · rw [hjft, List.getElem?_set_ne hne.symm, hb]
        · rw [hjft, List.getElem?_set_self hnew]
        · rw [hclosed.count]
          split
          · rename_i hji
            subst hji
            have := hsmall idx hidx
            omega
          · rename_i hji
            refine hroom.resolve_right fun hsame => hji ?_
            exact Option.some.inj (hsame.symm.trans hnewSft)
        · rw [hclosed.count]
          split
          · have := hsmall j hj
            omega
          · exact hsmall i hi

theorem Counted.dosDup (h : Counted s) (hw : Works s k) (handle : ℕ)
    (hok : ∀ idx, s.getSft handle = some idx → (s.sys.sft idx).count + 1 < 2 ^ 15) :
    Counted (dosDup k s handle).2 := by
  rw [Handle.dosDup]
  cases hfree : s.getFreeHndl with
  | none => exact h
  | some newHandle =>
    have hnew := getFreeHndl_some hfree
    obtain ⟨hlt, -⟩ := List.getElem?_eq_some_iff.mp hnew
    refine h.dosForceDup hw hlt fun idx hidx => ⟨?_, Or.inl (hok idx hidx)⟩
    -- the old handle is in use
    rintro rfl
    obtain ⟨b, hb, hholds, -⟩ := getSft_some hidx
    obtain rfl : b = 0xff := Option.some.inj (hb.symm.trans hnew)
    simp [holds] at hholds

/-! ## A child -/

/-- The handle has an SFT that a child process inherits. -/
def State.inherits (s : State) (idx : ℕ) (hndl : ℕ) : Bool :=
  s.getSft hndl == some idx && (s.sys.sft idx).mode &&& oNoinherit == 0

/-- A turn of the loop passes the handle on, or does nothing. -/
theorem childTurn_cases (para : Seg) (s : State) (i : ℕ) :
    (∃ idx b, s.inherits idx i = true ∧ (s.jft s.cuPsp)[i]? = some b ∧ holds idx b = true ∧
        childTurn para s i = (s.setHandle para i b).modifyCount idx inc16) ∨
      (∀ idx, s.inherits idx i = false) ∧ childTurn para s i = s := by
  rw [childTurn, cloneHandle]
  cases hsft : s.getSft i with
  | none => exact Or.inr ⟨fun idx => by simp [State.inherits, hsft], rfl⟩
  | some idx =>
    dsimp only
    obtain ⟨b, hb, hholds, -⟩ := getSft_some hsft
    split
    · rename_i hmode
      refine Or.inr ⟨fun j => ?_, rfl⟩
      rw [State.inherits, hsft]
      by_cases hj : idx = j
      · subst hj
        simpa using hmode
      · simp [hj]
    · rename_i hmode
      refine Or.inl ⟨idx, b, ?_, hb, hholds, ?_⟩
      · simpa [State.inherits, hsft] using hmode
      · have hget : ((s.modifyCount idx inc16).jft s.cuPsp).getD i 0xff = b := getD_of_getElem? hb
        exact congrArg ((s.modifyCount idx inc16).setHandle para i) hget

theorem inherits_congr (hjft : s'.jft s'.cuPsp = s.jft s.cuPsp) (hsys : s'.sys = s.sys)
    (idx i : ℕ) : s'.inherits idx i = s.inherits idx i := by
  have hopen : s'.isOpen = s.isOpen := by
    funext j
    rw [State.isOpen, State.isOpen, hsys]
  rw [State.inherits, State.inherits, State.getSft, State.getSft, hjft, hsys, hopen]

/-- Number of handles among the first `n` that pass an SFT on. -/
def State.passes (s : State) (idx n : ℕ) : ℕ := (List.range n).countP (s.inherits idx)

theorem passes_succ (s : State) (idx n : ℕ) :
    s.passes idx (n + 1) = s.passes idx n + if s.inherits idx n = true then 1 else 0 := by
  rw [State.passes, List.range_succ, List.countP_append, List.countP_singleton]
  rfl

theorem passes_mono (s : State) (idx : ℕ) {n m : ℕ} (h : n ≤ m) : s.passes idx n ≤ s.passes idx m :=
  (List.range_sublist.mpr h).countP_le

theorem isOpen_of_inherits {idx i : ℕ} (h : s.inherits idx i = true) : s.isOpen idx = true := by
  rw [State.inherits, Bool.and_eq_true, beq_iff_eq] at h
  obtain ⟨-, -, -, hopen⟩ := getSft_some h.1
  exact hopen

/-- The state after `n` turns of the loop for a PSP at `para` that began in `s`. -/
structure HasPassed (para : Seg) (s : State) (n : ℕ) (s' : State) : Prop where
  cuPsp : s'.cuPsp = s.cuPsp
  own : s'.jft s.cuPsp = s.jft s.cuPsp
  mode : ∀ i, (s'.sys.sft i).mode = (s.sys.sft i).mode
  unused : ∀ i, n ≤ i → i < 20 → (s'.jft para)[i]? = some 0xff
  count : ∀ idx, (s'.sys.sft idx).count = (s.sys.sft idx).count + s.passes idx n
  balanced : Balanced s s'

theorem HasPassed.inherits {para : Seg} {n : ℕ} (h : HasPassed para s n s') (idx i : ℕ) :
    s'.inherits idx i = s.inherits idx i := by
  have hopen : ∀ j, s'.isOpen j = s.isOpen j := by
    intro j
    rw [State.isOpen, State.isOpen, h.balanced.total, h.count]
    by_cases hj : (s.sys.sft j).count = 0
    · -- no handle passes on an SFT that is not open
      have hnone : s.passes j n = 0 := by
        rw [State.passes, List.countP_eq_zero]
        intro i _ hi
        exact (isOpen_iff.mp (isOpen_of_inherits hi)).2 hj
      rw [hj, hnone]
    · rw [bne_iff_ne.mpr hj, bne_iff_ne.mpr (by omega)]
  have hsft : s'.getSft i = s.getSft i := by
    rw [State.getSft, State.getSft, h.cuPsp, h.own]
    simp only [hopen]
  rw [State.inherits, State.inherits, hsft, h.mode]

theorem HasPassed.turn {para : Seg} {n : ℕ} (h : HasPassed para s n s') (hpara : para ≠ s.cuPsp)
    (hn : n < 20) (hword : ∀ idx < s.sys.total, (s.sys.sft idx).count + s.passes idx 20 < 2 ^ 15) :
    HasPassed para s (n + 1) (childTurn para s' n) := by
  rcases childTurn_cases para s' n with ⟨idx, b, hinh, hb, hholds, heq⟩ | ⟨hnone, heq⟩
  · have hopen := isOpen_iff.mp (isOpen_of_inherits hinh)
    rw [h.inherits] at hinh
    have hidx : idx < s.sys.total := h.balanced.total ▸ hopen.1
    have hroom : (s'.sys.sft idx).count + 1 < 2 ^ 15 := by
      have hle := passes_mono s idx (n := n + 1) (m := 20) hn
      have := hword idx hidx
      rw [passes_succ, if_pos hinh] at hle
      rw [h.count]
      omega
    have hlinked := balanced_link (h.unused n (Nat.le_refl n) hn) hholds (hroom.trans (by decide))
    rw [heq]
    refine ⟨h.cuPsp, ?_, fun i => ?_, fun i hi hi' => ?_, fun i => ?_, hlinked.total.trans
      h.balanced.total, fun i hi => (hlinked.surplus i (h.balanced.total ▸ hi)).trans
        (h.balanced.surplus i hi)⟩
    · rw [← h.own]
      exact Function.update_of_ne (Ne.symm hpara) _ _
    · rw [← h.mode i]
      by_cases hi : i = idx
      · simp [State.modifyCount, State.setSft, State.setHandle, hi]
      · simp [State.modifyCount, State.setSft, State.setHandle, hi]
    · simp only [State.modifyCount, State.setSft, State.setHandle, Function.update_self]
      rw [List.getElem?_set_ne (by omega)]
      exact h.unused i (by omega) hi'
    · rw [modifyCount_count, passes_succ]
      change (if i = idx then inc16 (s'.sys.sft idx).count else (s'.sys.sft i).count) = _
      split
      · rename_i hi
        rw [Share.inc16_eq (hroom.trans (by decide)), h.count, hi, if_pos hinh]
        omega
      · rename_i hi
        have hinh' : s.inherits i n = false := by
          rw [State.inherits, Bool.and_eq_true, beq_iff_eq] at hinh
          rw [State.inherits, hinh.1]
          simp [Ne.symm hi]
        rw [h.count, hinh']
        rfl
  · rw [heq]
    refine ⟨h.cuPsp, h.own, h.mode, fun i hi hi' => h.unused i (by omega) hi', fun i => ?_,
      h.balanced⟩
    rw [h.count, passes_succ, ← h.inherits, hnone]
    rfl

/-- The PSP that a child's is made over has no handle of an SFT. -/
def State.unusedPsp (s : State) (para : Seg) : Prop :=
  ∀ b ∈ s.jft para, ∀ idx < s.sys.total, holds idx b = false

/-- **A child keeps the account.** -/
theorem Counted.childPsp (h : Counted s) {para : Seg} (hpsp : s.unusedPsp para)
    (hword : ∀ idx < s.sys.total, (s.sys.sft idx).count + s.passes idx 20 < 2 ^ 15) :
    Counted (childPsp s para) := by
  rw [Handle.childPsp]
  generalize hs₀ : ({ s with jft := Function.update s.jft para (List.replicate 20 0xff) } : State)
    = s₀
  have hslots : s₀.jft para = List.replicate 20 0xff := by
    rw [← hs₀]
    exact Function.update_self ..
  have hbal : Balanced s s₀ := by
    have hhandles : ∀ idx < s.sys.total, s₀.handles idx = s.handles idx := by
      intro idx hidx
      refine Finset.sum_congr rfl fun q _ => ?_
      by_cases hq : q = para
      · have hold : (s.jft para).countP (holds idx) = 0 :=
          List.countP_eq_zero.mpr fun b hb => Bool.eq_false_iff.mp (hpsp b hb idx hidx)
        rw [hq, hslots, hold, List.countP_eq_zero]
        intro b hb
        rw [List.eq_of_mem_replicate hb]
        simp [holds]
      · rw [← hs₀]
        dsimp only
        rw [Function.update_of_ne hq]
    refine ⟨by rw [← hs₀], fun idx hidx => ?_⟩
    rw [State.surplus, State.surplus, hhandles idx hidx, ← hs₀]
  have hsys : s₀.sys = s.sys := by rw [← hs₀]
  by_cases hpara : para = s.cuPsp
  · -- there are no handles to pass on
    have hturn : ∀ i, childTurn para s₀ i = s₀ := by
      intro i
      rcases childTurn_cases para s₀ i with ⟨idx, b, -, hb, hholds, -⟩ | ⟨-, heq⟩
      · have hcu : s₀.cuPsp = para := by rw [hpara, ← hs₀]
        rw [hcu, hslots] at hb
        rw [List.eq_of_mem_replicate (List.mem_of_getElem? hb)] at hholds
        simp [holds] at hholds
      · exact heq
    rw [List.foldl_fixed' hturn]
    exact h.of_balanced hbal fun idx hidx => by
      have := hword idx hidx
      rw [hsys]
      omega
  · have hinh : ∀ idx i, s₀.inherits idx i = s.inherits idx i := by
      intro idx i
      have hjft : s₀.jft s₀.cuPsp = s.jft s.cuPsp := by
        rw [← hs₀]
        exact Function.update_of_ne (Ne.symm hpara) _ _
      exact inherits_congr hjft hsys idx i
    have hpasses : ∀ idx n, s₀.passes idx n = s.passes idx n := by
      intro idx n
      rw [State.passes, State.passes]
      exact List.countP_congr fun i _ => by rw [hinh]
    have hword₀ : ∀ idx < s₀.sys.total, (s₀.sys.sft idx).count + s₀.passes idx 20 < 2 ^ 15 := by
      intro idx hidx
      rw [hpasses, hsys]
      exact hword idx (hsys ▸ hidx)
    have hrun : ∀ n ≤ 20, HasPassed para s₀ n ((List.range n).foldl (childTurn para) s₀) := by
      intro n
      induction n with
      | zero =>
        refine fun _ => ⟨rfl, rfl, fun _ => rfl, fun i _ hi => ?_, fun _ => rfl, .refl s₀⟩
        rw [List.range_zero, List.foldl_nil, hslots, List.getElem?_replicate, if_pos hi]
      | succ n ih =>
        intro hn
        rw [List.range_succ, List.foldl_append]
        refine (ih (by omega)).turn ?_ hn hword₀
        rw [← hs₀]
        exact hpara
    have hpassed := hrun 20 (Nat.le_refl 20)
    refine h.of_balanced ⟨hpassed.balanced.total.trans hbal.total, fun i hi => ?_⟩ fun i hi => ?_
    · exact (hpassed.balanced.surplus i (hbal.total ▸ hi)).trans (hbal.surplus i hi)
    · rw [hpassed.count]
      exact hword₀ i (hbal.total ▸ hi)

/-! ## Runs -/

/-- Drivers and disk succeed, and the new handle of a forced duplicate exists. -/
def Fair (s : State) (c : Call) : Prop :=
  Works s c.env ∧
    match c.request with
    | .forceDup _ newHandle => newHandle < (s.jft c.psp).length
    | _ => True

/-- The call does not make the kernel lose count, by one of the four ways. -/
def KeepsCount (s : State) (c : Call) : Prop :=
  let s := { s with cuPsp := c.psp }
  match c.request with
  | .open .. => ∀ idx, s.getFreeSft = some idx → idx < 0xff
  | .dup handle => ∀ idx, s.getSft handle = some idx → (s.sys.sft idx).count + 1 < 2 ^ 15
  | .forceDup oldHandle newHandle => ∀ idx, s.getSft oldHandle = some idx →
      oldHandle ≠ newHandle ∧
        ((s.sys.sft idx).count + 1 < 2 ^ 15 ∨ s.getSft newHandle = some idx)
  | .child para => s.unusedPsp para ∧
      ∀ idx < s.sys.total, (s.sys.sft idx).count + s.passes idx 20 < 2 ^ 15
  | .close _ => True

theorem Counted.serve (h : Counted s) {c : Call} (hfair : Fair s c) (hok : KeepsCount s c) :
    Counted (serve s c) := by
  obtain ⟨k, psp, request⟩ := c
  obtain ⟨hw, hnew⟩ := hfair
  have h' : Counted { s with cuPsp := psp } := ⟨h.word, h.count⟩
  have hw' : Works { s with cuPsp := psp } k := ⟨hw.charIO, hw.redirects, hw.sound⟩
  cases request with
  | «open» fname mode attrib => exact h'.dosOpen hw' fname mode attrib hok
  | dup handle => exact h'.dosDup hw' handle hok
  | forceDup oldHandle newHandle => exact h'.dosForceDup hw' hnew hok
  | child para => exact h'.childPsp hok.1 hok.2
  | close hndl =>
    change Counted (Handle.dosClose k { s with cuPsp := psp } hndl).2
    cases hsft : State.getSft { s with cuPsp := psp } hndl with
    | none =>
      rw [dosClose_none hsft]
      exact h'
    | some idx =>
      have hclosed := dosClose_spec hw' hsft
      obtain ⟨-, -, -, hopen⟩ := getSft_some hsft
      obtain ⟨hidx, hcount⟩ := isOpen_iff.mp hopen
      have hword := h'.word idx hidx
      refine h'.of_balanced (hclosed.balanced hsft hword) fun i hi => ?_
      have hsmall := h'.eq hi
      rw [hclosed.count]
      split
      · rename_i hii
        rw [Share.dec16_eq (Nat.pos_of_ne_zero hcount) hword]
        subst hii
        omega
      · omega

/-- **The reference counts are right all along a run** whose calls keep count: each is the number of
handles, and an SFT is open exactly if some handle holds it. -/
theorem counted_run (s : State) (calls : List Call) (hs : Counted s)
    (hfair : Along serve Fair s calls) (hok : Along serve KeepsCount s calls) :
    ∀ pre, pre <+: calls →
      Counted (runSteps serve s pre) ∧ ∀ idx < (runSteps serve s pre).sys.total,
        (((runSteps serve s pre).sys.sft idx).count ≠ 0 ↔
          ∃ p, ∃ b ∈ (runSteps serve s pre).jft p, holds idx b = true) := by
  intro pre hpre
  have hboth : Along serve (fun s c => Fair s c ∧ KeepsCount s c) s calls := hfair.and hok
  have h : Counted (runSteps serve s pre) :=
    inv_run (fun _ _ h hc => h.serve hc.1 hc.2) hs (hboth.of_prefix hpre)
  exact ⟨h, fun idx hidx => h.open_iff hidx⟩

/-! ## A handle duplicated onto itself -/

/-- The device `NUL`. -/
def nul : Path.Dhdr where
  attr := 0x8004
  name := ⟨#[0x4e, 0x55, 0x4c, 0x20, 0x20, 0x20, 0x20, 0x20], rfl⟩

/-- Every name is that of `NUL`, and a redirector opens nothing. -/
def nulEnv : Env where
  truename := fun _ => (0x20, Share.fileA)
  isDevice := fun _ => some nul
  charIO := fun _ _ => true
  redirector := fun cmd f r => match cmd with
    | .close => (success, { f with count := dec16 f.count }, r)
    | _ => (deAccess, f, r)
  upFChar := id

theorem nulEnv_redirects : nulEnv.Redirects where
  opened cmd f r hcmd hf := by
    cases cmd with
    | close => exact absurd hcmd (by decide)
    | _ => exact hf.le.trans (Nat.zero_le 1)
  refused cmd f r hcmd hf _ := by
    cases cmd with
    | close => exact absurd hcmd (by decide)
    | _ => exact hf
  closed _ _ _ := ⟨rfl, rfl⟩

/-- A process with two handles, the first of which is `NUL`. -/
def nulState : State where
  sys := File.smallSystem (File.smallVolume (fun _ => Fat.free) []) { zeroSft with count := 1 } zeroSft
  rest := fun i => if i = 0 then ⟨false, some nul, -1, 0⟩ else ⟨false, none, -1, 0⟩
  share := Share.initTables 1 1
  jft := Function.update (fun _ => []) 0 [0, 0xff]
  cuPsp := 0

theorem nulEnv_works {s : State} (h : s.sys.vol = nulState.sys.vol) : Works s nulEnv :=
  ⟨fun _ _ => rfl, nulEnv_redirects, by rw [h]; exact ⟨rfl, rfl⟩⟩

/-- Only one process has handles. -/
theorem handles_single (p : Seg) (l : List UInt8) (h : s.jft = Function.update (fun _ => []) p l)
    (idx : ℕ) : s.handles idx = l.countP (holds idx) := by
  rw [State.handles, Finset.sum_eq_single p, h, Function.update_self]
  · intro q _ hq
    rw [h, Function.update_of_ne hq, List.countP_nil]
  · exact fun hp => absurd (Finset.mem_univ p) hp

theorem nulState_counted : Counted nulState := by
  refine counted_of_eq fun idx hidx => ?_
  rw [handles_single 0 [0, 0xff] rfl]
  change idx < 2 at hidx
  obtain rfl | rfl : idx = 0 ∨ idx = 1 := by omega
  · decide
  · decide

theorem counted_run_nul : Counted nulState ∧
    ∀ pre, pre <+: [⟨nulEnv, 0, .dup 0⟩] →
      Counted (runSteps serve nulState pre) ∧
        ∀ idx < (runSteps serve nulState pre).sys.total,
          (((runSteps serve nulState pre).sys.sft idx).count ≠ 0 ↔
            ∃ p, ∃ b ∈ (runSteps serve nulState pre).jft p, holds idx b = true) := by
  refine ⟨nulState_counted, counted_run nulState _ nulState_counted
    ⟨⟨nulEnv_works rfl, trivial⟩, trivial⟩ ⟨?_, trivial⟩⟩
  intro idx hidx
  obtain rfl : 0 = idx := Option.some.inj hidx
  decide

/-- After `NUL` is duplicated onto its own handle, its SFT has a reference but no handle. -/
theorem forceDup_self_not_counted : ¬ ∀ (s : State) (calls : List Call), Counted s →
    Along serve Fair s calls → ∀ pre, pre <+: calls → Counted (runSteps serve s pre) := by
  intro h
  have hcounted := h nulState [⟨nulEnv, 0, .forceDup 0 0⟩] nulState_counted
    ⟨⟨nulEnv_works rfl, by decide⟩, trivial⟩ _ (List.prefix_refl _)
  have hcount := (@Counted.eq _ hcounted 0 (by decide)).1
  rw [handles_single 0 [0xff, 0xff]] at hcount
  · revert hcount
    decide +kernel
  · have hjft : (runSteps serve nulState [⟨nulEnv, 0, .forceDup 0 0⟩]).jft =
        Function.update (Function.update nulState.jft 0 [0xff, 0xff]) 0 [0xff, 0xff] := rfl
    rw [hjft, Function.update_idem, nulState, Function.update_idem]

end Handle
end BurdahDos
