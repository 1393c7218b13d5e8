import BurdahDos.Memory.Change
import BurdahDos.Memory.Fit
import Mathlib

/-!
# Where blocks begin

What the operations do to a chain that begins anywhere, and not only to the allocated blocks in it:
where blocks begin there still do, unless joining has gone over them, and nothing is written outside
of the chain.
-/

set_option autoImplicit false

namespace BurdahDos
namespace Memory

open Tiling

/-- Memory as a search has left it. -/
def Progress.mem : Progress → Mem
  | .destroyed mem => mem
  | .stopIt s => s.mem
  | .next s => s.mem

/-- The same for a pass. -/
def Pass.mem : Pass → Mem
  | .fail _ _ mem => mem
  | .again mem => mem
  | .found _ _ mem => mem

variable {s : State} {mem mem' : Mem} {a e size fuel root : ℕ} {mode : UInt16}
  {bs bs' pre suf : List Mcb} {b : Mcb}

/-! ## What is written in a region -/

/-- Nothing has been written outside of the region. -/
def SameOutside (a e : ℕ) (mem mem' : Mem) : Prop := ∀ x, x < a ∨ e ≤ x → mem' x = mem x

theorem SameOutside.trans {mem'' : Mem} (h : SameOutside a e mem mem')
    (h' : SameOutside a e mem' mem'') : SameOutside a e mem mem'' :=
  fun x hx => (h' x hx).trans (h x hx)

theorem SameOutside.tiled_low {b : ℕ} (h : SameOutside a e mem mem') (ht : Tiled mem b bs a) :
    Tiled mem' b bs a :=
  ⟨ht.linked.congr fun x _ hx => h x (Or.inl (by rwa [ht.fills] at hx)), ht.ended, ht.fills⟩

theorem SameOutside.tiled_high {b : ℕ} (h : SameOutside a e mem mem') (ht : Tiled mem e bs b) :
    Tiled mem' e bs b :=
  ⟨ht.linked.congr fun x hx _ => h x (Or.inr hx), ht.ended, ht.fills⟩

theorem tryBlock_mem (size : ℕ) (mode : UInt16) (p : ℕ) (t : Search) :
    (tryBlock size mode p t).mem = t.mem := by
  rw [tryBlock]
  simp only
  split_ifs <;> rfl

theorem afterSearch_mem (s : State) (size : ℕ) (mode : UInt16) (t : Search) :
    (afterSearch s size mode t).mem = t.mem := by
  rw [afterSearch]
  split
  · rfl
  · split <;> rfl

/-- One round of the search. -/
theorem visit_frame {t : Search} {q : Progress} (h : Tiled t.mem a (pre ++ b :: suf) e) (ha : 0 < a)
    (he : e ≤ 2 ^ 16) (hq : visit size mode (a + total pre) t = some q) :
    SameOutside a e t.mem q.mem ∧ ∃ b' suf', Tiled q.mem a (pre ++ b' :: suf') e := by
  rw [visit] at hq
  split at hq
  · obtain rfl := Option.some.inj hq
    exact ⟨fun _ _ => rfl, b, suf, h⟩
  · split at hq
    · obtain rfl := Option.some.inj hq
      exact ⟨fun _ _ => rfl, b, suf, h⟩
    · obtain ⟨mem', b', hjoin, hgrown⟩ := joinMCBs_grown h ha he
      rw [hjoin] at hq
      simp only [ne_eq, not_true, if_false, Option.some.injEq] at hq
      have hmem : q.mem = mem' := by rw [← hq, tryBlock_mem]
      rw [hmem]
      exact ⟨fun x hx => hgrown.frame x (by omega), b', _, hgrown.tiled⟩

theorem search_frame {t : Search} {q : Progress} (h : Tiled t.mem a (pre ++ b :: suf) e)
    (ha : 0 < a) (he : e ≤ 2 ^ 16) (hq : search size mode fuel (a + total pre) t = some q) :
    SameOutside a e t.mem q.mem := by
  induction fuel generalizing pre b suf t with
  | zero => cases hq
  | succ fuel ih =>
    rw [search] at hq
    cases hv : visit size mode (a + total pre) t with
    | none =>
      rw [hv] at hq
      cases hq
    | some r =>
      obtain ⟨hframe, b', suf', ht⟩ := visit_frame h ha he hv
      rw [hv] at hq
      cases r with
      | destroyed mem =>
        obtain rfl := Option.some.inj hq
        exact hframe
      | stopIt t =>
        obtain rfl := Option.some.inj hq
        exact hframe
      | next t =>
        simp only at hq
        split at hq
        · obtain rfl := Option.some.inj hq
          exact hframe
        · rename_i hlast
          have ht' : Tiled t.mem a (pre ++ b' :: suf') e := ht
          rw [mem_block ht'] at hlast
          have hne : suf' ≠ [] := fun h0 => hlast (by
            rcases block_type ht' with ⟨-, hl⟩ | ⟨hn, -⟩
            · exact hl
            · exact absurd h0 hn)
          obtain ⟨c, cs, rfl⟩ := List.exists_cons_of_ne_nil hne
          rw [nxtMCB_eq ht' he hne] at hq
          have hnext : Tiled t.mem a ((pre ++ [b']) ++ c :: cs) e := by simpa using ht'
          exact SameOutside.trans hframe (ih hnext hq)

/-- A pass writes only in the chain that it searches. -/
theorem pass_frame {q : Pass} (h : Arena s (pre ++ b :: suf) e) (ha : 0 < s.firstMcb)
    (hfrom : searchFrom s size mode = s.firstMcb + total pre)
    (hq : pass s size mode = some q) : SameOutside s.firstMcb e s.mem q.mem := by
  rw [pass, hfrom] at hq
  cases hs : search size mode chainFuel (s.firstMcb + total pre) ⟨s.mem, none, none⟩ with
  | none =>
    rw [hs] at hq
    cases hq
  | some r =>
    have hframe : SameOutside s.firstMcb e s.mem r.mem :=
      search_frame (t := ⟨s.mem, none, none⟩) h.tiled ha h.fits hs
    rw [hs] at hq
    cases r with
    | destroyed mem =>
      obtain rfl := Option.some.inj hq
      exact hframe
    | stopIt t =>
      obtain rfl := Option.some.inj hq
      exact hframe
    | next t =>
      obtain rfl := Option.some.inj hq
      rw [afterSearch_mem]
      exact hframe

/-- The block that is found is replaced by one or two. -/
theorem carve_chain (mode cuPsp : UInt16) (h : Tiled mem a (pre ++ b :: suf) e) (he : e ≤ 2 ^ 16)
    (hsize : size ≤ b.mSize) :
    ∃ mid, mid ≠ [] ∧ total mid = total [b] ∧
      Tiled (carve mem size mode cuPsp (a + total pre)).2 a (pre ++ (mid ++ suf)) e ∧
      (∃ k, At (a + total pre) mid (carve mem size mode cuPsp (a + total pre)).1 k) ∧
      SameOutside a e mem (carve mem size mode cuPsp (a + total pre)).2 := by
  have hb := mem_block h
  have hend := block_end h
  by_cases hsplit : mode ≠ largest ∧ size ≠ b.mSize
  · have hlt : size < b.mSize := lt_of_le_of_ne hsize hsplit.2
    by_cases hlast : mode = lastFit ∨ mode = lastFitUo ∨ mode = lastFitU
    · have happ := carve_last cuPsp hb (by omega) hlt hlast
      have hne : a + total pre ≠ a + total pre + (b.mSize - (size + 1) + 1) := by omega
      obtain ⟨htiled, -⟩ := split_spec h ((happ _).trans ((if_neg hne).trans (if_pos rfl)))
        ((happ _).trans (if_pos rfl)) (by simp only; omega) rfl rfl
        fun x hx hx' => (happ x).trans ((if_neg hx').trans (if_neg hx))
      refine ⟨[_, _], List.cons_ne_nil _ _, ?_, htiled, ?_, fun x hx => ?_⟩
      · simp only [total, size_mcb]
        omega
      · have hlast' : IsLast mode := hlast.imp_right Or.symm
        rw [carve_last_seg cuPsp hb (by omega) hlt hlast']
        exact ⟨_, at_cons.mpr (Or.inr (at_cons.mpr (Or.inl ⟨rfl, rfl⟩)))⟩
      · rw [happ, if_neg (by omega), if_neg (by omega)]
    · have happ := carve_first cuPsp hb (by omega) hlt hsplit.1 hlast
      have hne : a + total pre + (size + 1) ≠ a + total pre := by omega
      obtain ⟨htiled, -⟩ := split_spec h ((happ _).trans (if_pos rfl))
        ((happ _).trans ((if_neg hne).trans (if_pos rfl))) (by simp only; omega) rfl rfl
        fun x hx hx' => (happ x).trans ((if_neg hx).trans (if_neg hx'))
      refine ⟨[_, _], List.cons_ne_nil _ _, ?_, htiled, ?_, fun x hx => ?_⟩
      · simp only [total, size_mcb]
        omega
      · have hlast' : ¬ IsLast mode := fun h0 => hlast (h0.imp_right Or.symm)
        rw [carve_first_seg cuPsp (Or.inr hlast')]
        exact ⟨_, at_cons.mpr (Or.inl ⟨rfl, rfl⟩)⟩
      · rw [happ, if_neg (by omega), if_neg (by omega)]
  · rw [carve, hb, if_neg hsplit]
    have hmem := fun x => modify_apply mem (a + total pre) x fun m =>
      { m with mPsp := cuPsp, mName := m.mName.set 0 0 }
    obtain ⟨htiled, -⟩ := retag_spec h ((hmem _).trans (if_pos rfl)) (by simp only [hb])
      (by simp only [hb]) fun x hx => (hmem x).trans (if_neg hx)
    exact ⟨[_], List.cons_ne_nil _ _, by simp only [total, size_mcb, hb], htiled,
      ⟨_, at_cons.mpr (Or.inl ⟨rfl, rfl⟩)⟩, fun x hx => (hmem x).trans (if_neg (by omega))⟩

/-! ## Where blocks begin -/

/-- A block that is not among those replaced still begins where it did. -/
theorem starts_replace {mid : List Mcb} (hne : mid ≠ []) (htotal : total mid = total [b]) {y : ℕ}
    (hy : ∃ h, At a (pre ++ b :: suf) y h) : ∃ h, At a (pre ++ (mid ++ suf)) y h := by
  obtain ⟨h, hat⟩ := hy
  have hat' : At a (pre ++ ([b] ++ suf)) y h := hat
  rcases hat'.replace htotal with hat | hat
  · rcases at_cons.mp hat with ⟨rfl, -⟩ | ⟨l, r, hlr, -⟩
    · obtain ⟨c, cs, rfl⟩ := List.exists_cons_of_ne_nil hne
      exact ⟨c, pre, cs ++ suf, rfl, rfl⟩
    · simp at hlr
  · exact ⟨h, hat⟩

/-- What a pass of `DosMemAlloc` finds, for all sizes and modes. -/
def Scans (s : State) (bs : List Mcb) (e size : ℕ) : Pass → Prop
  | .fail _ _ mem => ∃ bs', Coalesced s.mem s.firstMcb e bs mem bs'
  | .again mem => ∃ bs', Coalesced s.mem s.firstMcb e bs mem bs'
  | .found f _ mem => ∃ bs' k, Coalesced s.mem s.firstMcb e bs mem bs' ∧ At s.firstMcb bs' f k ∧
      size ≤ k.mSize

theorem afterSearch_scans {t : Search} (h : Coalesced s.mem s.firstMcb e bs t.mem bs')
    (hfound : ∀ f, t.foundSeg = some f → ∃ k, At s.firstMcb bs' f k ∧ size ≤ k.mSize)
    (hbig : ∀ f, t.biggestSeg = some f → ∃ k, At s.firstMcb bs' f k) :
    Scans s bs e size (afterSearch s size mode t) := by
  rw [afterSearch]
  split
  · rename_i f hf
    rcases Option.or_eq_some_iff.mp (Option.filter_eq_some_iff.mp hf).1 with hb | ⟨-, hb⟩
    · split at hb
      · obtain ⟨hb, hle⟩ := Option.filter_eq_some_iff.mp hb
        obtain ⟨k, hk⟩ := hbig f hb
        rw [h.tiled.linked.mem_eq hk] at hle
        exact ⟨bs', k, h, hk, of_decide_eq_true hle⟩
      · cases hb
    · obtain ⟨k, hk⟩ := hfound f hb
      exact ⟨bs', k, h, hk⟩
  · split
    · exact ⟨bs', h⟩
    · exact ⟨bs', h⟩

theorem pass_scans (h : Arena s (pre ++ b :: suf) e) (ha : 0 < s.firstMcb)
    (hfrom : searchFrom s size mode = s.firstMcb + total pre) :
    ∃ q, pass s size mode = some q ∧ Scans s (pre ++ b :: suf) e size q := by
  obtain ⟨r, hr, hends⟩ := search_from h.tiled ha h.fits size mode
  rw [pass, hfrom, hr]
  cases r with
  | destroyed mem => exact absurd hends id
  | stopIt t =>
    obtain ⟨-, r, bs', k, hchosen, hfound, hco, hat, -, hk⟩ := hends
    refine ⟨_, rfl, bs', k, hco, ?_, ?_⟩
    · rw [hfound]
      exact hat
    · rw [hk]
      exact hchosen.fits
  | next t =>
    obtain ⟨hco, hvars⟩ := hends
    have hplace : ∀ r ∈ frees Free (s.firstMcb + total pre) (joined Free mergeMcb (b :: suf)),
        ∃ k, At s.firstMcb (pre ++ joined Free mergeMcb (b :: suf)) r.1 k ∧ k.mSize = r.2 := by
      intro r hr
      obtain ⟨k, hat, -, hk⟩ := mem_frees.mp hr
      exact ⟨k, at_append.mpr (Or.inr hat), hk⟩
    refine ⟨_, rfl, afterSearch_scans hco (fun f hf => ?_) fun f hf => ?_⟩
    · rcases hvars.found with ⟨hnone, -⟩ | ⟨-, r, hchosen, hfound⟩
      · rw [hnone] at hf
        cases hf
      · obtain ⟨k, hat, hk⟩ := hplace r hchosen.mem
        obtain rfl := Option.some.inj (hfound.symm.trans hf)
        exact ⟨k, hat, hk ▸ hchosen.fits⟩
    · rcases hvars.biggest with ⟨hnone, -⟩ | ⟨r, hr, hbig, -⟩
      · rw [hnone] at hf
        cases hf
      · obtain ⟨k, hat, -⟩ := hplace r hr
        obtain rfl := Option.some.inj (hbig.symm.trans hf)
        exact ⟨k, hat⟩

/-- The block at `root` survives joining, if it is not joined to the one before. -/
theorem Coalesced.root_kept (h : Coalesced mem a e bs mem' bs') (hroot : ∃ k, At a bs root k)
    (hf : ¬ Follows root a bs) : ∃ k, At a bs' root k := by
  have hblock := (rootKept_whole hroot hf).block
  rw [← h.joined] at hblock
  exact starts_joined merges_mcb hblock

/-- What `DosMemAlloc` makes of the chain, and where the block is that it gives away. -/
structure Allocated (s : State) (bs : List Mcb) (e : ℕ) (answer : Answer) (mem' : Mem)
    (bs' : List Mcb) : Prop where
  tiled : Tiled mem' s.firstMcb bs' e
  root_kept : (∃ k, At s.firstMcb bs s.uppermemRoot k) → ¬ Follows s.uppermemRoot s.firstMcb bs →
    ∃ k, At s.firstMcb bs' s.uppermemRoot k
  para : ∀ p, answer.para = some p → ∃ k, At s.firstMcb bs' p k
  outside : SameOutside s.firstMcb e s.mem mem'

/-- The end of `DosMemAlloc`. -/
theorem finish_allocated {q : Pass} (m : Mem) (he : e ≤ 2 ^ 16) (hq : Scans s bs e size q)
    (hagain : ∀ mem, q ≠ .again mem) (hframe : SameOutside s.firstMcb e s.mem q.mem) :
    ∃ answer mem bs',
      finish { s with mem := m } size mode q = some (answer, { s with mem := mem }) ∧
        Allocated s bs e answer mem bs' := by
  cases q with
  | fail rc asize mem =>
    obtain ⟨bs', hco⟩ := hq
    exact ⟨_, _, bs', rfl, hco.tiled, hco.root_kept, fun p hp => (nomatch hp), hframe⟩
  | again mem => exact absurd rfl (hagain mem)
  | found f asize mem =>
    obtain ⟨bs', k, hco, ⟨pre, suf, rfl, rfl⟩, hsize⟩ := hq
    obtain ⟨mid, hne, htotal, htiled, hpara, hframe'⟩ :=
      carve_chain mode s.cuPsp hco.tiled he hsize
    refine ⟨_, _, pre ++ (mid ++ suf), rfl, htiled, fun hroot hf => ?_, fun p hp => ?_,
      hframe.trans hframe'⟩
    · exact starts_replace hne htotal (hco.root_kept hroot hf)
    · obtain ⟨c, hc⟩ := hpara
      obtain rfl := Option.some.inj hp
      exact ⟨c, at_append.mpr (Or.inr (at_append.mpr (Or.inl hc)))⟩

/-- A search begins at a block of the chain. -/
theorem searchFrom_block (h : Arena s bs e)
    (hroot : s.upperLinked = true → ∃ k, At s.firstMcb bs s.uppermemRoot k) (size : ℕ)
    (mode : UInt16) :
    ∃ pre b suf, bs = pre ++ b :: suf ∧ searchFrom s size mode = s.firstMcb + total pre := by
  have hat : ∃ k, At s.firstMcb bs (searchFrom s size mode) k := by
    cases hl : s.upperLinked with
    | true =>
      rcases searchFrom_eq s size mode with hx | hx
      · rw [hx]
        exact hroot hl
      · rw [hx]
        exact at_first h.tiled
    | false =>
      rw [show searchFrom s size mode = s.firstMcb by simp [searchFrom, hl]]
      exact at_first h.tiled
  obtain ⟨k, pre, suf, hbs, hx⟩ := hat
  exact ⟨pre, k, suf, hbs, hx⟩

/-- **What `DosMemAlloc` does** to a chain, for all sizes and modes. -/
theorem dosMemAlloc_allocated (h : Arena s bs e) (ha : 0 < s.firstMcb)
    (hroot : s.upperLinked = true →
      (∃ k, At s.firstMcb bs s.uppermemRoot k) ∧ ¬ Follows s.uppermemRoot s.firstMcb bs)
    (size : ℕ) (mode : UInt16) :
    ∃ answer mem bs', dosMemAlloc s size mode = some (answer, { s with mem := mem }) ∧
      Allocated s bs e answer mem bs' := by
  obtain ⟨pre, b, suf, rfl, hfrom⟩ := searchFrom_block h (fun hl => (hroot hl).1) size mode
  obtain ⟨q, hq, hscans⟩ := pass_scans h ha hfrom
  have hframe := pass_frame h ha hfrom hq
  rw [dosMemAlloc, hq]
  cases q with
  | fail => exact finish_allocated s.mem h.fits hscans (fun _ h => (by cases h)) hframe
  | found => exact finish_allocated s.mem h.fits hscans (fun _ h => (by cases h)) hframe
  | again mem =>
    obtain ⟨bs', hco⟩ := hscans
    have harena : Arena { s with mem := mem } bs' e := ⟨hco.tiled, h.fits⟩
    obtain ⟨pre', b', suf', rfl, hfrom'⟩ := searchFrom_block harena
      (fun hl => hco.root_kept (hroot hl).1 (hroot hl).2) size (mode &&& ~~~firstFitU)
    obtain ⟨q', hq', hscans'⟩ := pass_scans harena ha hfrom'
    have hframe' : SameOutside s.firstMcb e mem q'.mem := pass_frame harena ha hfrom' hq'
    have hagain : ∀ mem, q' ≠ .again mem := by
      rintro mem rfl
      exact (pass_again hq').2.1 (clear_firstFitU mode)
    -- what the second pass finds, from the first one on
    have hboth : Scans s (pre ++ b :: suf) e size q' := by
      cases q' with
      | fail rc asize mem' =>
        obtain ⟨cs, hcs⟩ := hscans'
        exact ⟨cs, hco.trans hcs⟩
      | again mem' => exact absurd rfl (hagain mem')
      | found f asize mem' =>
        obtain ⟨cs, k, hcs, hk⟩ := hscans'
        exact ⟨cs, k, hco.trans hcs, hk⟩
    simp only [hq']
    exact finish_allocated mem h.fits hboth hagain (SameOutside.trans hframe hframe')

/-! ## Resizing -/

/-- The block at `root` is not among the free ones behind `b`. -/
def Clear (root a : ℕ) (pre : List Mcb) (b : Mcb) (suf : List Mcb) : Prop :=
  ¬ ∃ k, At (a + total (pre ++ [b])) (freeRun suf) root k

theorem shrinkTo_firstMcb (s : State) (f p size : ℕ) :
    shrinkTo { s with firstMcb := f } p size =
      (shrinkTo s p size).map fun r => (r.1, { r.2 with firstMcb := f }) := by
  rw [shrinkTo, shrinkTo]
  dsimp only
  split
  · cases joinMCBs (cutDown s.mem p (nxtMCBsize p size) size) (nxtMCBsize p size) with
    | none => rfl
    | some r =>
      dsimp only
      split <;> rfl
  · rfl

/-- `DosMemChange` does not look at `first_mcb`. -/
theorem dosMemChange_firstMcb (s : State) (f para size : ℕ) :
    dosMemChange { s with firstMcb := f } para size =
      (dosMemChange s para size).map fun r => (r.1, { r.2 with firstMcb := f }) := by
  rw [dosMemChange, dosMemChange]
  dsimp only
  split
  · rfl
  · split
    · cases joinMCBs s.mem (sub16 para 1) with
      | none => rfl
      | some r =>
        dsimp only
        split
        · rfl
        · split
          · rfl
          · exact shrinkTo_firstMcb { s with mem := r.2 } f _ _
    · exact shrinkTo_firstMcb s f _ _

/-- The blocks in the place of `b` and the free ones behind it take the same room. -/
theorem starts_resized {rest : List Mcb} {b' : Mcb} (h : Tiled mem a (pre ++ b :: suf) e)
    (h' : Tiled mem' a (pre ++ b' :: (rest ++ afterRun suf)) e) {y : ℕ}
    (hy : ∃ k, At a (pre ++ b :: suf) y k) (hclear : Clear y a pre b suf) :
    ∃ k, At a (pre ++ b' :: (rest ++ afterRun suf)) y k := by
  have hend := block_end h
  have hend' := block_end h'
  obtain ⟨k, hk⟩ := hy
  rcases at_append.mp hk with hk | hk
  · exact ⟨k, at_append.mpr (Or.inl hk)⟩
  · rcases at_cons.mp hk with ⟨rfl, -⟩ | hk
    · exact ⟨b', at_append.mpr (Or.inr (at_cons.mpr (Or.inl ⟨rfl, rfl⟩)))⟩
    · rw [← freeRun_append suf] at hk hend
      rcases at_append.mp hk with hk | hk
      · refine absurd ⟨k, ?_⟩ hclear
        simpa [total, Nat.add_assoc] using hk
      · refine ⟨k, at_append.mpr (Or.inr (at_cons.mpr (Or.inr (at_append.mpr (Or.inr ?_)))))⟩
        have hplace : a + total pre + (Header.size b' + 1) + total rest =
            a + total pre + (Header.size b + 1) + total (freeRun suf) := by
          simp only [total_append, size_mcb] at hend hend' ⊢
          omega
        rwa [hplace]

/-- **What `DosMemChange` does** to a chain, whether it begins at `first_mcb` or not. -/
theorem dosMemChange_chain {para : ℕ} (h : Tiled s.mem a (pre ++ b :: suf) e) (ha : 0 < a)
    (he : e ≤ 2 ^ 16) (hpara : sub16 para 1 = a + total pre) (size : ℕ) :
    ∃ answer mem bs', dosMemChange s para size = some (answer, { s with mem := mem }) ∧
      Tiled mem a bs' e ∧ SameOutside a e s.mem mem ∧
      ∀ y, (∃ k, At a (pre ++ b :: suf) y k) → Clear y a pre b suf → ∃ k, At a bs' y k := by
  have harena : Arena { s with firstMcb := a } (pre ++ b :: suf) e := ⟨h, he⟩
  obtain ⟨answer, s', hs', hcases⟩ := dosMemChange_cases harena ha hpara size
  obtain ⟨mem, b', rest, rfl, hnew, hframe⟩ : ∃ mem b' rest,
      s' = { { s with firstMcb := a } with mem := mem } ∧
        Tiled mem a (pre ++ b' :: (rest ++ afterRun suf)) e ∧
        ∀ x, x < a + total pre ∨ e ≤ x → mem x = s.mem x := by
    rcases hcases with ⟨-, -, mem, b', rest, rfl, hnew, -, -, -, hframe⟩ |
      ⟨-, -, -, mem, b', rfl, hnew, -, -, -, -, hframe⟩
    · exact ⟨mem, b', rest, rfl, hnew.tiled, hframe⟩
    · exact ⟨mem, b', [], rfl, hnew.tiled, hframe⟩
  refine ⟨answer, mem, _, ?_, hnew, fun x hx => hframe x (by omega), fun y hy hclear =>
    starts_resized h hnew hy hclear⟩
  have hlift := dosMemChange_firstMcb { s with firstMcb := a } s.firstMcb para size
  rw [hs'] at hlift
  exact hlift

end Memory
end BurdahDos
