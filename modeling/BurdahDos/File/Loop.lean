import BurdahDos.File.Transfer
import Mathlib

/-!
# The loop of `rwblock`

Turn after turn, the loop maps the position to a cluster and transfers what it can from there.  What
it leaves is told in terms of the number of bytes that are done, `Looped`: the fnode is placed in a
chain that contains the old one, a write makes the file no larger than it has to be, and if nothing
fails the bytes are where they belong and the loop stops early only at the end of the file or on a
full disk.
-/

set_option autoImplicit false

namespace BurdahDos
namespace File

open Fat

variable {s : System} {L L' : List ℕ} {fnp : FNode} {mode : XfrMode}

/-- Why a loop that meets no failing transfer ends before it is done, at the position `p`. -/
def Stops (mode : XfrMode) (fnp : FNode) (v' : Volume) (L' : List ℕ) (p : ℕ) : Prop :=
  mode = .read ∧ (fnp.dir.size ≤ p ∨ L'.length * v'.dpb.clusterSize ≤ p) ∨
    mode = .write ∧ v'.freeCount = 0 ∧ L'.length * v'.dpb.clusterSize ≤ p

/-- What a turn leaves. -/
structure Turned (mode : XfrMode) (fnp : FNode) (s : System) (L L' : List ℕ) (buffer : Bytes)
    (ret toXfer : ℕ) (r : Turn × FNode × Bytes × System) : Prop where
  grown : Grown L L' s.vol r.2.2.2.vol
  placed : Placed r.2.2.2.vol.dpb L' r.2.1
  walked : Walked fnp r.2.1
  told : OnlyTold fnp.sftIdx s r.2.2.2
  read : mode = .read → L' = L ∧ r.2.2.2.sft = s.sft
  turn : (∃ n, r.1 = .transferred n ∧ 0 < n ∧ n ≤ toXfer ∧ r.2.1.offset = fnp.offset + n ∧
      fnp.offset + n ≤ L'.length * s.vol.dpb.clusterSize ∧
      (mode = .read → fnp.offset + n ≤ fnp.dir.size) ∧
      (s.vol.outcomes = [] → r.2.2.2.vol.outcomes = [] ∧
        Effect mode s.vol.dpb L' fnp.offset n ret buffer r.2.2.1 s.vol.disk r.2.2.2.vol.disk)) ∨
    ∃ code, r.1 = .exit code ∧ r.2.1.offset = fnp.offset ∧ (s.vol.outcomes = [] → code = ret ∧
      r.2.2.2.vol.outcomes = [] ∧ r.2.2.1 = buffer ∧ r.2.2.2.vol.disk = s.vol.disk ∧
      Stops mode fnp r.2.2.2.vol L' fnp.offset)

theorem rwTurn_spec (mode : XfrMode) (h : s.vol.Ok) (hL : s.vol.IsChain L)
    (hp : Placed s.vol.dpb L fnp) (hidx : fnp.sftIdx ≠ 0xff) (ret : ℕ) {toXfer : ℕ} (hpos : 0 < toXfer) (buffer : Bytes) :
    ∃ L', Turned mode fnp s L L' buffer ret toXfer (rwTurn s fnp mode buffer ret toXfer) := by
  by_cases heof : mode = .read ∧ fnp.dir.size ≤ fnp.offset
  · rw [rwTurn, if_pos heof]
    exact ⟨L, .refl h hL, hp, .refl fnp, .refl _ s, fun _ => ⟨rfl, rfl⟩,
      Or.inr ⟨_, rfl, rfl, fun hnil => ⟨rfl, hnil, rfl, rfl, Or.inl ⟨heof.1, Or.inl heof.2⟩⟩⟩⟩
  · rw [rwTurn, if_neg heof]
    dsimp only
    obtain ⟨L', hm⟩ := mapCluster_spec mode h hL hp fun _ => hidx
    have hsectors := mapCluster_sectors s.vol fnp mode
    generalize mapCluster s.vol fnp mode = m at hm hsectors ⊢
    have hsame := hm.grown.kept.same
    have hoff : m.2.1.offset = fnp.offset ∧ m.2.1.dir.size = fnp.dir.size ∧
        m.2.1.sftIdx = fnp.sftIdx := by
      obtain ⟨_, _, _, _, heq⟩ := hm.moved
      rw [heq]
      exact ⟨rfl, rfl, rfl⟩
    rcases hm.result with ⟨hrc, hon, hat⟩ | ⟨hout, hlen, -⟩
    · -- the cluster is there
      rw [if_neg (not_not_intro hrc)]
      generalize hs₁ : (if mode = .write then mergeFileChanges { s with vol := m.2.2 } m.2.1
        else { s with vol := m.2.2 }) = s₁
      have hvol : s₁.vol = m.2.2 := by rw [← hs₁]; split <;> rfl
      have htold : OnlyTold fnp.sftIdx s s₁ := by
        rw [← hs₁]
        split
        · exact (OnlyTold.vol _ s m.2.2).trans (hoff.2.2 ▸ mergeFileChanges_told _ m.2.1)
        · exact .vol _ s m.2.2
      have hsft : mode = .read → s₁.sft = s.sft := by
        rintro rfl
        rw [← hs₁, if_neg (by decide)]
      have hat' : m.2.1.clusterOffset = m.2.1.relcluster m.2.2.dpb := by
        rw [hat, relcluster_eq, relcluster_eq, hsame.clusterSize, hoff.1]
      obtain ⟨L'', hx⟩ := xfer_spec mode hm.grown.kept.ok hm.grown.chain
        hm.placed hon hat' ret hpos (fun hr => by
          rw [hoff.1, hoff.2.1]
          exact Nat.lt_of_not_le fun hle => heof ⟨hr, hle⟩) buffer
      rw [hvol]
      generalize xfer m.2.2 m.2.1 mode buffer ret toXfer = x at hx ⊢
      refine ⟨L'', hm.grown.trans hx.grown, hx.placed, hm.moved.walked.trans hx.walked,
        htold.trans (.vol _ s₁ _), fun hr => ⟨(hx.read hr).trans (hm.read hr).1, hsft hr⟩, ?_⟩
      rcases hx.turn with ⟨n, hturn, hn, hle, hoffset, hbytes, hsize, heffect⟩ |
        ⟨⟨code, hcode⟩, hoffset, hne⟩
      · refine Or.inl ⟨n, hturn, hn, hle, by rw [hoffset, hoff.1], ?_, fun hr => ?_, fun hnil => ?_⟩
        · rwa [hoff.1, hsame.clusterSize] at hbytes
        · have := hsize hr
          rwa [hoff.1, hoff.2.1] at this
        · have := heffect (hsectors.2.trans hnil)
          rw [hoff.1, hsectors.1] at this
          exact ⟨this.1, this.2.same hsame.symm⟩
      · exact Or.inr ⟨code, hcode, hoffset.trans hoff.1,
          fun hnil => absurd (hsectors.2.trans hnil) hne⟩
    · -- there is no such cluster
      rw [if_pos hout.ne_success]
      refine ⟨L', hm.grown, hm.placed, hm.moved.walked, .vol _ s _,
        fun hr => ⟨(hm.read hr).1, rfl⟩, Or.inr ⟨_, rfl, hoff.1, fun hnil =>
          ⟨rfl, hsectors.2.trans hnil, rfl, hsectors.1, ?_⟩⟩⟩
      have hend : L'.length * m.2.2.dpb.clusterSize ≤ fnp.offset := by
        rw [relcluster_eq] at hlen
        rw [hsame.clusterSize]
        exact (Nat.mul_le_mul_right _ hlen).trans (Nat.div_mul_le_self _ _)
      rcases hout with ⟨hr, -⟩ | ⟨hw, -, hfull⟩
      · exact Or.inl ⟨hr, Or.inr hend⟩
      · exact Or.inr ⟨hw, hfull, hend⟩

/-- The fnode has gone on in its file, the size of which may have changed. -/
def Went (fnp fnp' : FNode) : Prop := Walked (fnp.setSize fnp'.dir.size) fnp'

theorem Walked.went {fnp fnp' : FNode} (h : Walked fnp fnp') : Went fnp fnp' := by
  obtain ⟨_, _, _, _, heq⟩ := h
  exact ⟨_, _, _, _, by rw [heq]; rfl⟩

theorem Went.trans {fnp fnp' fnp'' : FNode} (h : Went fnp fnp') (h' : Went fnp' fnp'') :
    Went fnp fnp'' := by
  obtain ⟨_, _, _, _, heq⟩ := h
  obtain ⟨a, b, c, e, heq'⟩ := h'
  exact ⟨a, b, c, e, by rw [heq', heq]; rfl⟩

theorem Went.setSize {fnp fnp' : FNode} (h : Went fnp fnp') (size : ℕ) :
    Went fnp (fnp'.setSize size) := by
  obtain ⟨_, _, _, _, heq⟩ := h
  exact ⟨_, _, _, _, by rw [heq]; rfl⟩

theorem Went.sftIdx {fnp fnp' : FNode} (h : Went fnp fnp') : fnp'.sftIdx = fnp.sftIdx := by
  obtain ⟨_, _, _, _, heq⟩ := h
  rw [heq]
  rfl

/-- What is done about the end of the file after a transfer. -/
theorem afterXfer_spec (s : System) (fnp : FNode) (mode : XfrMode) :
    (afterXfer s fnp mode).2.vol = s.vol ∧ OnlyTold fnp.sftIdx s (afterXfer s fnp mode).2 ∧
      (mode = .read → (afterXfer s fnp mode).2 = s) ∧
      (afterXfer s fnp mode).1 = fnp.setSize
        (match mode with
          | .read => fnp.dir.size
          | .write => max fnp.dir.size fnp.offset) := by
  cases mode with
  | read => exact ⟨rfl, .refl _ s, fun _ => rfl, rfl⟩
  | write =>
    dsimp only [afterXfer]
    split
    · rename_i hgt
      refine ⟨rfl, mergeFileChanges_told s (fnp.setSize fnp.offset), fun h => (nomatch h), ?_⟩
      rw [Nat.max_eq_right hgt.le]
    · rename_i hle
      refine ⟨rfl, mergeFileChanges_told s fnp, fun h => (nomatch h), ?_⟩
      rw [Nat.max_eq_left (Nat.not_lt.mp hle)]
      rfl

/-- What the loop leaves after `k` bytes. -/
structure Looped (mode : XfrMode) (fnp : FNode) (s : System) (L L' : List ℕ) (buffer : Bytes)
    (ret toXfer k : ℕ) (r : ℤ × FNode × Bytes × System) : Prop where
  grown : Grown L L' s.vol r.2.2.2.vol
  placed : Placed r.2.2.2.vol.dpb L' r.2.1
  went : Went fnp r.2.1
  told : OnlyTold fnp.sftIdx s r.2.2.2
  read : mode = .read → L' = L ∧ r.2.2.2.sft = s.sft ∧ r.2.1.dir.size = fnp.dir.size ∧
    (0 < k → fnp.offset + k ≤ fnp.dir.size)
  write : mode = .write → r.2.1.dir.size = max fnp.dir.size (fnp.offset + k)
  le : k ≤ toXfer
  offset : r.2.1.offset = fnp.offset + k
  bytes : 0 < k → fnp.offset + k ≤ L'.length * s.vol.dpb.clusterSize
  effect : s.vol.outcomes = [] → r.1 = (ret + k : ℕ) ∧ r.2.2.2.vol.outcomes = [] ∧
    Effect mode s.vol.dpb L' fnp.offset k ret buffer r.2.2.1 s.vol.disk r.2.2.2.vol.disk ∧
    (k = toXfer ∨ Stops mode fnp r.2.2.2.vol L' (fnp.offset + k))

/-- Nothing to do. -/
theorem looped_zero (h : s.vol.Ok) (hL : s.vol.IsChain L) (hp : Placed s.vol.dpb L fnp)
    (hw : mode = .write → fnp.offset ≤ fnp.dir.size) (buffer : Bytes) (ret : ℕ) :
    Looped mode fnp s L L buffer ret 0 0 (ret, fnp, buffer, s) :=
  ⟨.refl h hL, hp, (Walked.refl fnp).went, .refl _ s,
    fun _ => ⟨rfl, rfl, rfl, fun h => absurd h (Nat.lt_irrefl 0)⟩,
    fun hr => (Nat.max_eq_left (hw hr)).symm, Nat.le_refl 0, rfl,
    fun h => absurd h (Nat.lt_irrefl 0),
    fun hnil => ⟨rfl, hnil, .zero _ _ _ _ _ _ _, Or.inl rfl⟩⟩

/-- A turn that ends the loop. -/
theorem Turned.looped {buffer : Bytes} {ret toXfer : ℕ} {t : Turn × FNode × Bytes × System}
    (ht : Turned mode fnp s L L' buffer ret toXfer t) {code : ℤ} (hcode : t.1 = .exit code)
    (hw : mode = .write → fnp.offset ≤ fnp.dir.size) :
    Looped mode fnp s L L' buffer ret toXfer 0 (code, t.2) := by
  have hsize : t.2.1.dir.size = fnp.dir.size := by
    obtain ⟨_, _, _, _, heq⟩ := ht.walked
    rw [heq]
    rfl
  obtain ⟨n, hturn, -⟩ | ⟨code', hcode', hoff, heffect⟩ := ht.turn
  · rw [hturn] at hcode; cases hcode
  · obtain rfl : code' = code := by rw [hcode'] at hcode; cases hcode; rfl
    refine ⟨ht.grown, ht.placed, ht.walked.went, ht.told,
      fun hr => ⟨(ht.read hr).1, (ht.read hr).2, hsize, fun h => absurd h (Nat.lt_irrefl 0)⟩,
      fun hr => hsize.trans (Nat.max_eq_left (hw hr)).symm, Nat.zero_le _, hoff,
      fun h => absurd h (Nat.lt_irrefl 0), fun hnil => ?_⟩
    obtain ⟨hret, hnil', hbuf, hdisk, hstop⟩ := heffect hnil
    refine ⟨hret, hnil', ?_, Or.inr hstop⟩
    rw [hbuf, hdisk]
    exact .zero _ _ _ _ _ _ _

/-- A turn that transfers something, and the rest of the loop. -/
theorem Turned.looped_cons {buffer : Bytes} {ret toXfer n k : ℕ} {L'' : List ℕ}
    {t : Turn × FNode × Bytes × System} {r : ℤ × FNode × Bytes × System}
    (ht : Turned mode fnp s L L' buffer ret toXfer t) (hturn : t.1 = .transferred n)
    (hr : Looped mode (afterXfer t.2.2.2 t.2.1 mode).1 (afterXfer t.2.2.2 t.2.1 mode).2 L' L''
      t.2.2.1 (ret + n) (toXfer - n) k r) :
    Looped mode fnp s L L'' buffer ret toXfer (n + k) r := by
  obtain ⟨hvol, htold, hsame, hfnp⟩ := afterXfer_spec t.2.2.2 t.2.1 mode
  obtain ⟨n', hturn', hpos, hle, hoff, hbytes, hsize, heffect⟩ | ⟨_, hcode, -⟩ := ht.turn
  · obtain rfl : n' = n := by rw [hturn] at hturn'; cases hturn'; rfl
    have hidx : t.2.1.sftIdx = fnp.sftIdx := ht.walked.went.sftIdx
    have hsize₁ : t.2.1.dir.size = fnp.dir.size := by
      obtain ⟨_, _, _, _, heq⟩ := ht.walked
      rw [heq]
      rfl
    generalize (afterXfer t.2.2.2 t.2.1 mode).1 = f at hr hfnp
    generalize (afterXfer t.2.2.2 t.2.1 mode).2 = s₂ at hr hvol htold hsame
    have hwent : Went fnp f := by rw [hfnp]; exact ht.walked.went.setSize _
    have hfoff : f.offset = fnp.offset + n' := by rw [hfnp]; exact hoff
    have hdpb := ht.grown.kept.same
    have hcls : s₂.vol.dpb.clusterSize = s.vol.dpb.clusterSize := by
      rw [hvol, hdpb.clusterSize]
    have hgrown : Grown L' L'' t.2.2.2.vol r.2.2.2.vol := hvol ▸ hr.grown
    have hbytes' : fnp.offset + (n' + k) ≤ L''.length * s.vol.dpb.clusterSize := by
      rcases Nat.eq_zero_or_pos k with rfl | hk
      · exact hbytes.trans (Nat.mul_le_mul_right _ hgrown.pre.length_le)
      · have := hr.bytes hk
        rw [hfoff, hcls] at this
        omega
    refine ⟨ht.grown.trans hgrown, hr.placed, hwent.trans hr.went,
      (ht.told.trans (hidx ▸ htold)).trans (hwent.sftIdx ▸ hr.told), fun hmode => ?_,
      fun hmode => ?_, by have := hr.le; omega, by rw [hr.offset, hfoff]; omega, fun _ => hbytes',
      fun hnil => ?_⟩
    · -- reading
      have hfsize : f.dir.size = fnp.dir.size := by
        rw [hfnp, hmode, ← hsize₁]
        rfl
      obtain ⟨hL, hsft, hsize', hend⟩ := hr.read hmode
      obtain ⟨hL', hsft'⟩ := ht.read hmode
      refine ⟨hL.trans hL', by rw [hsft, hsame hmode, hsft'], hsize'.trans hfsize, fun _ => ?_⟩
      rcases Nat.eq_zero_or_pos k with rfl | hk
      · exact hsize hmode
      · have := hend hk
        rw [hfoff, hfsize] at this
        omega
    · -- writing
      have hfsize : f.dir.size = max fnp.dir.size (fnp.offset + n') := by
        rw [hfnp, hmode, ← hsize₁, ← hoff]
        rfl
      rw [hr.write hmode, hfsize, hfoff]
      omega
    · obtain ⟨hnil', heff⟩ := heffect hnil
      obtain ⟨hret, hnil'', heff', hstop⟩ := hr.effect (hvol ▸ hnil')
      have hg := ht.grown.trans hgrown
      have hs := hg.kept.same
      refine ⟨by rw [hret, Nat.add_assoc], hnil'', ?_, ?_⟩
      · rw [hvol, hfoff] at heff'
        have hall := Effect.append hg.kept.ok.dpb hg.chain hgrown.pre
          (by rw [hs.clusterSize]; exact hbytes) (by rw [hs.clusterSize, Nat.add_assoc]; exact hbytes')
          (heff.same hs) (heff'.same (hdpb.symm.trans hs))
        exact hall.same hs.symm
      · rcases hstop with hk | hstop
        · exact Or.inl (by omega)
        · refine Or.inr ?_
          rw [hfoff, Nat.add_assoc] at hstop
          rcases hstop with ⟨hmode, hend⟩ | hstop
          · have hfsize : f.dir.size = fnp.dir.size := by
              rw [hfnp, hmode, ← hsize₁]
              rfl
            exact Or.inl ⟨hmode, hfsize ▸ hend⟩
          · exact Or.inr hstop
  · rw [hturn] at hcode; cases hcode

/-- **What the loop of `rwblock` does.** -/
theorem rwLoop_spec (mode : XfrMode) (h : s.vol.Ok) (hL : s.vol.IsChain L)
    (hp : Placed s.vol.dpb L fnp) (hidx : fnp.sftIdx ≠ 0xff)
    (hw : mode = .write → fnp.offset ≤ fnp.dir.size) (ret : ℕ) {n toXfer : ℕ} (hn : toXfer ≤ n) (buffer : Bytes) :
    ∃ L' k, Looped mode fnp s L L' buffer ret toXfer k
      (rwLoop mode n s fnp buffer ret toXfer) := by
  induction n generalizing s fnp L buffer ret toXfer with
  | zero =>
    obtain rfl : toXfer = 0 := by omega
    exact ⟨L, 0, looped_zero h hL hp hw buffer ret⟩
  | succ n ih =>
    rw [rwLoop]
    by_cases hzero : toXfer = 0
    · rw [if_pos hzero, hzero]
      exact ⟨L, 0, looped_zero h hL hp hw buffer ret⟩
    · rw [if_neg hzero]
      obtain ⟨L', ht⟩ := rwTurn_spec mode h hL hp hidx ret
        (Nat.pos_of_ne_zero hzero) buffer
      dsimp only
      generalize rwTurn s fnp mode buffer ret toXfer = t at ht ⊢
      cases hturn : t.1 with
      | exit code => exact ⟨L', 0, ht.looped hturn hw⟩
      | transferred m =>
        obtain ⟨hvol, htold, -, hfnp⟩ := afterXfer_spec t.2.2.2 t.2.1 mode
        have hm : 0 < m ∧ m ≤ toXfer := by
          obtain ⟨m', hturn', hpos, hle, -⟩ | ⟨_, hcode, -⟩ := ht.turn
          · rw [hturn] at hturn'; cases hturn'; exact ⟨hpos, hle⟩
          · rw [hturn] at hcode; cases hcode
        have hidx' : t.2.1.sftIdx = fnp.sftIdx := ht.walked.went.sftIdx
        have hok : (afterXfer t.2.2.2 t.2.1 mode).2.vol.Ok := by
          rw [hvol]
          exact ht.grown.kept.ok
        have hchain : (afterXfer t.2.2.2 t.2.1 mode).2.vol.IsChain L' := by
          rw [hvol]
          exact ht.grown.chain
        have hplaced : Placed (afterXfer t.2.2.2 t.2.1 mode).2.vol.dpb L'
            (afterXfer t.2.2.2 t.2.1 mode).1 := by
          rw [hvol, hfnp]
          exact ht.placed.setSize _
        obtain ⟨L'', k, hr⟩ := ih hok hchain hplaced (by rw [hfnp]; exact hidx' ▸ hidx)
          (fun hr => by rw [hfnp, hr]; exact Nat.le_max_right _ _) (ret + m)
          (by omega : toXfer - m ≤ n) t.2.2.1
        exact ⟨L'', m + k, ht.looped_cons hturn hr⟩

end File
end BurdahDos
