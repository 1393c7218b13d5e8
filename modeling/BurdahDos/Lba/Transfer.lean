import BurdahDos.Lba.Defs
import Mathlib

/-!
# What a transfer moves

`LBA_Transfer` cuts a transfer into pieces: at the end of a track, at a boundary of 64K for drives
that need it, and into single sectors for high memory.  A piece is moved by a call of the BIOS,
tried again if need be, perhaps by way of `DiskTransferBuffer`.

The packet of the BIOS has one byte for the number of sectors, as has the register in CHS mode, so
that a piece of more than 255 goes wrong.  A drive that minds the boundaries does not get there,
since 127 sectors are the most before the next one.  `lbaTransfer_iff` says which transfers do.
-/

set_option autoImplicit false

namespace BurdahDos
namespace Lba

open Boot

variable {d : Ddt} {mode : Mode} {cmd : Cmd} {nbyte lba address count total t : ℕ}
  {p : FarPtr} {m m' m'' : Machine}

/-! ## What a call changes -/

/-- Nothing has changed but what a call may move, or the calls that are noted. -/
structure Within (nbyte : ℕ) (cmd : Cmd) (lba address count : ℕ) (m m' : Machine) : Prop where
  mem : ∀ x, (cmd = .read → ¬ (address ≤ x ∧ x < address + count * nbyte)) → m'.mem x = m.mem x
  disk : ∀ s j, (cmd = .write → ¬ (lba ≤ s ∧ s < lba + count)) → m'.disk s j = m.disk s j
  pieces : m'.pieces = m.pieces

/-- The sectors have been moved, from where they were before. -/
structure Moved (nbyte : ℕ) (cmd : Cmd) (lba address count : ℕ) (m m' : Machine) : Prop where
  read : cmd = .read → ∀ i < count, ∀ j < nbyte,
    m'.mem (address + i * nbyte + j) = m.disk (lba + i) j
  write : cmd = .write → ∀ i < count, ∀ j < nbyte,
    m'.disk (lba + i) j = m.mem (address + i * nbyte + j)

theorem Within.refl (m : Machine) : Within nbyte cmd lba address count m m :=
  ⟨fun _ _ => rfl, fun _ _ _ => rfl, rfl⟩

theorem Within.trans (h : Within nbyte cmd lba address count m m')
    (h' : Within nbyte cmd lba address count m' m'') : Within nbyte cmd lba address count m m'' :=
  ⟨fun x hx => (h'.mem x hx).trans (h.mem x hx),
    fun s j hs => (h'.disk s j hs).trans (h.disk s j hs), h'.pieces.trans h.pieces⟩

theorem Within.mono {count' : ℕ} (h : Within nbyte cmd lba address count m m')
    (hle : count ≤ count') : Within nbyte cmd lba address count' m m' := by
  have hmul := Nat.mul_le_mul_right nbyte hle
  refine ⟨fun x hx => h.mem x fun hcmd hin => hx hcmd ⟨hin.1, by omega⟩,
    fun s j hs => h.disk s j fun hcmd hin => hs hcmd ⟨hin.1, by omega⟩, h.pieces⟩

/-- What is moved is not what is changed. -/
theorem Within.moved {count' : ℕ} (h : Within nbyte cmd lba address count m m')
    (h' : Moved nbyte cmd lba address count' m' m'') :
    Moved nbyte cmd lba address count' m m'' := by
  refine ⟨fun hcmd i hi j hj => ?_, fun hcmd i hi j hj => ?_⟩
  · rw [h'.read hcmd i hi j hj, h.disk _ _ fun hw => by rw [hcmd] at hw; exact (nomatch hw)]
  · rw [h'.write hcmd i hi j hj, h.mem _ fun hr => by rw [hcmd] at hr; exact (nomatch hr)]

theorem piece_div {a i j : ℕ} (hj : j < nbyte) : (a + i * nbyte + j - a) / nbyte = i := by
  rw [show a + i * nbyte + j - a = i * nbyte + j by omega, Nat.mul_comm,
    Nat.mul_add_div (by omega), Nat.div_eq_of_lt hj, Nat.add_zero]

theorem piece_mod {a i j : ℕ} (hj : j < nbyte) : (a + i * nbyte + j - a) % nbyte = j := by
  rw [show a + i * nbyte + j - a = i * nbyte + j by omega, Nat.mul_comm, Nat.mul_add_mod,
    Nat.mod_eq_of_lt hj]

theorem piece_lt {a i j n : ℕ} (hi : i < n) (hj : j < nbyte) :
    a + i * nbyte + j < a + n * nbyte := by
  have hmul := Nat.mul_le_mul_right nbyte (Nat.succ_le_of_lt hi)
  rw [Nat.succ_mul] at hmul
  omega

theorem putMem_in {mem : ℕ → UInt8} {content : ℕ → ℕ → UInt8} {i j : ℕ} (hi : i < count)
    (hj : j < nbyte) :
    putMem mem nbyte address count content (address + i * nbyte + j) = content i j := by
  rw [putMem, if_pos ⟨by omega, piece_lt hi hj⟩, piece_div hj, piece_mod hj]

theorem putDisk_in {disk : ℕ → ℕ → UInt8} {content : ℕ → ℕ → UInt8} {i j : ℕ} (hi : i < count)
    (hj : j < nbyte) : putDisk disk nbyte lba count content (lba + i) j = content i j := by
  rw [putDisk, if_pos ⟨by omega, by omega, hj⟩, Nat.add_sub_cancel_left]

theorem move_spec (m : Machine) (nbyte : ℕ) (c : Call) (junk : Option (ℕ → ℕ → UInt8)) :
    Within nbyte c.cmd c.sector c.address c.blocks m (m.move nbyte c junk) ∧
      (junk = none → Moved nbyte c.cmd c.sector c.address c.blocks m (m.move nbyte c junk)) ∧
      (m.move nbyte c junk).calls = m.calls := by
  obtain ⟨cmd, sector, blocks, count, address, track⟩ := c
  cases cmd with
  | read =>
    refine ⟨⟨fun x hx => if_neg (hx rfl), fun _ _ _ => rfl, rfl⟩, ?_, rfl⟩
    rintro rfl
    exact ⟨fun _ i hi j hj => putMem_in hi hj, fun h => (nomatch h)⟩
  | write =>
    refine ⟨⟨fun _ _ => rfl, fun s j hs => if_neg fun h => hs rfl ⟨h.1, h.2.1⟩, rfl⟩, ?_, rfl⟩
    rintro rfl
    exact ⟨fun h => (nomatch h), fun _ i hi j hj => putDisk_in hi hj⟩
  | verify => exact ⟨.refl m, fun _ => ⟨fun h => (nomatch h), fun h => (nomatch h)⟩, rfl⟩

/-- What a call of the BIOS does. -/
theorem bios_spec (m : Machine) (nbyte : ℕ) (c : Call) :
    Within nbyte c.cmd c.sector c.address c.blocks m (m.bios nbyte c).2 ∧
      ((m.bios nbyte c).1 = 0 →
        Moved nbyte c.cmd c.sector c.address c.blocks m (m.bios nbyte c).2) ∧
      (m.bios nbyte c).2.calls = c :: m.calls := by
  rw [Machine.bios]
  dsimp only
  split
  · obtain ⟨⟨h1, h2, h3⟩, hmoved, hcalls⟩ :=
      move_spec { m with calls := c :: m.calls } nbyte c none
    exact ⟨⟨h1, h2, h3⟩, fun _ => ⟨(hmoved rfl).read, (hmoved rfl).write⟩, hcalls⟩
  · rename_i o os _
    split
    · obtain ⟨⟨h1, h2, h3⟩, hmoved, hcalls⟩ :=
        move_spec { m with calls := c :: m.calls, outcomes := os } nbyte c none
      exact ⟨⟨h1, h2, h3⟩, fun _ => ⟨(hmoved rfl).read, (hmoved rfl).write⟩, hcalls⟩
    · rename_i hcode
      obtain ⟨⟨h1, h2, h3⟩, -, hcalls⟩ :=
        move_spec { m with calls := c :: m.calls, outcomes := os } nbyte c (some o.moved)
      exact ⟨⟨h1, h2, h3⟩, fun h => absurd h hcode, hcalls⟩

/-! ## The drive -/

/-- The drive is one that the BIOS can address: by CHS, sector numbers have 6 bits and head numbers
8; and a sector fits into `DiskTransferBuffer`. -/
structure Addressable (d : Ddt) : Prop where
  nbyte_pos : 0 < d.bpb.nbyte
  nbyte_le : d.bpb.nbyte ≤ 512
  nsecs_pos : d.has dfLba = false → 0 < d.geometry.nsecs
  nsecs_lt : d.has dfLba = false → d.geometry.nsecs < 2 ^ 6
  nheads_pos : d.has dfLba = false → 0 < d.geometry.nheads
  nheads_le : d.has dfLba = false → d.geometry.nheads ≤ 2 ^ 8

/-- The address of a sector, if its cylinder is not too large. -/
theorem lbaToChs_eq (h : Addressable d) (hchs : d.has dfLba = false) (lba : ℕ) :
    lbaToChs d lba =
      if 1023 < lba / (d.geometry.nsecs * d.geometry.nheads) then none
      else some ⟨lba / (d.geometry.nsecs * d.geometry.nheads),
        lba / d.geometry.nsecs % d.geometry.nheads, lba % d.geometry.nsecs + 1⟩ := by
  have hnsecs := h.nsecs_lt hchs
  have hnheads := h.nheads_le hchs
  have hhs : d.geometry.nsecs * d.geometry.nheads < 2 ^ 16 := by
    have := Nat.mul_le_mul (Nat.le_of_lt_succ hnsecs) hnheads
    omega
  rw [lbaToChs, Nat.mod_eq_of_lt hhs]
  split
  · rfl
  · rw [Nat.mod_mul_right_div_self, Nat.mod_mul_right_mod,
      Nat.mod_eq_of_lt (b := 2 ^ 16) (by omega)]

/-- A sector by its cylinder, its head and its number in the track. -/
theorem chs_eq (lba nsecs nheads : ℕ) :
    (lba / (nsecs * nheads) * nheads + lba / nsecs % nheads) * nsecs + lba % nsecs = lba := by
  rw [← Nat.div_div_eq_div_mul, Nat.div_add_mod', Nat.div_add_mod']

/-- The two fields of `CL`. -/
theorem cl_fields {high low : ℕ} (hlow : low < 2 ^ 6) :
    (high * 2 ^ 6 ||| low) / 2 ^ 6 = high ∧ (high * 2 ^ 6 ||| low) % 2 ^ 6 = low := by
  rw [Nat.mul_comm, ← Nat.two_pow_add_eq_or_of_lt hlow]
  omega

/-- The BIOS is asked for the sector that is meant. -/
theorem flCommon_eq (h : Addressable d) (hchs : d.has dfLba = false) {chs : Chs}
    (heq : lbaToChs d lba = some chs) (m : Machine) (cmd : Cmd) (count address : ℕ) :
    flCommon d m cmd chs count address =
      m.bios d.bpb.nbyte
        ⟨cmd, lba, count % 2 ^ 8, count, address, some (lba % d.geometry.nsecs + 1)⟩ := by
  have hnsecs := h.nsecs_lt hchs
  have hnheads := h.nheads_le hchs
  rw [lbaToChs_eq h hchs] at heq
  split at heq
  · exact (nomatch heq)
  · rename_i hcyl
    obtain rfl := Option.some.inj heq
    have hsector : lba % d.geometry.nsecs + 1 < 2 ^ 6 := by
      have := Nat.mod_lt lba (h.nsecs_pos hchs)
      omega
    have hhead : lba / d.geometry.nsecs % d.geometry.nheads < 2 ^ 8 := by
      have := Nat.mod_lt (lba / d.geometry.nsecs) (h.nheads_pos hchs)
      omega
    rw [flCommon]
    dsimp only
    rw [if_neg (by omega), Nat.mod_eq_of_lt (a := lba % d.geometry.nsecs + 1) (by omega),
      Nat.mod_eq_of_lt hhead, (cl_fields hsector).1, (cl_fields hsector).2, Nat.mod_add_div',
      Nat.add_sub_cancel, chs_eq]

/-! ## An attempt -/

/-- A call is told the number of sectors that is meant, stays in its track, and does not cross a
boundary of 64K unless the drive can do that. -/
structure Proper (d : Ddt) (c : Call) : Prop where
  blocks : c.blocks = c.count
  track : ∀ s, c.inTrack = some s → s + c.count ≤ d.geometry.nsecs + 1
  boundary : d.has dfDmaTransparent = false →
    c.address % 2 ^ 16 + c.count * d.bpb.nbyte ≤ 2 ^ 16

/-- The calls that were made are proper. -/
def Made (d : Ddt) (m m' : Machine) : Prop := ∀ c ∈ m'.calls, c ∈ m.calls ∨ Proper d c

theorem Made.trans (h : Made d m m') (h' : Made d m' m'') : Made d m m'' := fun c hc =>
  (h' c hc).elim (h c) Or.inr

/-- The number of sectors can be told to the BIOS, or at least compared with the end of the
track. -/
def Nameable (d : Ddt) (lba count : ℕ) : Prop :=
  if d.has dfLba then count < 2 ^ 8 else lba % d.geometry.nsecs + 1 + count < 2 ^ 16

/-- The sectors do not cross a boundary, if they must not. -/
def Uncrossed (d : Ddt) (address count : ℕ) : Prop :=
  d.has dfDmaTransparent = false → address % 2 ^ 16 + count * d.bpb.nbyte ≤ 2 ^ 16

theorem Nameable.mono {count' : ℕ} (h : Nameable d lba count) (hle : count' ≤ count) :
    Nameable d lba count' := by
  rw [Nameable] at h ⊢
  split_ifs at h ⊢ <;> omega

theorem Uncrossed.mono {count' : ℕ} (h : Uncrossed d address count) (hle : count' ≤ count) :
    Uncrossed d address count' := fun hd => by
  have hmul := Nat.mul_le_mul_right d.bpb.nbyte hle
  have := h hd
  omega

/-- One or two calls of the BIOS, if the second is to verify what the first wrote. -/
def once (m : Machine) (nbyte : ℕ) (c : Call) (verify : Bool) : ℕ × Machine :=
  let r := m.bios nbyte c
  if r.1 = 0 ∧ verify = true then r.2.bios nbyte { c with cmd := .verify } else r

theorem once_spec {c : Call} (hc : Proper d c) (m : Machine) (verify : Bool) :
    let r := once m d.bpb.nbyte c verify
    Within d.bpb.nbyte c.cmd c.sector c.address c.count m r.2 ∧
      (r.1 = 0 → Moved d.bpb.nbyte c.cmd c.sector c.address c.count m r.2) ∧ Made d m r.2 := by
  obtain ⟨hwithin, hmoved, hcalls⟩ := bios_spec m d.bpb.nbyte c
  rw [hc.blocks] at hwithin hmoved
  have hmade : Made d m (m.bios d.bpb.nbyte c).2 := by
    intro c' hc'
    rw [hcalls, List.mem_cons] at hc'
    exact hc'.elim (fun h => Or.inr (h ▸ hc)) Or.inl
  rw [once]
  dsimp only
  split
  · rename_i h
    -- a verification changes nothing
    obtain ⟨hwithin', -, hcalls'⟩ :=
      bios_spec (m.bios d.bpb.nbyte c).2 d.bpb.nbyte { c with cmd := .verify }
    have hmem : ∀ x, ((m.bios d.bpb.nbyte c).2.bios d.bpb.nbyte { c with cmd := .verify }).2.mem x =
        (m.bios d.bpb.nbyte c).2.mem x := fun x => hwithin'.mem x fun h => (nomatch h)
    have hdisk : ∀ s j,
        ((m.bios d.bpb.nbyte c).2.bios d.bpb.nbyte { c with cmd := .verify }).2.disk s j =
          (m.bios d.bpb.nbyte c).2.disk s j := fun s j => hwithin'.disk s j fun h => (nomatch h)
    refine ⟨⟨fun x hx => (hmem x).trans (hwithin.mem x hx),
      fun s j hs => (hdisk s j).trans (hwithin.disk s j hs),
      hwithin'.pieces.trans hwithin.pieces⟩, fun _ => ?_, ?_⟩
    · obtain ⟨hread, hwrite⟩ := hmoved h.1
      exact ⟨fun hcmd i hi j hj => (hmem _).trans (hread hcmd i hi j hj),
        fun hcmd i hi j hj => (hdisk _ _).trans (hwrite hcmd i hi j hj)⟩
    · refine hmade.trans fun c' hc' => ?_
      rw [hcalls', List.mem_cons] at hc'
      exact hc'.elim (fun h => Or.inr (h ▸ ⟨hc.blocks, hc.track, hc.boundary⟩)) Or.inl
  · exact ⟨hwithin, hmoved, hmade⟩

/-- The number of sectors of an attempt: by CHS, not more than are left of the track. -/
def trackCount (d : Ddt) (lba count : ℕ) : ℕ :=
  if d.has dfLba then count else min count (d.geometry.nsecs - lba % d.geometry.nsecs)

/-- By CHS, an attempt does not go beyond the end of the track. -/
theorem inTrack_eq (h : Addressable d) (hchs : d.has dfLba = false) (hname : Nameable d lba count)
    {chs : Chs} (heq : lbaToChs d lba = some chs) :
    inTrack d chs count = trackCount d lba count := by
  have hsector : chs.sector = lba % d.geometry.nsecs + 1 := by
    rw [lbaToChs_eq h hchs] at heq
    split at heq
    · exact (nomatch heq)
    · exact Option.some.inj heq ▸ rfl
  have hlt := Nat.mod_lt lba (h.nsecs_pos hchs)
  have hnsecs := h.nsecs_lt hchs
  rw [Nameable, if_neg (by rw [hchs]; decide)] at hname
  rw [trackCount, if_neg (by rw [hchs]; decide), inTrack, hsector]
  rw [Nat.mod_eq_of_lt hname, Nat.mod_eq_of_lt (a := d.geometry.nsecs + 1) (by omega)]
  split <;> omega

/-- An attempt with a number of sectors that can be told. -/
theorem attempt_eq (h : Addressable d) (hname : Nameable d lba count) (address : ℕ) (m : Machine) :
    attempt d mode lba address count m = none ∨
      ∃ verify tr, (∀ s, tr = some s → s + trackCount d lba count ≤ d.geometry.nsecs + 1) ∧
        attempt d mode lba address count m =
          let c := trackCount d lba count
          let r := once m d.bpb.nbyte ⟨mode.cmd, lba, c, c, address, tr⟩ verify
          some (r.1, c, r.2) := by
  cases hlba : d.has dfLba with
  | true =>
    have hlt : count < 2 ^ 8 := by rwa [Nameable, if_pos hlba] at hname
    have hblocks : (UInt8.ofNat count).toNat = count := by
      rw [UInt8.toNat_ofNat', Nat.mod_eq_of_lt hlt]
    refine Or.inr ⟨!(d.has dfWrtverify || mode != .writeVerify), none, fun s hs => (nomatch hs), ?_⟩
    rw [attempt, if_pos hlba, trackCount, if_pos hlba]
    dsimp only [flLbaReadWrite, once]
    rw [hblocks]
    cases hverify : d.has dfWrtverify || mode != .writeVerify with
    | true => simp
    | false =>
      have hmode : mode = .writeVerify := by simpa using (Bool.or_eq_false_iff.mp hverify).2
      simp [hmode, Mode.cmd]
  | false =>
    rw [attempt, if_neg (by rw [hlba]; decide)]
    cases hchs : lbaToChs d lba with
    | none => exact Or.inl rfl
    | some chs =>
      have hlt := Nat.mod_lt lba (h.nsecs_pos hlba)
      have hnsecs := h.nsecs_lt hlba
      have htrack : trackCount d lba count ≤ d.geometry.nsecs - lba % d.geometry.nsecs := by
        rw [trackCount, if_neg (by rw [hlba]; decide)]
        exact Nat.min_le_right ..
      refine Or.inr ⟨decide (mode = .writeVerify), some (lba % d.geometry.nsecs + 1), ?_, ?_⟩
      · intro s hs
        obtain rfl := Option.some.inj hs
        omega
      · simp only [flCommon_eq h hlba hchs, inTrack_eq h hlba hname hchs, once, decide_eq_true_eq,
          Nat.mod_eq_of_lt (show trackCount d lba count < 2 ^ 8 by omega)]

/-- What the attempts to move up to `count` sectors come to. -/
structure Tried (d : Ddt) (mode : Mode) (lba address count : ℕ) (m : Machine)
    (r : ℕ × ℕ × Machine) : Prop where
  pos : 0 < r.2.1
  le : r.2.1 ≤ count
  /-- Only a drive that is not bound to tracks or boundaries moves many sectors at once. -/
  few : r.2.1 = count ∨ r.2.1 < 2 ^ 6
  made : Made d m r.2.2
  within : Within d.bpb.nbyte mode.cmd lba address count m r.2.2
  moved : r.1 = 0 → Moved d.bpb.nbyte mode.cmd lba address r.2.1 m r.2.2

theorem attempt_tried (h : Addressable d) (hpos : 0 < count) (hname : Nameable d lba count)
    (hcross : Uncrossed d address count) {r : ℕ × ℕ × Machine}
    (hr : attempt d mode lba address count m = some r) : Tried d mode lba address count m r := by
  rcases attempt_eq h hname address m with heq | ⟨verify, tr, htr, heq⟩
  · rw [heq] at hr
    exact (nomatch hr)
  · rw [heq] at hr
    obtain rfl := Option.some.inj hr
    have hle : trackCount d lba count ≤ count := by
      rw [trackCount]
      split
      · exact Nat.le_refl _
      · exact Nat.min_le_left ..
    have hfew : trackCount d lba count = count ∨ trackCount d lba count < 2 ^ 6 := by
      rw [trackCount]
      split
      · exact Or.inl rfl
      · rename_i hchs
        have := h.nsecs_lt (by simpa using hchs)
        omega
    have hpos' : 0 < trackCount d lba count := by
      rw [trackCount]
      split
      · exact hpos
      · rename_i hchs
        have := Nat.mod_lt lba (h.nsecs_pos (by simpa using hchs))
        omega
    obtain ⟨hwithin, hmoved, hmade⟩ := once_spec (d := d)
      (c := ⟨mode.cmd, lba, trackCount d lba count, trackCount d lba count, address, tr⟩)
      ⟨rfl, htr, hcross.mono hle⟩ m verify
    exact ⟨hpos', hle, hfew, hmade, hwithin.mono hle, hmoved⟩

/-- The retries come to the same. -/
theorem attempts_tried (h : Addressable d) (n error : ℕ) (hn : 0 < n ∨ error ≠ 0) (hpos : 0 < count)
    (hname : Nameable d lba count) (hcross : Uncrossed d address count) :
    Tried d mode lba address count m (attempts d mode lba address n error count m) := by
  induction n generalizing error count m with
  | zero =>
    exact ⟨hpos, Nat.le_refl _, Or.inl rfl, fun c hc => Or.inl hc, .refl m,
      fun h0 => absurd h0 (hn.resolve_left (Nat.lt_irrefl 0))⟩
  | succ n ih =>
    rw [attempts]
    cases hr : attempt d mode lba address count m with
    | none =>
      exact ⟨hpos, Nat.le_refl _, Or.inl rfl, fun c hc => Or.inl hc, .refl m,
        fun h0 => absurd h0 Nat.one_ne_zero⟩
    | some r =>
      have htried := attempt_tried h hpos hname hcross hr
      obtain ⟨e, c, m'⟩ := r
      dsimp only
      split
      · rename_i h0
        obtain ⟨h1, h2, h3, h4, h5, h6⟩ := htried
        exact ⟨h1, h2, h3, h4, h5, fun _ => h6 h0⟩
      · rename_i h0
        obtain ⟨h1, h2, h3, h4, h5, -⟩ := htried
        dsimp only at h1 h2 h3 h4 h5
        obtain ⟨h1', h2', h3', h4', h5', h6'⟩ :=
          ih (m := m') e (Or.inr h0) h1 (hname.mono h2) (hcross.mono h2)
        exact ⟨h1', h2'.trans h2, by omega, h4.trans h4', h5.trans (h5'.mono h2),
          fun hrc => h5.moved (h6' hrc)⟩

/-- The first cylinder cannot be addressed. -/
def OutOfReach (d : Ddt) (lba : ℕ) : Prop :=
  d.has dfLba = false ∧ 1023 < lba / (d.geometry.nsecs * d.geometry.nheads)

theorem attempts_outOfReach (h : Addressable d) (hout : OutOfReach d lba) (hpos : 0 < count)
    (n error : ℕ) :
    Tried d mode lba address count m (attempts d mode lba address (n + 1) error count m) := by
  have hnone : attempt d mode lba address count m = none := by
    rw [attempt, if_neg (by rw [hout.1]; decide), lbaToChs_eq h hout.1, if_pos hout.2]
  rw [attempts, hnone]
  exact ⟨hpos, Nat.le_refl _, Or.inl rfl, fun c hc => Or.inl hc, .refl m,
    fun h0 => absurd h0 Nat.one_ne_zero⟩

/-! ## A turn -/

/-- The number of sectors of a turn is not too large to be told: the drive minds boundaries, or the
turn goes by `DiskTransferBuffer`, or the sectors that are left are few enough. -/
def Unnarrowed (d : Ddt) (p : FarPtr) (lba total : ℕ) : Prop :=
  d.has dfDmaTransparent = true → p.seg < 0xa000 → OutOfReach d lba ∨ Nameable d lba total

/-- What a turn comes to: sectors have been moved, and nothing has changed but what is in the range
of the transfer, and `DiskTransferBuffer`. -/
structure Turned (d : Ddt) (mode : Mode) (t a lba total : ℕ) (m : Machine)
    (r : ℕ × ℕ × Machine) : Prop where
  pos : 0 < r.2.1
  le : r.2.1 ≤ total
  few : r.2.1 = total ∨ r.2.1 < 2 ^ 7
  made : Made d m r.2.2
  mem : ∀ x, (mode.cmd = .read → ¬ (a ≤ x ∧ x < a + total * d.bpb.nbyte)) →
    ¬ (t ≤ x ∧ x < t + d.bpb.nbyte) → r.2.2.mem x = m.mem x
  disk : ∀ s j, (mode.cmd = .write → ¬ (lba ≤ s ∧ s < lba + total)) →
    r.2.2.disk s j = m.disk s j
  pieces : r.2.2.pieces = m.pieces
  moved : r.1 = 0 → Moved d.bpb.nbyte mode.cmd lba a r.2.1 m r.2.2

/-- A piece up to the next boundary, as sectors are not larger than `maxsecsize`. -/
theorem dmaMaxTransfer_spec (hle : nbyte ≤ 512) (x count : ℕ) :
    dmaMaxTransfer x count ≤ count ∧ dmaMaxTransfer x count < 2 ^ 7 ∧
      x % 2 ^ 16 + dmaMaxTransfer x count * nbyte ≤ 2 ^ 16 := by
  have hmul : dmaMaxTransfer x count * nbyte ≤ dmaMaxTransfer x count * 512 :=
    Nat.mul_le_mul_left _ hle
  rw [dmaMaxTransfer] at hmul ⊢
  split at hmul <;> rename_i h
  · rw [if_pos h]
    omega
  · rw [if_neg h]
    omega

theorem nameable_of_lt (h : Addressable d) (hlt : count < 2 ^ 7) : Nameable d lba count := by
  rw [Nameable]
  split
  · omega
  · rename_i hchs
    have hchs : d.has dfLba = false := by simpa using hchs
    have := Nat.mod_lt lba (h.nsecs_pos hchs)
    have := h.nsecs_lt hchs
    omega

/-- A turn that does not go by `DiskTransferBuffer`. -/
theorem turn_direct (h : Addressable d) (hn : Unnarrowed d p lba total)
    (hdirect : bounces d p total = false) :
    Turned d mode t p.linear lba total m
      (attempts d mode lba p.linear nRetry 0 (wantedCount d p total) m) := by
  rw [bounces, decide_eq_false_iff_not, not_or] at hdirect
  have hpos := Nat.pos_of_ne_zero hdirect.2
  have hwanted : wantedCount d p total ≤ total ∧
      (wantedCount d p total = total ∨ wantedCount d p total < 2 ^ 7) ∧
      Uncrossed d p.linear (wantedCount d p total) := by
    obtain ⟨hle, hlt, hcross⟩ := dmaMaxTransfer_spec h.nbyte_le p.linear total
    rw [wantedCount]
    split
    · rename_i htrans
      exact ⟨Nat.le_refl _, Or.inl rfl, fun h0 => by rw [htrans] at h0; exact (nomatch h0)⟩
    · exact ⟨hle, Or.inr hlt, fun _ => hcross⟩
  obtain ⟨hle, hlt, hcross⟩ := hwanted
  have htried : Tried d mode lba p.linear (wantedCount d p total) m
      (attempts d mode lba p.linear nRetry 0 (wantedCount d p total) m) := by
    by_cases htrans : d.has dfDmaTransparent = true
    · rcases hn htrans (by omega) with hout | hname
      · exact attempts_outOfReach h hout hpos 4 0
      · exact attempts_tried h nRetry 0 (Or.inl (by decide)) hpos (hname.mono hle) hcross
    · refine attempts_tried h nRetry 0 (Or.inl (by decide)) hpos ?_ hcross
      rw [wantedCount, if_neg htrans]
      exact nameable_of_lt h (dmaMaxTransfer_spec h.nbyte_le p.linear total).2.1
  obtain ⟨h1, h2, h3, h4, h5, h6⟩ := htried
  have h5 := h5.mono hle
  exact ⟨h1, h2.trans hle, by omega, h4, fun x hx _ => h5.mem x hx, h5.disk, h5.pieces, h6⟩

theorem fmemcpy_in {mem : ℕ → UInt8} {dest src n j : ℕ} (hj : j < n) :
    fmemcpy mem dest src n (dest + j) = mem (src + j) := by
  rw [fmemcpy, if_pos ⟨by omega, by omega⟩, Nat.add_sub_cancel_left]

theorem fmemcpy_out {mem : ℕ → UInt8} {dest src n x : ℕ} (hx : ¬ (dest ≤ x ∧ x < dest + n)) :
    fmemcpy mem dest src n x = mem x :=
  if_neg hx

/-- A sector that is put into `DiskTransferBuffer`, which does not cross a boundary, for the
attempts. -/
theorem tried_bounce (h : Addressable d) (ht : t % 2 ^ 16 + 512 ≤ 2 ^ 16) (m : Machine) :
    Tried d mode lba t 1 m (attempts d mode lba t nRetry 0 1 m) :=
  attempts_tried h nRetry 0 (Or.inl (by decide)) Nat.one_pos (nameable_of_lt h (by decide))
    fun _ => by
      have := h.nbyte_le
      omega

/-- A turn that goes by `DiskTransferBuffer`. -/
theorem turn_bounce (h : Addressable d) (ht : t % 2 ^ 16 + 512 ≤ 2 ^ 16) (hpos : 0 < total)
    (hbounce : bounces d p total = true) :
    Turned d mode t p.linear lba total m (turn d mode t p lba total m) := by
  have hlen : d.bpb.nbyte ≤ total * d.bpb.nbyte := Nat.le_mul_of_pos_left _ hpos
  rw [turn]
  dsimp only
  rw [if_pos hbounce]
  by_cases hread : mode = .read
  · subst hread
    have htried : Tried d .read lba t 1 m (attempts d .read lba t nRetry 0 1 m) :=
      tried_bounce h ht m
    obtain ⟨h1, h2, h3, h4, h5, h6⟩ := htried
    rw [if_neg (show Mode.read.cmd ≠ .write by decide)]
    have hone : (attempts d .read lba t nRetry 0 1 m).2.1 = 1 := by omega
    have hmem := fun x hx => h5.mem x fun _ => by rw [Nat.one_mul]; exact hx
    have hdisk := fun s j => h5.disk s j fun h => (nomatch h)
    split
    · rename_i hrc
      refine ⟨h1, h2.trans hpos, Or.inr (by dsimp only; omega), h4, fun x hx hx' => ?_,
        fun s j _ => hdisk s j,
        h5.pieces, fun _ => ⟨fun _ i hi j hj => ?_, fun h => (nomatch h)⟩⟩
      · exact (fmemcpy_out fun hin => hx rfl ⟨hin.1, by omega⟩).trans (hmem x hx')
      · obtain rfl : i = 0 := by rw [hone] at hi; omega
        rw [Nat.zero_mul, Nat.add_zero]
        have hmoved := (h6 hrc.1).read rfl 0 h1 j hj
        rw [Nat.zero_mul, Nat.add_zero] at hmoved
        exact (fmemcpy_in hj).trans hmoved
    · rename_i hrc
      exact ⟨h1, h2.trans hpos, by omega, h4, fun x _ hx' => hmem x hx', fun s j _ => hdisk s j,
        h5.pieces, fun h0 => absurd ⟨h0, rfl⟩ hrc⟩
  · rw [if_neg fun hrc => hread hrc.2]
    have hcmd : mode.cmd ≠ .read := by cases mode <;> simp_all [Mode.cmd]
    by_cases hwrite : mode.cmd = .write
    · rw [if_pos hwrite]
      have htried : Tried d mode lba t 1 { m with mem := fmemcpy m.mem t p.linear d.bpb.nbyte }
          (attempts d mode lba t nRetry 0 1
            { m with mem := fmemcpy m.mem t p.linear d.bpb.nbyte }) := tried_bounce h ht _
      obtain ⟨h1, h2, h3, h4, h5, h6⟩ := htried
      have hone : (attempts d mode lba t nRetry 0 1
        { m with mem := fmemcpy m.mem t p.linear d.bpb.nbyte }).2.1 = 1 := by omega
      refine ⟨h1, h2.trans hpos, by omega, h4, fun x _ hx' => ?_, fun s j hs => ?_, h5.pieces,
        fun hrc => ⟨fun h => absurd h hcmd, fun _ i hi j hj => ?_⟩⟩
      · exact (h5.mem x fun h => absurd h hcmd).trans (fmemcpy_out hx')
      · exact h5.disk s j fun hw hin => hs hw ⟨hin.1, by omega⟩
      · obtain rfl : i = 0 := by rw [hone] at hi; omega
        have hmoved := (h6 hrc).write hwrite 0 h1 j hj
        rw [Nat.zero_mul, Nat.add_zero] at hmoved ⊢
        exact hmoved.trans (fmemcpy_in hj)
    · rw [if_neg hwrite]
      have htried : Tried d mode lba t 1 m (attempts d mode lba t nRetry 0 1 m) :=
        tried_bounce h ht m
      obtain ⟨h1, h2, h3, h4, h5, -⟩ := htried
      exact ⟨h1, h2.trans hpos, by omega, h4, fun x _ _ => h5.mem x fun h => absurd h hcmd,
        fun s j _ => h5.disk s j fun h => absurd h hwrite, h5.pieces,
        fun _ => ⟨fun h => absurd h hcmd, fun h => absurd h hwrite⟩⟩

theorem turn_spec (h : Addressable d) (ht : t % 2 ^ 16 + 512 ≤ 2 ^ 16) (hpos : 0 < total)
    (hn : Unnarrowed d p lba total) :
    Turned d mode t p.linear lba total m (turn d mode t p lba total m) := by
  cases hbounce : bounces d p total with
  | true => exact turn_bounce h ht hpos hbounce
  | false =>
    rw [turn]
    dsimp only
    rw [if_neg (by rw [hbounce]; decide)]
    exact turn_direct h hn hbounce

/-! ## The loop -/

/-- The memory behind the pointer is in the first megabyte, or in the segment behind it. -/
def FarPtr.InMemory (p : FarPtr) (len : ℕ) : Prop :=
  p.seg < 0xffff ∧ p.linear + len ≤ 2 ^ 20 ∨ p.seg = 0xffff ∧ p.off < 2 ^ 16 ∧ p.off + len ≤ 2 ^ 16

/-- The pointer is normalized, too. -/
def FarPtr.Fits (p : FarPtr) (len : ℕ) : Prop :=
  p.InMemory len ∧ (p.seg < 0xffff → p.off < 2 ^ 4)

theorem adjustFar_fits {len : ℕ} (hlen : 0 < len) (h : p.InMemory len) :
    (adjustFar p).Fits len ∧ (adjustFar p).linear = p.linear ∧ p.seg ≤ (adjustFar p).seg := by
  obtain ⟨seg, off⟩ := p
  dsimp only [FarPtr.InMemory, FarPtr.linear] at h
  rw [adjustFar]
  split
  · rename_i hseg
    dsimp only at hseg
    refine ⟨⟨?_, fun h => ?_⟩, rfl, Nat.le_refl _⟩
    · dsimp only [FarPtr.InMemory, FarPtr.linear]
      omega
    · dsimp only at h
      omega
  · rename_i hseg
    dsimp only [FarPtr.Fits, FarPtr.InMemory, FarPtr.linear] at hseg ⊢
    omega

/-- The pointer to the rest of the buffer. -/
theorem next_fits {c : ℕ} (h : Addressable d) (hp : p.Fits (total * d.bpb.nbyte)) (hc : c < total)
    (hfew : c < 2 ^ 7) :
    let p' := adjustFar (p.add (c * d.bpb.nbyte % 2 ^ 16))
    p'.Fits ((total - c) * d.bpb.nbyte) ∧ p'.linear = p.linear + c * d.bpb.nbyte ∧
      p.seg ≤ p'.seg := by
  obtain ⟨hmem, hoff⟩ := hp
  have hbytes : c * d.bpb.nbyte ≤ 127 * 512 := Nat.mul_le_mul (by omega) h.nbyte_le
  have hsum : total * d.bpb.nbyte = c * d.bpb.nbyte + (total - c) * d.bpb.nbyte := by
    rw [← Nat.add_mul, Nat.add_sub_cancel' (Nat.le_of_lt hc)]
  have hrest : 0 < (total - c) * d.bpb.nbyte := Nat.mul_pos (by omega) h.nbyte_pos
  have hadd : p.add (c * d.bpb.nbyte % 2 ^ 16) = ⟨p.seg, p.off + c * d.bpb.nbyte⟩ := by
    rw [FarPtr.add, Nat.mod_eq_of_lt (a := c * d.bpb.nbyte) (by omega), Nat.mod_eq_of_lt]
    rcases hmem with ⟨hseg, -⟩ | ⟨-, -, hlen⟩
    · have := hoff hseg
      omega
    · omega
  dsimp only
  rw [hadd]
  obtain ⟨hfits, hlinear, hseg⟩ := adjustFar_fits (p := ⟨p.seg, p.off + c * d.bpb.nbyte⟩) hrest (by
    dsimp only [FarPtr.InMemory, FarPtr.linear] at hmem ⊢
    omega)
  refine ⟨hfits, hlinear.trans ?_, hseg⟩
  dsimp only [FarPtr.linear]
  omega

/-- The rest of a transfer is no more narrowed than the whole. -/
theorem Unnarrowed.next {c : ℕ} {p' : FarPtr} (hn : Unnarrowed d p lba total)
    (hout : ¬ OutOfReach d lba) (hc : c ≤ total) (hseg : p.seg ≤ p'.seg) :
    Unnarrowed d p' (lba + c) (total - c) := by
  intro htrans hlow
  have hname := (hn htrans (by omega)).resolve_left hout
  refine Or.inr ?_
  rw [Nameable] at hname ⊢
  split at hname
  · rename_i hlba
    rw [if_pos hlba]
    omega
  · rename_i hlba
    rw [if_neg hlba]
    have hmod : (lba + c) % d.geometry.nsecs ≤ lba % d.geometry.nsecs + c := by
      rw [Nat.add_mod]
      exact (Nat.mod_le _ _).trans (Nat.add_le_add_left (Nat.mod_le _ _) _)
    omega

theorem turn_outOfReach (h : Addressable d) (hout : OutOfReach d lba) :
    (turn d mode t p lba total m).1 ≠ 0 := by
  have hattempts : ∀ address count m, (attempts d mode lba address nRetry 0 count m).1 = 1 := by
    intro address count m
    rw [show nRetry = 4 + 1 from rfl, attempts, attempt, if_neg (by rw [hout.1]; decide),
      lbaToChs_eq h hout.1, if_pos hout.2]
  rw [turn]
  dsimp only
  split
  · rw [if_neg fun hrc => absurd hrc.1 (by rw [hattempts]; exact Nat.one_ne_zero), hattempts]
    exact Nat.one_ne_zero
  · rw [hattempts]
    exact Nat.one_ne_zero

/-- What the loop comes to: the first `k` sectors have been moved, in pieces that follow each other;
all of them if there is no error; and nothing has changed but what is in the range of the transfer,
and `DiskTransferBuffer`. -/
structure Looped (d : Ddt) (mode : Mode) (t a lba total k : ℕ) (m : Machine) (code : ℕ)
    (m' : Machine) : Prop where
  le : k ≤ total
  success : code = 0 → k = total
  made : Made d m m'
  mem : ∀ x, (mode.cmd = .read → ¬ (a ≤ x ∧ x < a + total * d.bpb.nbyte)) →
    ¬ (t ≤ x ∧ x < t + d.bpb.nbyte) → m'.mem x = m.mem x
  disk : ∀ s j, (mode.cmd = .write → ¬ (lba ≤ s ∧ s < lba + total)) → m'.disk s j = m.disk s j
  pieces : ∃ new, m'.pieces = m.pieces ++ new ∧
    new.flatMap (fun q => List.range' q.1 q.2) = List.range' lba k
  moved : Moved d.bpb.nbyte mode.cmd lba a k m m'

/-- Where one piece ends and the next begins. -/
theorem piece_add (a c i j : ℕ) :
    a + (c + i) * nbyte + j = a + c * nbyte + i * nbyte + j := by
  rw [Nat.add_mul]
  omega

/-- A turn, and the loop behind it. -/
theorem Turned.looped {a code k : ℕ} {r : ℕ × ℕ × Machine} (hr : Turned d mode t a lba total m r)
    (hrc : r.1 = 0)
    (hapart : ∀ x, a ≤ x → x < a + total * d.bpb.nbyte → ¬ (t ≤ x ∧ x < t + d.bpb.nbyte))
    (h : Looped d mode t (a + r.2.1 * d.bpb.nbyte) (lba + r.2.1) (total - r.2.1) k
      { r.2.2 with pieces := r.2.2.pieces ++ [(lba, r.2.1)] } code m') :
    Looped d mode t a lba total (r.2.1 + k) m code m' := by
  obtain ⟨rc, c, m₁⟩ := r
  obtain ⟨-, hc, -, hmade, hmem, hdisk, hpieces, hmoved⟩ := hr
  obtain ⟨hk, hsuccess, hmade', hmem', hdisk', ⟨new, hnew, hrange⟩, hmoved'⟩ := h
  dsimp only at *
  obtain ⟨hread, hwrite⟩ := hmoved hrc
  have hsum : total * d.bpb.nbyte = c * d.bpb.nbyte + (total - c) * d.bpb.nbyte := by
    rw [← Nat.add_mul, Nat.add_sub_cancel' hc]
  have hbuf : ∀ i < total, ∀ j < d.bpb.nbyte, ¬ (t ≤ a + i * d.bpb.nbyte + j ∧
      a + i * d.bpb.nbyte + j < t + d.bpb.nbyte) := fun i hi j hj =>
    hapart _ (by omega) (piece_lt hi hj)
  refine ⟨by omega, fun h0 => by have := hsuccess h0; omega, hmade.trans hmade',
    fun x hx hx' => ?_, fun s j hs => ?_, ⟨(lba, c) :: new, ?_, ?_⟩,
    ⟨fun hcmd i hi j hj => ?_, fun hcmd i hi j hj => ?_⟩⟩
  · exact (hmem' x (fun hcmd hin => hx hcmd ⟨by omega, by omega⟩) hx').trans (hmem x hx hx')
  · exact (hdisk' s j fun hcmd hin => hs hcmd ⟨by omega, by omega⟩).trans (hdisk s j hs)
  · rw [hnew, hpieces, List.append_assoc, List.singleton_append]
  · rw [List.flatMap_cons, hrange, List.range'_append_1]
  · rcases Nat.lt_or_ge i c with hlt | hge
    · have := piece_lt (a := a) hlt hj
      exact (hmem' _ (fun _ hin => by omega) (hbuf i (by omega) j hj)).trans (hread hcmd i hlt j hj)
    · obtain ⟨i, rfl⟩ := Nat.exists_eq_add_of_le hge
      rw [piece_add, ← Nat.add_assoc lba]
      exact (hmoved'.read hcmd i (by omega) j hj).trans
        (hdisk _ _ fun h => by rw [hcmd] at h; exact (nomatch h))
  · rcases Nat.lt_or_ge i c with hlt | hge
    · exact (hdisk' _ _ fun _ hin => by omega).trans (hwrite hcmd i hlt j hj)
    · obtain ⟨i, rfl⟩ := Nat.exists_eq_add_of_le hge
      have hout := hbuf (c + i) (by omega) j hj
      rw [piece_add] at hout ⊢
      rw [← Nat.add_assoc lba]
      exact (hmoved'.write hcmd i (by omega) j hj).trans
        (hmem _ (fun h => by rw [hcmd] at h; exact (nomatch h)) hout)

theorem Looped.nothing {a : ℕ} (m : Machine) : Looped d mode t a lba 0 0 m 0 m :=
  ⟨Nat.le_refl _, fun _ => rfl, fun _ hc => Or.inl hc, fun _ _ _ => rfl, fun _ _ _ => rfl,
    ⟨[], (List.append_nil _).symm, rfl⟩,
    ⟨fun _ _ hi => absurd hi (Nat.not_lt_zero _), fun _ _ hi => absurd hi (Nat.not_lt_zero _)⟩⟩

/-- A turn that ends the loop with an error. -/
theorem Turned.failed {a : ℕ} {r : ℕ × ℕ × Machine} (hr : Turned d mode t a lba total m r)
    (hrc : r.1 ≠ 0) : Looped d mode t a lba total 0 m r.1 r.2.2 :=
  ⟨Nat.zero_le _, fun h => absurd h hrc, hr.made, hr.mem, hr.disk,
    ⟨[], by rw [hr.pieces, List.append_nil], rfl⟩,
    ⟨fun _ _ hi => absurd hi (Nat.not_lt_zero _), fun _ _ hi => absurd hi (Nat.not_lt_zero _)⟩⟩

/-- A turn that moves the last sectors. -/
theorem Turned.last {a : ℕ} {r : ℕ × ℕ × Machine} (hr : Turned d mode t a lba total m r)
    (hrc : r.1 = 0) (hlast : r.2.1 = total) : Looped d mode t a lba total total m 0
      { r.2.2 with pieces := r.2.2.pieces ++ [(lba, total)] } := by
  have hmoved := hr.moved hrc
  rw [hlast] at hmoved
  exact ⟨Nat.le_refl _, fun _ => rfl, hr.made, hr.mem, hr.disk,
    ⟨[(lba, total)], by rw [hr.pieces], by rw [List.flatMap_singleton]⟩,
    ⟨hmoved.read, hmoved.write⟩⟩

theorem transferLoop_zero (d : Ddt) (mode : Mode) (t n : ℕ) (p : FarPtr) (lba transferred : ℕ)
    (m : Machine) : transferLoop d mode t n p lba 0 transferred m = (0, transferred, m) := by
  cases n <;> rfl

/-- The buffer is apart from `DiskTransferBuffer`, or the sector to be moved is the last one. -/
def Apart (nbyte t a total : ℕ) : Prop :=
  total ≤ 1 ∨ ∀ x, a ≤ x → x < a + total * nbyte → ¬ (t ≤ x ∧ x < t + nbyte)

theorem transferLoop_spec (h : Addressable d) (ht : t % 2 ^ 16 + 512 ≤ 2 ^ 16) (n transferred : ℕ)
    (hfuel : total ≤ n) (hlba : lba + total ≤ 2 ^ 32) (htr : transferred + total < 2 ^ 16)
    (hp : 0 < total → p.Fits (total * d.bpb.nbyte)) (hn : Unnarrowed d p lba total)
    (hapart : Apart d.bpb.nbyte t p.linear total) :
    let r := transferLoop d mode t n p lba total transferred m
    ∃ k, r.2.1 = transferred + k ∧ Looped d mode t p.linear lba total k m r.1 r.2.2 := by
  induction n generalizing p lba total transferred m with
  | zero =>
    obtain rfl := Nat.le_zero.mp hfuel
    exact ⟨0, rfl, .nothing m⟩
  | succ n ih =>
    rw [transferLoop]
    dsimp only
    split
    · rename_i h0
      subst h0
      exact ⟨0, rfl, .nothing m⟩
    · rename_i htotal
      have hpos := Nat.pos_of_ne_zero htotal
      have hturn : Turned d mode t p.linear lba total m (turn d mode t p lba total m) :=
        turn_spec h ht hpos hn
      have hout : OutOfReach d lba → (turn d mode t p lba total m).1 ≠ 0 := turn_outOfReach h
      generalize turn d mode t p lba total m = r at hturn hout ⊢
      split
      · rename_i hrc
        exact ⟨0, rfl, hturn.failed hrc⟩
      · rename_i hrc
        have hrc := not_not.mp hrc
        have hc := hturn.le
        rw [Nat.mod_eq_of_lt (a := transferred + r.2.1) (by omega)]
        by_cases hlast : r.2.1 = total
        · rw [hlast, Nat.sub_self, transferLoop_zero]
          exact ⟨total, rfl, hturn.last hrc hlast⟩
        · have hlt : r.2.1 < total := by omega
          have happart := hapart.resolve_left (by have := hturn.pos; omega)
          obtain ⟨hfits, hlinear, hseg⟩ := next_fits h (hp hpos) hlt (hturn.few.resolve_left hlast)
          rw [Nat.mod_eq_of_lt (a := lba + r.2.1) (by omega)]
          obtain ⟨k, hk, hlooped⟩ := ih
            (m := { r.2.2 with pieces := r.2.2.pieces ++ [(lba, r.2.1)] }) (transferred + r.2.1)
            (show total - r.2.1 ≤ n by have := hturn.pos; omega)
            (show lba + r.2.1 + (total - r.2.1) ≤ 2 ^ 32 by omega) (by omega) (fun _ => hfits)
            (hn.next (fun h0 => hout h0 hrc) hc hseg)
            (Or.inr fun x hx hx' => by
              rw [hlinear] at hx hx'
              have hsum : total * d.bpb.nbyte =
                  r.2.1 * d.bpb.nbyte + (total - r.2.1) * d.bpb.nbyte := by
                rw [← Nat.add_mul, Nat.add_sub_cancel' hc]
              exact happart x (by omega) (by omega))
          rw [hlinear] at hlooped
          exact ⟨r.2.1 + k, by rw [hk, Nat.add_assoc], hturn.looped hrc happart hlooped⟩

/-! ## The calls that have been made -/

theorem bios_calls {c : Call} (hc : c ∈ m.calls) (nbyte : ℕ) (c' : Call) :
    c ∈ (m.bios nbyte c').2.calls := by
  rw [(bios_spec m nbyte c').2.2]
  exact List.mem_cons_of_mem _ hc

theorem flCommon_calls {c : Call} (hc : c ∈ m.calls) (d : Ddt) (cmd : Cmd) (chs : Chs)
    (count address : ℕ) : c ∈ (flCommon d m cmd chs count address).2.calls := by
  rw [flCommon]
  split
  · exact hc
  · exact bios_calls hc _ _

theorem attempt_calls {c : Call} (hc : c ∈ m.calls) {r : ℕ × ℕ × Machine}
    (hr : attempt d mode lba address count m = some r) : c ∈ r.2.2.calls := by
  rw [attempt] at hr
  dsimp only [flLbaReadWrite] at hr
  split at hr
  · split at hr
    · obtain rfl := Option.some.inj hr
      exact bios_calls hc _ _
    · obtain rfl := Option.some.inj hr
      dsimp only
      split
      · exact bios_calls (bios_calls hc _ _) _ _
      · exact bios_calls hc _ _
  · split at hr
    · exact (nomatch hr)
    · obtain rfl := Option.some.inj hr
      dsimp only
      split
      · exact flCommon_calls (flCommon_calls hc ..) ..
      · exact flCommon_calls hc ..

theorem attempts_calls {c : Call} (hc : c ∈ m.calls) (n error : ℕ) :
    c ∈ (attempts d mode lba address n error count m).2.2.calls := by
  induction n generalizing error count m with
  | zero => exact hc
  | succ n ih =>
    rw [attempts]
    cases hr : attempt d mode lba address count m with
    | none => exact hc
    | some r =>
      have hmade := attempt_calls hc hr
      obtain ⟨e, k, m'⟩ := r
      dsimp only
      split
      · exact hmade
      · exact ih hmade _

theorem turn_calls {c : Call} (hc : c ∈ m.calls) (d : Ddt) (mode : Mode) (t : ℕ) (p : FarPtr)
    (lba total : ℕ) : c ∈ (turn d mode t p lba total m).2.2.calls := by
  rw [turn]
  dsimp only
  split
  · have hcopied : c ∈ (if mode.cmd = .write then
        { m with mem := fmemcpy m.mem t p.linear d.bpb.nbyte } else m).calls := by
      split
      · exact hc
      · exact hc
    generalize (if mode.cmd = .write then
      { m with mem := fmemcpy m.mem t p.linear d.bpb.nbyte } else m) = m₁ at hcopied ⊢
    split
    · exact attempts_calls hcopied _ _
    · exact attempts_calls hcopied _ _
  · exact attempts_calls hc _ _

theorem transferLoop_calls {c : Call} (hc : c ∈ m.calls) (d : Ddt) (mode : Mode) (t n : ℕ)
    (p : FarPtr) (lba total transferred : ℕ) :
    c ∈ (transferLoop d mode t n p lba total transferred m).2.2.calls := by
  induction n generalizing p lba total transferred m with
  | zero => exact hc
  | succ n ih =>
    rw [transferLoop]
    split
    · exact hc
    · dsimp only
      split
      · exact turn_calls hc ..
      · exact ih (m := { (turn d mode t p lba total m).2.2 with
          pieces := (turn d mode t p lba total m).2.2.pieces ++
            [(lba, (turn d mode t p lba total m).2.1)] }) (turn_calls hc ..) ..

/-- What is told to the BIOS, of more sectors than can be told. -/
theorem narrow_ne (hlt : count < 2 ^ 16) (hle : 2 ^ 8 ≤ count) : count % 2 ^ 8 ≠ count := by
  omega

/-- An attempt with a number of sectors that cannot be told makes a call with another. -/
theorem attempt_narrowed (h : Addressable d) (hout : ¬ OutOfReach d lba) (hlt : count < 2 ^ 16)
    (hname : ¬ Nameable d lba count) (address : ℕ) (m : Machine) :
    ∃ r, attempt d mode lba address count m = some r ∧ ∃ c ∈ r.2.2.calls, c.blocks ≠ c.count := by
  cases hlba : d.has dfLba with
  | true =>
    rw [Nameable, if_pos hlba, not_lt] at hname
    have hblocks : (UInt8.ofNat count).toNat ≠ count := by
      rw [UInt8.toNat_ofNat']
      exact narrow_ne hlt hname
    rw [attempt, if_pos hlba]
    dsimp only [flLbaReadWrite]
    split
    · refine ⟨_, rfl,
        ⟨mode.cmd, lba, (UInt8.ofNat count).toNat, count, address, none⟩, ?_, hblocks⟩
      exact (bios_spec m _ _).2.2 ▸ List.mem_cons_self
    · refine ⟨_, rfl,
        ⟨.write, lba, (UInt8.ofNat count).toNat, count, address, none⟩, ?_, hblocks⟩
      have hfirst : ⟨.write, lba, (UInt8.ofNat count).toNat, count, address, none⟩ ∈
          (m.bios d.bpb.nbyte
            ⟨.write, lba, (UInt8.ofNat count).toNat, count, address, none⟩).2.calls :=
        (bios_spec m _ _).2.2 ▸ List.mem_cons_self
      dsimp only
      split
      · exact bios_calls hfirst _ _
      · exact hfirst
  | false =>
    have hcyl : ¬ 1023 < lba / (d.geometry.nsecs * d.geometry.nheads) := fun hcyl =>
      hout ⟨hlba, hcyl⟩
    have heq := lbaToChs_eq h hlba lba
    rw [if_neg hcyl] at heq
    have hnsecs := h.nsecs_lt hlba
    have hsector := Nat.mod_lt lba (h.nsecs_pos hlba)
    rw [Nameable, if_neg (by rw [hlba]; decide), not_lt] at hname
    -- the sum has wrapped
    have hin : inTrack d ⟨lba / (d.geometry.nsecs * d.geometry.nheads),
        lba / d.geometry.nsecs % d.geometry.nheads, lba % d.geometry.nsecs + 1⟩ count = count := by
      rw [inTrack]
      dsimp only
      rw [if_neg (by omega)]
    rw [attempt, if_neg (by rw [hlba]; decide), heq]
    dsimp only
    rw [hin]
    refine ⟨_, rfl, ⟨mode.cmd, lba, count % 2 ^ 8, count, address,
      some (lba % d.geometry.nsecs + 1)⟩, ?_, narrow_ne hlt (by omega)⟩
    have hfirst : ⟨mode.cmd, lba, count % 2 ^ 8, count, address,
        some (lba % d.geometry.nsecs + 1)⟩ ∈ (flCommon d m mode.cmd
          ⟨lba / (d.geometry.nsecs * d.geometry.nheads),
            lba / d.geometry.nsecs % d.geometry.nheads, lba % d.geometry.nsecs + 1⟩
          count address).2.calls := by
      rw [flCommon_eq h hlba heq, (bios_spec m _ _).2.2]
      exact List.mem_cons_self
    dsimp only
    split
    · exact flCommon_calls hfirst ..
    · exact hfirst

/-- And so does the transfer. -/
theorem transferLoop_narrowed (h : Addressable d) (hlt : total < 2 ^ 16)
    (hn : ¬ Unnarrowed d p lba total) (n transferred : ℕ) :
    ∃ c ∈ (transferLoop d mode t (n + 1) p lba total transferred m).2.2.calls,
      c.blocks ≠ c.count := by
  rw [Unnarrowed] at hn
  push Not at hn
  obtain ⟨htrans, hlow, hout, hname⟩ := hn
  have hpos : total ≠ 0 := by
    rintro rfl
    exact hname (nameable_of_lt h (by decide))
  have hwanted : wantedCount d p total = total := if_pos htrans
  have hdirect : bounces d p total = false := by
    rw [bounces, hwanted, decide_eq_false_iff_not]
    omega
  obtain ⟨c, hc, hne⟩ : ∃ c ∈ (turn d mode t p lba total m).2.2.calls, c.blocks ≠ c.count := by
    obtain ⟨r, hr, c, hc, hne⟩ : ∃ r, attempt d mode lba p.linear total m = some r ∧
        ∃ c ∈ r.2.2.calls, c.blocks ≠ c.count := attempt_narrowed h hout hlt hname p.linear m
    refine ⟨c, ?_, hne⟩
    rw [turn]
    dsimp only
    rw [if_neg (by rw [hdirect]; decide), hwanted, show nRetry = 4 + 1 from rfl, attempts, hr]
    obtain ⟨e, k, m'⟩ := r
    dsimp only
    split
    · exact hc
    · exact attempts_calls hc _ _
  refine ⟨c, ?_, hne⟩
  rw [transferLoop, if_neg hpos]
  dsimp only
  split
  · exact hc
  · exact transferLoop_calls (m := { (turn d mode t p lba total m).2.2 with
      pieces := (turn d mode t p lba total m).2.2.pieces ++
        [(lba, (turn d mode t p lba total m).2.1)] }) hc ..

/-! ## `LBA_Transfer` -/

/-- What a transfer of `n` sectors is to do, by its error code, `*transferred` and what it leaves:
its calls are proper; the pieces that were moved follow each other, and are the first
`*transferred` sectors, all of them if there is no error; these are on the disk, or in the buffer,
what they were in the other; and nothing else has changed, but `DiskTransferBuffer`. -/
structure Correct (d : Ddt) (mode : Mode) (t a lba n : ℕ) (m : Machine) (r : ℕ × ℕ × Machine) :
    Prop where
  calls : ∀ c ∈ r.2.2.calls, Proper d c
  pieces : r.2.2.pieces.flatMap (fun q => List.range' q.1 q.2) = List.range' lba r.2.1
  le : r.2.1 ≤ n
  success : r.1 = 0 → r.2.1 = n
  moved : Moved d.bpb.nbyte mode.cmd lba a r.2.1 m r.2.2
  mem : ∀ x, (mode.cmd = .read → ¬ (a ≤ x ∧ x < a + n * d.bpb.nbyte)) →
    ¬ (t ≤ x ∧ x < t + d.bpb.nbyte) → r.2.2.mem x = m.mem x
  disk : ∀ s j, (mode.cmd = .write → ¬ (lba ≤ s ∧ s < lba + n)) → r.2.2.disk s j = m.disk s j

theorem Looped.correct {a : ℕ} {r : ℕ × ℕ × Machine} {m₀ : Machine}
    (h : Looped d mode t a lba total r.2.1 m₀ r.1 r.2.2) (hmem : m₀.mem = m.mem)
    (hdisk : m₀.disk = m.disk) (hcalls : m₀.calls = []) (hpieces : m₀.pieces = []) :
    Correct d mode t a lba total m r := by
  obtain ⟨new, hnew, hrange⟩ := h.pieces
  rw [hpieces, List.nil_append] at hnew
  refine ⟨fun c hc => ?_, hnew ▸ hrange, h.le, h.success, ⟨?_, ?_⟩, hmem ▸ h.mem, hdisk ▸ h.disk⟩
  · exact (h.made c hc).resolve_left fun hin => by
      rw [hcalls] at hin
      exact (nomatch hin)
  · exact hdisk ▸ h.moved.read
  · exact hmem ▸ h.moved.write

/-- **A transfer is right exactly if its sectors can be told to the BIOS.**  The drive can be
addressed, the buffer is in memory and apart from `DiskTransferBuffer`, which does not cross a
boundary of 64K, and the sectors have numbers. -/
theorem lbaTransfer_iff (buffer : FarPtr) (n : ℕ) (h : Addressable d)
    (ht : t % 2 ^ 16 + 512 ≤ 2 ^ 16) (hn : n < 2 ^ 16) (hlba : lba + n ≤ 2 ^ 32)
    (hbuffer : buffer.InMemory (n * d.bpb.nbyte)) (hapart : Apart d.bpb.nbyte t buffer.linear n) :
    Correct d mode t buffer.linear lba n m (lbaTransfer d mode t buffer lba n m) ↔
      Unnarrowed d (adjustFar buffer) lba n := by
  rw [lbaTransfer]
  dsimp only
  generalize hm₀ : (if d.has dfFixed = true then { m with calls := [], pieces := [] }
    else { mem := m.mem, disk := m.disk, outcomes := m.outcomes,
           int1e := UInt8.ofNat d.bpb.nsecs, calls := [], pieces := [] }) = m₀
  have hreset : m₀.mem = m.mem ∧ m₀.disk = m.disk ∧ m₀.calls = [] ∧ m₀.pieces = [] := by
    rw [← hm₀]
    split <;> exact ⟨rfl, rfl, rfl, rfl⟩
  obtain ⟨hmem, hdisk, hcalls, hpieces⟩ := hreset
  constructor
  · intro hcorrect
    by_contra hnarrow
    cases n with
    | zero =>
      exact hnarrow fun _ _ => Or.inr (nameable_of_lt h (by decide))
    | succ n =>
      have hmade :
          ∃ c ∈ (transferLoop d mode t (n + 1) (adjustFar buffer) lba (n + 1) 0 m₀).2.2.calls,
            c.blocks ≠ c.count := transferLoop_narrowed h hn hnarrow n 0
      obtain ⟨c, hc, hne⟩ := hmade
      exact hne (hcorrect.calls c hc).blocks
  · intro hunnarrowed
    rcases Nat.eq_zero_or_pos n with rfl | hpos
    · exact (Looped.nothing m₀).correct hmem hdisk hcalls hpieces
    · have hlen := Nat.mul_pos hpos h.nbyte_pos
      obtain ⟨hfits, hlinear, -⟩ := adjustFar_fits hlen hbuffer
      have hspec : ∃ k, (transferLoop d mode t n (adjustFar buffer) lba n 0 m₀).2.1 = 0 + k ∧
          Looped d mode t (adjustFar buffer).linear lba n k m₀
            (transferLoop d mode t n (adjustFar buffer) lba n 0 m₀).1
            (transferLoop d mode t n (adjustFar buffer) lba n 0 m₀).2.2 :=
        transferLoop_spec h ht n 0 (Nat.le_refl n) hlba (by omega) (fun _ => hfits) hunnarrowed
          (hlinear ▸ hapart)
      obtain ⟨k, hk, hlooped⟩ := hspec
      rw [hlinear] at hlooped
      rw [Nat.zero_add] at hk
      rw [← hk] at hlooped
      exact hlooped.correct hmem hdisk hcalls hpieces

/-- The BPB of a floppy of 1.44 MB. -/
def floppyBpb : Bpb :=
  ⟨512, 1, 1, 2, 224, 2880, 0xf0, 9, 18, 2, 0, 0, 0, 0, 0, 0, 0, 0⟩

/-- A floppy drive. -/
def floppyDrive : Ddt := ⟨floppyBpb, floppyBpb, 0, 80, 0, 0⟩

/-- A drive for LBA that does not mind boundaries. -/
def lbaDrive : Ddt :=
  ⟨floppyBpb, floppyBpb, dfFixed ||| dfLba ||| dfDmaTransparent, 80, 0, 0⟩

/-- Empty memory, and a disk that is not. -/
def blankMachine : Machine := ⟨fun _ => 0, fun _ _ => 1, [], 0, [], []⟩

/-- Three sectors, of which the second is in the next track. -/
theorem lbaTransfer_iff_floppy :
    Correct floppyDrive .read 0x600 0x20000 17 3 blankMachine
      (lbaTransfer floppyDrive .read 0x600 ⟨0x2000, 0⟩ 17 3 blankMachine) := by
  refine (lbaTransfer_iff ⟨0x2000, 0⟩ 3 ⟨by decide, by decide, fun _ => by decide,
    fun _ => by decide, fun _ => by decide, fun _ => by decide⟩ (by decide) (by decide) (by decide)
    (Or.inl (by decide)) (Or.inr fun x hx _ hin => ?_)).mpr fun htrans => ?_
  · have hbuffer : 0x20000 ≤ x := hx
    have hbounce : x < 0x600 + 512 := hin.2
    omega
  · exact absurd htrans (by decide)

/-- 256 sectors are none to the BIOS, which has nothing to complain of. -/
theorem packet_of_256 :
    ¬ Correct lbaDrive .read 0x600 0x20000 0 256 blankMachine
      (lbaTransfer lbaDrive .read 0x600 ⟨0x2000, 0⟩ 0 256 blankMachine) := by
  intro h
  have hmoved := h.moved.read rfl 0 (by decide +kernel) 0 (by decide)
  revert hmoved
  decide +kernel

end Lba
end BurdahDos
