import BurdahDos.Boot.Defs
import Mathlib

/-!
# Clusters that the FAT has room for

`bpb_to_dpb` computes the number of clusters from the size of the volume, and backs it down if the
sectors of the FAT are too few for it.  It counts in 16-bit entries, and in three quarters of them
for FAT12.  It lets one case pass: more than `FAT_MAGIC` clusters on a FAT that can only be a FAT12
(`LetPass`).  In all others the entry of every cluster lies in the sectors of one FAT.

The type of FAT is told by the number of clusters afterwards.  A volume that is a FAT12 or a FAT16
one by the number before remains so.  A number beyond `FAT_MAGIC16`, which is neither, may be
backed down to that of a FAT16 (`tooMany_becomes_fat16`).
-/

set_option autoImplicit false

namespace BurdahDos
namespace Boot

open Fat

/-- `dpb_size` before the size of the FAT is looked at. -/
def Bpb.unclipped (b : Bpb) : ℕ :=
  let size := if b.nsize = 0 then b.huge else b.nsize
  let dirstrt := (b.nreserved + b.nfat * b.nfsect) % 2 ^ 16
  let perSector := b.nbyte / direntSize
  let data := (dirstrt + (b.ndirent + perSector - 1) % 2 ^ 16 / perSector) % 2 ^ 16
  ((((size + 2 ^ 32 - data) % 2 ^ 32) >>> shiftCount b.nsector) % 2 ^ 16 + 1) % 2 ^ 16

/-- "Let it pass through rather than lose data correcting FAT type." -/
def Bpb.LetPass (b : Bpb) : Prop :=
  fatMagic < b.unclipped ∧ b.nfsect * (b.nbyte / 2) ≤ fatMagic

/-- The bytes of a FAT that have the entry of a cluster in them. -/
def entryBytes (d : Fat.Dpb) (c : ℕ) : List ℕ :=
  if d.isFat12 then [3 * c / 2, 3 * c / 2 + 1]
  else if d.isFat16 then [2 * c, 2 * c + 1]
  else []

variable {b : Bpb} {d d' : Dpb} {extended : Bool} {fsinfo : Sector}

theorem unclipped_lt (b : Bpb) : b.unclipped < 2 ^ 16 := Nat.mod_lt _ (by decide)

/-- What `bpb_to_dpb` makes of a BPB with a FAT12 or FAT16. -/
theorem bpbToDpb_size (hfat : b.nfsect ≠ 0) (hd : bpbToDpb b d extended fsinfo = some d') :
    d'.fatsize = b.nfsect ∧ d'.secsize = b.nbyte ∧
      d'.size = shorten b.nfsect b.nbyte b.unclipped := by
  by_cases hper : b.nbyte / direntSize = 0
  · rw [bpbToDpb] at hd
    dsimp only at hd
    rw [if_pos hper] at hd
    exact nomatch hd
  · rw [bpbToDpb] at hd
    dsimp only at hd
    rw [if_neg hper] at hd
    cases extended with
    | false =>
      rw [if_pos (show (!false) = true from rfl)] at hd
      obtain rfl := Option.some.inj hd
      exact ⟨rfl, rfl, rfl⟩
    | true =>
      have h32 : (b.nfsect == 0) = false := by simpa using hfat
      rw [if_neg (show ¬ (!true) = true by decide)] at hd
      simp only [dpb16to32, Fat.Dpb.isFat32, h32, Bool.not_false, if_true] at hd
      obtain rfl := Option.some.inj hd
      exact ⟨rfl, rfl, rfl⟩

/-- A FAT of so many sectors has a multiple of 256 of 16-bit entries. -/
theorem fatEntries (hbytes : 512 ∣ b.nbyte) (hpos : b.nbyte ≠ 0) (hfat : b.nfsect ≠ 0) :
    ∃ m, 0 < m ∧ b.nfsect * (b.nbyte / 2) = 256 * m ∧ b.nfsect * b.nbyte = 512 * m := by
  obtain ⟨k, hk⟩ := hbytes
  refine ⟨b.nfsect * k, Nat.mul_pos (Nat.pos_of_ne_zero hfat) (by omega), ?_, ?_⟩
  · rw [hk, show 512 * k / 2 = 256 * k by omega, Nat.mul_left_comm]
  · rw [hk, Nat.mul_left_comm]

/-- What is left of `size` clusters on a FAT with `tmp` entries of 16 bits. -/
theorem shorten_cases (fatsize secsize : ℕ) {size m : ℕ} (hsize : size < 2 ^ 16) (hm : 0 < m)
    (htmp : fatsize * (secsize / 2) = 256 * m) :
    (shorten fatsize secsize size = size ∧
        (fatMagic < size ∧ (256 * m ≤ fatMagic ∨ size < 256 * m) ∨
          size ≤ fatMagic ∧ 3 * (size + 1) ≤ 4 * (256 * m))) ∨
      (fatMagic < size ∧ fatMagic < 256 * m ∧ 256 * m ≤ size ∧
        shorten fatsize secsize size = 256 * m - 1) ∨
      (size ≤ fatMagic ∧ 256 * m * 4 / 3 ≤ size ∧
        shorten fatsize secsize size = 256 * m * 4 / 3 - 1) := by
  have hmagic : fatMagic = 4085 := rfl
  have hpred : ∀ n, 0 < n → n ≤ size → (n + 2 ^ 16 - 1) % 2 ^ 16 = n - 1 := by
    intro n h0 hn
    omega
  rw [shorten, htmp]
  dsimp only
  split_ifs with h1 h2 h3 h4 h5 h6
  · refine Or.inl ⟨rfl, ?_⟩
    omega
  · exact Or.inl ⟨rfl, Or.inl ⟨h2, Or.inl h3⟩⟩
  · exact Or.inr (Or.inl ⟨h2, by omega, h4, hpred _ (by omega) h4⟩)
  · exact Or.inl ⟨rfl, Or.inl ⟨h2, Or.inr (by omega)⟩⟩
  · exact Or.inl ⟨rfl, Or.inr ⟨by omega, by omega⟩⟩
  · exact Or.inr (Or.inr ⟨by omega, h6, hpred _ (by omega) h6⟩)
  · exact Or.inl ⟨rfl, Or.inr ⟨by omega, by omega⟩⟩

/-- **The FAT has room for all clusters**, and its type is the one that the number of clusters
implied before it was backed down, if it implied one. -/
theorem bpbToDpb_room (hfat : b.nfsect ≠ 0) (hbytes : 512 ∣ b.nbyte) (hpos : b.nbyte ≠ 0)
    (hpass : ¬ b.LetPass) (hd : bpbToDpb b d extended fsinfo = some d') :
    (∀ c, 2 ≤ c → c ≤ d'.size → ∀ i ∈ entryBytes d'.toDpb c, i / d'.secsize < b.nfsect) ∧
      (d'.isFat12 = true ↔ 0 < b.unclipped ∧ b.unclipped ≤ fatMagic) ∧
      (fatMagic < b.unclipped ∧ b.unclipped ≤ fatMagic16 → d'.isFat16 = true) := by
  obtain ⟨-, hsec, hsize⟩ := bpbToDpb_size hfat hd
  obtain ⟨m, hm, htmp, hroom⟩ := fatEntries hbytes hpos hfat
  have h12 : fatMagic = 4085 := rfl
  have h16 : fatMagic16 = 65525 := rfl
  have hlt := unclipped_lt b
  rw [Bpb.LetPass, htmp] at hpass
  have hcases := shorten_cases b.nfsect b.nbyte hlt hm htmp
  rw [← hsize] at hcases
  refine ⟨fun c h2 hc i hi => ?_, ?_, fun h => ?_⟩
  · rw [hsec, Nat.div_lt_iff_lt_mul (Nat.pos_of_ne_zero hpos), hroom]
    rw [entryBytes] at hi
    simp only [Fat.Dpb.isFat12, Fat.Dpb.isFat16, Bool.and_eq_true, decide_eq_true_eq] at hi
    split_ifs at hi with hk hk'
    · simp only [List.mem_cons, List.not_mem_nil, or_false] at hi
      omega
    · simp only [List.mem_cons, List.not_mem_nil, or_false] at hi
      omega
    · exact nomatch hi
  · simp only [Fat.Dpb.isFat12, Bool.and_eq_true, decide_eq_true_eq]
    omega
  · simp only [Fat.Dpb.isFat16, Bool.and_eq_true, decide_eq_true_eq]
    omega

/-- A volume with a FAT of 255 sectors, too small for its 65529 clusters. -/
def tooMany : Bpb where
  nbyte := 512
  nsector := 1
  nreserved := 1
  nfat := 1
  ndirent := 512
  nsize := 0
  mdesc := 0xf8
  nfsect := 255
  nsecs := 63
  nheads := 255
  hidden := 0
  huge := 65817
  xnfsect := 0
  xflags := 0
  xfsversion := 0
  xrootclst := 0
  xfsinfosec := 0
  xbackupsec := 0

/-- What a DPB is before it has been filled. -/
def blankDpb : Dpb :=
  { unit := 2, secsize := 0, clsmask := 0, shftcnt := 0, dirents := 0, data := 0, size := 0
    fatsize := 0, dirstrt := 0, cluster := 0, xnfreeclst := 0, xdata := 0, xsize := 0
    xrootclst := 0, xcluster := 0, mdb := 0, fatstrt := 0, fats := 0, flags := 0, xflags := 0
    xfsinfosec := 0, xbackupsec := 0, xfatsize := 0 }

theorem bpbToDpb_room_tooMany : ∃ d', bpbToDpb tooMany blankDpb false (fun _ => 0) = some d' ∧
    (∀ c, 2 ≤ c → c ≤ d'.size → ∀ i ∈ entryBytes d'.toDpb c, i / d'.secsize < 255) := by
  obtain ⟨d', hd'⟩ : ∃ d', bpbToDpb tooMany blankDpb false (fun _ => 0) = some d' := ⟨_, rfl⟩
  have hpass : ¬ tooMany.LetPass := fun h => absurd h.2 (by decide)
  exact ⟨d', hd', (bpbToDpb_room (by decide) (by decide) (by decide) hpass hd').1⟩

/-- By its number of clusters it is neither a FAT12 nor a FAT16, and then it is a FAT16. -/
theorem tooMany_becomes_fat16 : ¬ ∀ (b : Bpb) (d d' : Dpb) (extended : Bool) (fsinfo : Sector),
    b.nfsect ≠ 0 → 512 ∣ b.nbyte → b.nbyte ≠ 0 → ¬ b.LetPass →
      bpbToDpb b d extended fsinfo = some d' →
        (d'.isFat16 = true ↔ fatMagic < b.unclipped ∧ b.unclipped ≤ fatMagic16) := by
  intro h
  have hpass : ¬ tooMany.LetPass := fun h => absurd h.2 (by decide)
  have := (h tooMany blankDpb _ false (fun _ => 0) (by decide) (by decide) (by decide) hpass
    rfl).mp (by decide +kernel)
  exact absurd this.2 (by decide +kernel)

end Boot
end BurdahDos
