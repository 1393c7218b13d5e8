import BurdahDos.Path.Resolve
import Mathlib

/-!
# The buffer of `truename`

Every character goes through the bound check of `addChar`, but the terminator does not: a path of
exactly `SFTMAX` characters puts it behind the buffer.  The other way out of the buffers is the
made-up drive P: of a device on an invalid drive.  Its `TempCDS` has no `cdsBackslashOffset`, and
the name is copied to it without a bound.

`truename_inBounds` says that there is no third.
-/

set_option autoImplicit false

namespace BurdahDos
namespace Path

/-! ## Up to the loop -/

/-- What the loop starts from. -/
structure Start.Ok (s : Start) (front : UInt8) (root : Str) (sep : UInt8) : Prop where
  rootPos : s.rootPos = root.length
  rooted : Rooted root sep
  at_root : s.buf.At root sep
  frontOk : FrontOk front root sep s.src s.buf.p

/-- A copied string and its terminator are within the buffer. -/
theorem length_strcpy (dest : List UInt8) (s : Str) :
    (strcpy dest s).length = max dest.length (s.length + 1) := by
  simp only [strcpy, List.length_append, List.length_cons, List.length_drop]
  omega

theorem Cds.getLast?_root (cds : Cds) :
    (cds.currentPath.take cds.backslashOffset).getLast? ≠ some backslash := by
  have h := cds.offset_ge
  have hle := cds.offset_le
  rw [List.getLast?_eq_getElem?, List.length_take, Nat.min_eq_left hle,
    List.getElem?_take_of_lt (by omega)]
  exact cds.root_ne

/-- `TempCDS` as `truename` uses it: of a drive, or of the made-up one. -/
structure TempCds.Ok (t : TempCds) : Prop where
  length_lt : t.currentPath.length < maxCdsPath
  root : t.real = true → 2 ≤ t.backslashOffset ∧
    t.backslashOffset ≤ t.currentPath.length ∧
    (t.currentPath.take t.backslashOffset).getLast? ≠ some backslash
  made_up : t.real = false → t.backslashOffset = 0

theorem TempCds.ok_ofCds (cds : Cds) : (TempCds.ofCds cds).Ok where
  length_lt := cds.path_lt
  root := fun _ => ⟨cds.offset_ge, cds.offset_le, cds.getLast?_root⟩
  made_up := fun h => (nomatch h)

theorem TempCds.ok_ofName {s : Str} (h : s.length < maxCdsPath) : (TempCds.ofName s).Ok where
  length_lt := h
  root := fun h => (nomatch h)
  made_up := fun _ => rfl

theorem TempCds.Ok.root_last {t : TempCds} (h : t.Ok) :
    (t.currentPath.take t.backslashOffset).getLast? ≠ some backslash := by
  cases he : t.real with
  | false => simp [h.made_up he]
  | true => exact (h.root he).2.2

/-- Falling back to the root keeps it. -/
theorem TempCds.Ok.enterDir {t : TempCds} (h : t.Ok) (k : Kernel) : (k.enterDir t).Ok := by
  rw [Kernel.enterDir]
  split
  · exact h
  · refine ⟨?_, ?_, h.made_up⟩
    · exact Nat.lt_of_le_of_lt (List.length_take_le' _ _) h.length_lt
    · intro he
      obtain ⟨h₁, h₂, h₃⟩ := h.root he
      refine ⟨h₁, ?_, ?_⟩
      · change t.backslashOffset ≤ (t.currentPath.take (t.backslashOffset + 1)).length
        rw [List.length_take]
        omega
      · change ((t.currentPath.take (t.backslashOffset + 1)).take t.backslashOffset).getLast? ≠ _
        rw [List.take_take, Nat.min_eq_left (by omega)]
        exact h₃

@[simp] theorem Kernel.real_enterDir (k : Kernel) (t : TempCds) :
    (k.enterDir t).real = t.real := by
  rw [Kernel.enterDir]
  split <;> rfl

/-- The names of the made-up drive that lead astray: those that do not fit into `TempCDS`, and those
with more of a path than `\DEV\`, if there happens to be a backslash in front of the buffer. -/
def Kernel.Stray (k : Kernel) (front : UInt8) (src : Str) (mode : Mode) : Prop :=
  src ≠ [] ∧ ¬ (src.head? = some backslash ∧ src.tail.head? = some backslash) ∧
  k.remote src mode = none ∧ k.getCds (k.driveOf src) = none ∧ (k.isDevice src).isSome ∧
  devOnly (skipDrive src) ∧
  (maxCdsPath ≤ (devName (skipDrive src)).length ∨
    (¬ k.isPlain (skipDrive src) ∧ ¬ mode.skipPhysical ∧ (skipDrive src).head?.any isSep ∧
      front = backslash))

/-- The bytes that `truename` stores through `dest` are within the `SFTMAX` bytes of its callers,
the terminator included, and a path that it returns fits. -/
structure Truename.InBounds (r : Truename) : Prop where
  not_astray : r.astray = false
  stored_le : r.stored ≤ sftMax
  path_fits : 0 ≤ r.code → r.path.length < sftMax

theorem addString_adds (src s : Str) {b : Buf} (h : b.Fits) :
    Adds b (s ++ [0]) (addString src s b) := by
  induction s generalizing b with
  | nil => exact addChar_adds h src 0
  | cons c s ih =>
    rw [List.cons_append, addString]
    rcases addChar_adds h src c with ⟨hc, ha⟩ | ⟨hc, hlen, hp⟩
    · rw [if_neg (by simp [hc])]
      rcases ih ha.fits with ⟨hi, hq⟩ | ⟨hi, hq, hp⟩
      · exact .inl ⟨hi, ha.trans hq h⟩
      · refine .inr ⟨hi, hq, ?_⟩
        rw [ha.p h, List.length_singleton] at hp
        rw [List.length_cons]
        omega
    · rw [if_pos (Int.ne_of_lt hc)]
      refine .inr ⟨hc, hlen, ?_⟩
      rw [List.length_singleton] at hp
      rw [List.length_cons]
      omega

theorem Kernel.fail_inBounds (k : Kernel) {code : ℤ} {dest : List UInt8}
    (h : dest.length ≤ sftMax) : (k.fail code dest).InBounds where
  not_astray := rfl
  stored_le := h
  path_fits := fun _ => (by decide : 0 < sftMax)

/-- The buffer before the loop: a root, the backslash and the current directory, with `p` behind one
of them and then in front of a trailing separator. -/
theorem at_start {start tail dest : List UInt8} {front : UInt8} {p : ℕ}
    (hstart : start.getLast? ≠ some backslash) (hlen : start.length + tail.length + 1 < sftMax)
    (hp : p = start.length ∨ p = (start ++ backslash :: tail).length)
    (hdest : dest.length ≤ sftMax)
    (hfront : ¬ (charBefore front (start ++ backslash :: tail) p = backslash ∧ p = 0)) :
    Buf.At
      { dest := strcpy dest (start ++ backslash :: tail)
        p := if charBefore front (start ++ backslash :: tail) p = backslash then p - 1 else p }
      start backslash := by
  have hlen' : (start ++ backslash :: tail).length < sftMax := by
    rw [List.length_append, List.length_cons]
    omega
  have hle : start.length ≤
      if charBefore front (start ++ backslash :: tail) p = backslash then p - 1 else p := by
    rcases hp with hp | hp
    · rw [if_neg ?_, hp]
      intro he
      have hz : p ≠ 0 := fun hz => hfront ⟨he, hz⟩
      rw [charBefore, if_neg hz, List.getElem?_append_left (by omega),
        List.getElem?_eq_getElem (by omega), Option.getD_some] at he
      refine hstart ?_
      rw [List.getLast?_eq_getElem?, ← hp, List.getElem?_eq_getElem (by omega), he]
    · rw [List.length_append, List.length_cons] at hp
      split <;> omega
  have hle' : (if charBefore front (start ++ backslash :: tail) p = backslash then p - 1 else p) ≤
      (start ++ backslash :: tail).length := by
    have : p ≤ (start ++ backslash :: tail).length := by
      rcases hp with hp | hp <;> rw [hp]
      rw [List.length_append]
      omega
    split <;> omega
  generalize (if charBefore front (start ++ backslash :: tail) p = backslash then p - 1 else p) = q
    at *
  refine ⟨⟨?_, ?_⟩, ?_, ?_⟩
  · rw [length_strcpy]
    dsimp only
    omega
  · rw [length_strcpy]
    omega
  · rw [Buf.text, strcpy, List.take_append_of_le_length hle',
      List.take_append, List.take_of_length_le hle]
    exact List.prefix_append _ _
  · rw [strcpy, List.append_assoc, List.getElem?_append_right (Nat.le_refl _), Nat.sub_self]
    rfl

theorem behind_of_no_sep {src : Str} (h : ¬ src.any isSep = true) : behind src = [] := by
  have hall : ∀ c ∈ src, isSep c = false := by simpa using h
  rw [behind, List.dropWhile_eq_nil_iff]
  intro c hc
  simp [hall c ((List.dropWhile_sublist isSep).mem hc)]

theorem length_getRoot_le (src : Str) : (getRoot src).length ≤ src.length := by
  rw [getRoot, List.length_reverse, ← @List.length_reverse _ src]
  exact (List.takeWhile_sublist _).length_le

/-- The drive letter is no part of the name. -/
theorem getRoot_skipDrive (src : Str) : getRoot (skipDrive src) = getRoot src := by
  rw [skipDrive]
  split
  case isFalse => rfl
  case isTrue h =>
    match src, h with
    | c :: d :: src, h =>
      obtain rfl : d = colon := Option.some.inj h
      have hstop : [colon, c].takeWhile (fun c => !(isSep c || c == colon)) = [] := rfl
      rw [getRoot, getRoot, List.drop_succ_cons, List.drop_succ_cons, List.drop_zero,
        List.reverse_cons, List.reverse_cons, List.append_assoc, List.singleton_append,
        List.takeWhile_append, hstop, List.append_nil]
      split
      case isTrue hall => rw [(List.takeWhile_sublist _).eq_of_length hall]
      case isFalse => rfl

/-- There is something in front of the name of a device that is not plain. -/
theorem Kernel.two_le_of_not_plain (k : Kernel) {src : Str} (hdev : (k.isDevice src).isSome)
    (h : ¬ k.isPlain (skipDrive src) = true) : 2 ≤ (skipDrive src).length := by
  have hne : getRoot (skipDrive src) ≠ [] := by
    intro hnil
    rw [getRoot_skipDrive] at hnil
    simp [Kernel.isDevice, hnil] at hdev
  have hpos := List.length_pos_iff.2 hne
  have hle := length_getRoot_le (skipDrive src)
  have hlen : (skipDrive src).length ≠ (getRoot (skipDrive src)).length := by
    intro he
    simp [Kernel.isPlain, he] at h
  omega

/-- What `qualify` leads to, with a path of the made-up drive in front of which there is a
backslash: it leads astray. -/
def TempCds.Underrun (t : TempCds) (front : UInt8) (src : Str) (mode : Mode) : Prop :=
  t.real = false ∧ ¬ mode.skipPhysical ∧ src.head?.any isSep ∧ front = backslash

theorem Kernel.qualify_spec (k : Kernel) (front : UInt8) (mode : Mode) (drive result : ℕ)
    {t : TempCds} (ht : t.Ok) {src : Str} (dest : List UInt8) (hdest : dest.length ≤ 12)
    (hsrc : t.real = false → src.any isSep → src.head?.any isSep)
    (hname : t.real = false → ¬ src.any isSep → t.currentPath = src ∧ 2 ≤ src.length) :
    (∃ r, k.qualify front mode drive result t src dest = .error r ∧ r.astray = true ∧
        t.Underrun front src mode) ∨
    (¬ t.Underrun front src mode ∧
      ((∃ r, k.qualify front mode drive result t src dest = .error r ∧ r.InBounds) ∨
        ∃ s root, k.qualify front mode drive result t src dest = .ok s ∧
          s.Ok front root backslash)) := by
  unfold Kernel.qualify
  dsimp only
  by_cases hmedia : (t.real && !t.netwdrv) = true ∧ (!k.mediaCheck drive) = true
  · rw [if_pos hmedia]
    refine .inr ⟨?_, .inl ⟨_, rfl, ?_⟩⟩
    · rintro ⟨he, -⟩
      simp [he] at hmedia
    · refine k.fail_inBounds ?_
      simp only [sftMax]
      omega
  rw [if_neg hmedia]
  have hsame : t.real = false →
      (if (t.real && !t.netwdrv) = true then k.enterDir t else t) = t := by
    intro he
    rw [if_neg (by simp [he])]
  generalize (t.real && !t.netwdrv) = isLocal at *
  have ht' : (if isLocal = true then k.enterDir t else t).Ok := by
    split
    · exact ht.enterDir k
    · exact ht
  have he' : (if isLocal = true then k.enterDir t else t).real = t.real := by
    split
    · exact k.real_enterDir t
    · rfl
  have hunder : t.Underrun front src mode ↔
      (if isLocal = true then k.enterDir t else t).Underrun front src mode := by
    rw [TempCds.Underrun, TempCds.Underrun, he']
  rw [← he'] at hsrc
  rw [hunder]
  generalize (if isLocal = true then k.enterDir t else t) = u at *
  have hlt := ht'.length_lt
  generalize htail : (u.currentPath.drop u.backslashOffset).tail = tail
  generalize hstart : (if mode.skipPhysical = true then
    [drNrToLetter (result &&& 0x1f), colon] else u.currentPath.take u.backslashOffset) = start
  have hlast : start.getLast? ≠ some backslash := by
    rw [← hstart]
    split
    · exact fun h => (nomatch h)
    · exact ht'.root_last
  have hlen : start.length + tail.length + 1 < sftMax := by
    have h₁ : start.length ≤ u.currentPath.length + 2 := by
      rw [← hstart]
      split
      · exact Nat.le_add_left _ _
      · rw [List.length_take]
        omega
    have h₂ : tail.length ≤ u.currentPath.length - u.backslashOffset - 1 := by
      rw [← htail, List.length_tail, List.length_drop]
    have h₃ : start.length ≤ u.backslashOffset ∨ start.length = 2 := by
      rw [← hstart]
      split
      · exact .inr rfl
      · rw [List.length_take]
        omega
    simp only [maxCdsPath, sftMax] at *
    omega
  have hnil : start = [] ↔ u.real = false ∧ ¬ mode.skipPhysical = true := by
    rw [← hstart]
    constructor
    · intro h
      split at h
      · cases h
      · refine ⟨?_, ‹_›⟩
        cases he : u.real with
        | false => rfl
        | true =>
          have hr := ht'.root he
          have := congrArg List.length h
          rw [List.length_take, List.length_nil] at this
          omega
    · rintro ⟨he, hs⟩
      rw [if_neg hs, ht'.made_up he, List.take_zero]
  generalize hp : (if src.head?.any isSep = true then start.length
    else (start ++ backslash :: tail).length) = p
  have hp' : p = start.length ∨ p = (start ++ backslash :: tail).length := by
    rw [← hp]
    split
    · exact .inl rfl
    · exact .inr rfl
  have hastray : (charBefore front (start ++ backslash :: tail) p = backslash ∧ p = 0) ↔
      u.Underrun front src mode := by
    rw [TempCds.Underrun]
    constructor
    · rintro ⟨hc, hz⟩
      rw [charBefore, if_pos hz] at hc
      subst hz
      split at hp
      case isTrue habs =>
        obtain ⟨h₁, h₂⟩ := hnil.1 (List.length_eq_zero_iff.1 hp)
        exact ⟨h₁, h₂, habs, hc⟩
      case isFalse =>
        rw [List.length_append, List.length_cons] at hp
        omega
    · rintro ⟨h₁, h₂, habs, hc⟩
      rw [if_pos habs, hnil.2 ⟨h₁, h₂⟩, List.length_nil] at hp
      rw [charBefore, if_pos hp.symm]
      exact ⟨hc, hp.symm⟩
  by_cases hu : u.Underrun front src mode
  · rw [if_pos (hastray.2 hu)]
    exact .inl ⟨_, rfl, rfl, hu⟩
  · rw [if_neg (mt hastray.1 hu)]
    refine .inr ⟨hu, .inr ⟨_, start, rfl, rfl, ⟨hlast, hlast⟩, ?_, ?_⟩⟩
    · exact at_start hlast hlen hp' (by simp only [sftMax]; omega) (mt hastray.1 hu)
    · intro hs
      obtain ⟨h₁, h₂⟩ := hnil.1 hs
      by_cases habs : src.head?.any isSep = true
      · refine .inl fun hf => hu ⟨h₁, h₂, habs, hf⟩
      · -- a name without separators is a single segment
        have hany : ¬ src.any isSep = true := mt (hsrc h₁) habs
        obtain ⟨hcp, h2⟩ := hname (by rw [← he']; exact h₁) hany
        rw [if_neg habs]
        refine .inr ⟨behind_of_no_sep hany, .inr ?_⟩
        dsimp only
        rw [if_neg habs, hs, List.nil_append, List.length_cons] at hp
        have he : t.real = false := by rw [← he']; exact h₁
        have ht : tail.length = src.length - 1 := by
          rw [← htail, ht'.made_up h₁, List.drop_zero, List.length_tail, hsame he, hcp]
        split <;> omega

/-- What a step of `truename` towards the loop comes to, if `bad` is what leads it astray. -/
def Leads (bad : Prop) (front : UInt8) (r : Except Truename Start) : Prop :=
  (∃ t, r = .error t ∧ t.astray = true ∧ bad) ∨
    (¬ bad ∧ ((∃ t, r = .error t ∧ t.InBounds) ∨
      ∃ s root sep, r = .ok s ∧ s.Ok front root sep))

theorem Leads.congr {bad bad' : Prop} {front : UInt8} {r : Except Truename Start}
    (h : Leads bad front r) (hb : bad ↔ bad') : Leads bad' front r := by
  rw [Leads, ← hb]
  exact h

theorem Leads.error {bad : Prop} {front : UInt8} {t : Truename} (hb : ¬ bad) (h : t.InBounds) :
    Leads bad front (.error t) :=
  .inr ⟨hb, .inl ⟨t, rfl, h⟩⟩

theorem Kernel.mapLocal_leads (k : Kernel) (front : UInt8) (mode : Mode) (drive result : ℕ)
    {t : TempCds} (ht : t.Ok) (dhp : Option Dhdr) {src : Str}
    (hsrc : t.real = false → (skipDrive src).any isSep → (skipDrive src).head?.any isSep)
    (hname : t.real = false → ¬ (skipDrive src).any isSep → ¬ k.isPlain (skipDrive src) →
      t.currentPath = skipDrive src ∧ 2 ≤ (skipDrive src).length)
    (hdev : t.real = false → dhp.isSome) :
    Leads (t.Underrun front (skipDrive src) mode ∧ ¬ k.isPlain (skipDrive src)) front
      (k.mapLocal front mode drive result t dhp src) := by
  rw [Kernel.mapLocal]
  dsimp only
  generalize hres : (if dhp.isSome = true then withBit (if t.netwdrv = true then
    withBit result isNetworkBit else result) isDeviceBit else
    if t.netwdrv = true then withBit result isNetworkBit else result) = res
  have hbit : t.real = false → res &&& isDeviceBit ≠ 0 := by
    intro he
    rw [← hres, if_pos (hdev he), withBit, isDeviceBit]
    intro h0
    have h5 := congrArg (fun n : ℕ => n.testBit 5) h0
    rw [Nat.testBit_and, Nat.testBit_or, show Nat.testBit 0x20 5 = true from rfl] at h5
    simp at h5
  by_cases hplain : res &&& isDeviceBit ≠ 0 ∧ k.isPlain (skipDrive src) = true
  · rw [if_pos hplain]
    refine .inr ⟨fun h => h.2 hplain.2, .inr ⟨_, [drNrToLetter (res &&& 0x1f), colon], slash, rfl, rfl,
      ⟨fun h => (nomatch h), fun h => (nomatch h)⟩, ⟨⟨?_, ?_⟩, ⟨[], rfl⟩, rfl⟩, fun h => (nomatch h)⟩⟩
    · simp
    · simp [sftMax]
  · rw [if_neg hplain]
    have hiff : t.Underrun front (skipDrive src) mode ↔
        (t.Underrun front (skipDrive src) mode ∧ ¬ k.isPlain (skipDrive src)) :=
      ⟨fun h => ⟨h, fun hp => hplain ⟨hbit h.1, hp⟩⟩, fun h => h.1⟩
    have hnot : t.real = false → ¬ k.isPlain (skipDrive src) = true :=
      fun he hp => hplain ⟨hbit he, hp⟩
    rcases @Kernel.qualify_spec k front mode drive res _ ht (skipDrive src)
        (drNrToLetter (res &&& 0x1f) :: colon :: backslash :: List.replicate 9 0) (by simp)
        hsrc (fun he ha => hname he ha (hnot he)) with ⟨r, hr, ha, hu⟩ | ⟨hu, hr⟩
    · exact .inl ⟨r, hr, ha, hiff.1 hu⟩
    · refine .inr ⟨mt hiff.2 hu, ?_⟩
      rcases hr with h | ⟨s, root, hs, hok⟩
      · exact .inl h
      · exact .inr ⟨s, root, backslash, hs, hok⟩

/-- **Up to the loop, only the made-up drive leads astray.** -/
theorem Kernel.begin_leads (k : Kernel) (front : UInt8) (src : Str) (mode : Mode)
    (hq : ∀ s path, k.qRemoteFn s = some path → path.length < sftMax) :
    Leads (k.Stray front src mode) front (k.begin front src mode) := by
  rw [Kernel.begin]
  dsimp only
  by_cases hnil : src = []
  · rw [if_pos hnil]
    exact .error (fun h => h.1 hnil) (k.fail_inBounds (Nat.zero_le _))
  rw [if_neg hnil]
  by_cases hunc : src.head? = some backslash ∧ src.tail.head? = some backslash
  · rw [if_pos hunc]
    have hbad : ¬ k.Stray front src mode := fun h => h.2.1 hunc
    rcases addString_adds src src (b := ⟨[], 0⟩) ⟨Nat.le_refl _, Nat.zero_le _⟩ with
      ⟨hc, ha⟩ | ⟨hc, hlen, hp⟩
    · rw [if_neg (by simp [hc])]
      have hlen := ha.p ⟨Nat.le_refl _, Nat.zero_le _⟩
      have hp := ha.fits.p_le
      have hd := ha.fits.dest_le
      rw [List.length_append, List.length_singleton] at hlen
      exact .error hbad ⟨rfl, hd, fun _ => by dsimp only at *; omega⟩
    · rw [if_pos (Int.ne_of_lt hc)]
      exact .error hbad (k.fail_inBounds hlen)
  rw [if_neg hunc]
  cases hrem : k.remote src mode with
  | some path =>
    refine .error (fun h => ?_) ⟨rfl, (by decide : 12 ≤ sftMax), fun _ => ?_⟩
    · have hn := h.2.2.1
      rw [hrem] at hn
      cases hn
    · rw [Kernel.remote] at hrem
      split at hrem
      · cases hrem
      · exact hq src path (Option.filter_eq_some_iff.1 hrem).1
  | none =>
    have hzero : (List.replicate 12 (0 : UInt8)).length ≤ sftMax := by decide
    dsimp only
    split
    case h_1 cds hcds =>
      refine (k.mapLocal_leads front mode _ _ (TempCds.ok_ofCds cds) _ (fun h => (nomatch h))
        (fun h => (nomatch h)) (fun h => (nomatch h))).congr ⟨?_, ?_⟩
      · rintro ⟨⟨h, -⟩, -⟩
        exact nomatch h
      · rintro ⟨-, -, -, h, -⟩
        rw [hcds] at h
        cases h
    case h_2 hcds hdev =>
      refine .error ?_ (k.fail_inBounds hzero)
      rintro ⟨-, -, -, -, h, -⟩
      rw [hdev] at h
      cases h
    case h_3 dhp hcds hdev =>
      by_cases hdo : devOnly (skipDrive src) = true
      · rw [if_neg (by simp [hdo])]
        by_cases hlong : maxCdsPath ≤ (devName (skipDrive src)).length
        · rw [if_pos hlong]
          exact .inl ⟨_, rfl, rfl, hnil, hunc, hrem, hcds, by rw [hdev]; rfl, hdo, .inl hlong⟩
        · rw [if_neg hlong]
          refine (k.mapLocal_leads front mode _ _ (TempCds.ok_ofName (by omega)) _ ?_ ?_
            (fun _ => rfl)).congr ⟨?_, ?_⟩
          · intro _ hany
            rw [devOnly, hany] at hdo
            simp only [Bool.not_true, Bool.false_or, Bool.and_eq_true] at hdo
            exact hdo.1.1
          · intro _ hany hplain
            exact ⟨by rw [TempCds.ofName, devName, if_neg hany],
              k.two_le_of_not_plain (by rw [hdev]; rfl) hplain⟩
          · rintro ⟨⟨-, h₁, h₂, h₃⟩, h₄⟩
            exact ⟨hnil, hunc, hrem, hcds, by rw [hdev]; rfl, hdo, .inr ⟨h₄, h₁, h₂, h₃⟩⟩
          · rintro ⟨-, -, -, -, -, -, h | ⟨h₁, h₂, h₃, h₄⟩⟩
            · exact absurd h hlong
            · exact ⟨⟨rfl, h₂, h₃, h₄⟩, h₁⟩
      · rw [if_pos (by simp [hdo])]
        exact .error (fun h => hdo h.2.2.2.2.2.1) (k.fail_inBounds hzero)

/-! ## From the loop on -/

/-- The path that the loop comes to, and whether its last component has wildcards. -/
def Start.resolve (s : Start) : Option (Str × Bool) :=
  walk s.rootPos (s.buf.dest[s.rootPos]?.getD 0) s.src.length s.src false s.buf.text

/-- The path is rejected, or it is not just as long as the buffer. -/
def Start.NotFull (s : Start) (mode : Mode) : Prop :=
  ∀ path wild, s.resolve = some (path, wild) → (wild → mode.allowWildcards) →
    path.length ≠ sftMax

@[simp] theorem Kernel.finish_stored (k : Kernel) (mode : Mode) (result : ℕ) (path : Str)
    (stored : ℕ) : (k.finish mode result path stored).stored = stored := by
  rw [Kernel.finish]
  split
  · rfl
  · split
    · rfl
    · split <;> rfl

@[simp] theorem Kernel.finish_astray (k : Kernel) (mode : Mode) (result : ℕ) (path : Str)
    (stored : ℕ) : (k.finish mode result path stored).astray = false := by
  rw [Kernel.finish]
  split
  · rfl
  · split
    · rfl
    · split <;> rfl

theorem Cds.two_le_length (cds : Cds) : 2 ≤ cds.currentPath.length :=
  Nat.le_trans cds.offset_ge cds.offset_le

theorem Kernel.joinedDrive_lt {k : Kernel} {path : Str} {i : ℕ} (h : k.joinedDrive path = some i) :
    ∃ cds, k.cds[i]? = some cds := by
  obtain ⟨hi, -⟩ := List.findIdx?_eq_some_iff_getElem.1 h
  exact ⟨_, List.getElem?_eq_getElem hi⟩

/-- The path of a JOINed drive is not longer. -/
theorem Kernel.length_finish_le (k : Kernel) (mode : Mode) (result : ℕ) (path : Str)
    (stored : ℕ) : (k.finish mode result path stored).path.length ≤ max path.length 3 := by
  rw [Kernel.finish]
  dsimp only
  split
  case h_1 i hi =>
    split at hi
    case isFalse => cases hi
    case isTrue =>
      obtain ⟨cds, hcds⟩ := Kernel.joinedDrive_lt hi
      have h2 := cds.two_le_length
      simp only [hcds, Option.map_some, Option.getD_some, List.length_cons]
      split
      · exact Nat.le_max_right _ _
      · rw [List.length_drop]
        omega
  case h_2 =>
    split
    · exact Nat.zero_le _
    · split
      · exact Nat.le_max_left _ _
      · exact Nat.le_max_left _ _

/-- From the loop on, the terminator of a path that fills the buffer is the one thing that is stored
outside. -/
theorem Start.complete_inBounds {s : Start} {front sep : UInt8} {root : Str}
    (h : s.Ok front root sep) (mode : Mode) :
    (s.complete front mode).InBounds ↔ s.NotFull mode := by
  have hwalk := appendPath_walk h.rooted s.src.length s.src false h.at_root h.frontOk
  have hres : s.resolve =
      walk root.length sep s.src.length s.src false s.buf.text := by
    rw [Start.resolve, h.rootPos, h.at_root.sep_at, Option.getD_some]
  rw [Start.complete, h.rootPos]
  dsimp only at hwalk ⊢
  generalize appendPath front root.length s.src.length s.src false s.buf = r at *
  rcases hwalk with ⟨hw, hr, hat⟩ | ⟨hw, hr, hlen⟩
  case inr =>
    rw [if_pos (Int.ne_of_lt hr)]
    refine ⟨?_, fun _ => s.k.fail_inBounds hlen⟩
    intro _ path wild hp
    rw [hres, hw] at hp
    cases hp
  rw [if_neg (by simp [hr])]
  have hlen := hat.fits.length_text
  have hp := hat.fits.p_le
  have hd := hat.fits.dest_le
  by_cases hwild : (r.2.1 && !mode.allowWildcards) = true
  · rw [if_pos hwild]
    refine ⟨?_, fun _ => s.k.fail_inBounds hd⟩
    intro _ path wild hpath ha
    rw [hres, hw] at hpath
    cases hpath
    rw [Bool.and_eq_true] at hwild
    simp [ha hwild.1] at hwild
  rw [if_neg hwild]
  have hfull : s.NotFull mode ↔ r.2.2.p ≠ sftMax := by
    constructor
    · intro hn
      rw [← hlen]
      refine hn r.2.2.text r.2.1 (by rw [hres, hw]) ?_
      intro ht
      simpa [ht] using hwild
    · intro hn path wild hpath _
      rw [hres, hw] at hpath
      cases hpath
      rwa [hlen]
  rw [hfull]
  obtain ⟨q, hq, hqfits, hqp⟩ : ∃ q, (if r.2.2.p = 2 then addChar [] backslash r.2.2
      else (0, r.2.2)) = (0, q) ∧ q.Fits ∧ (q.p = sftMax ↔ r.2.2.p = sftMax) := by
    split
    case isTrue h2 =>
      have hlt : r.2.2.p < sftMax := by rw [h2]; decide
      refine ⟨r.2.2.put backslash, by rw [addChar, if_neg (by omega)], hat.fits.put hlt _, ?_⟩
      simp [Buf.put, h2, sftMax]
    case isFalse => exact ⟨r.2.2, rfl, hat.fits, Iff.rfl⟩
  rw [hq, if_neg (by simp), Ne, ← not_congr hqp]
  have hqp' := hqfits.p_le
  have hqd := hqfits.dest_le
  have hput := Buf.length_put hqp' 0
  constructor
  · intro hb hfull
    have := hb.stored_le
    rw [Kernel.finish_stored, hput] at this
    omega
  · intro hn
    refine ⟨s.k.finish_astray .., ?_, fun _ => ?_⟩
    · rw [Kernel.finish_stored, hput]
      omega
    · refine Nat.lt_of_le_of_lt (s.k.length_finish_le ..) ?_
      rw [List.length_append, List.length_map, ← List.length_append, List.take_append_drop,
        hqfits.length_text]
      have : 3 < sftMax := by decide
      omega

/-! ## All of `truename` -/

/-- **`truename` stays within the `SFTMAX` bytes of its buffer, and rejects what does not fit,
exactly if** the name is none of those of the made-up drive that lead astray, and the path that it
comes to with the current directory does not have just `SFTMAX` characters. -/
theorem Kernel.truename_inBounds (k : Kernel) (front : UInt8) (src : Str) (mode : Mode)
    (hq : ∀ s path, k.qRemoteFn s = some path → path.length < sftMax) :
    (k.truename front src mode).InBounds ↔
      ¬ k.Stray front src mode ∧ ∀ s, k.begin front src mode = .ok s → s.NotFull mode := by
  rw [Kernel.truename]
  rcases k.begin_leads front src mode hq with
    ⟨r, hr, ha, hb⟩ | ⟨hb, ⟨r, hr, hin⟩ | ⟨s, root, sep, hs, hok⟩⟩
  · rw [hr]
    refine ⟨fun h => ?_, fun h => absurd hb h.1⟩
    have := h.not_astray
    rw [ha] at this
    cases this
  · rw [hr]
    exact ⟨fun _ => ⟨hb, fun s hs => (nomatch hs)⟩, fun _ => hin⟩
  · rw [hs]
    refine (Start.complete_inBounds hok mode).trans ⟨fun h => ⟨hb, ?_⟩, fun h => h.2 s rfl⟩
    intro s' hs'
    cases hs'
    exact h

/-! ## A kernel with one drive -/

/-- A local drive. -/
def localCds (path : Str) (hlt : path.length < maxCdsPath) (hle : 2 ≤ path.length)
    (hroot : path[1]? ≠ some backslash) : Cds :=
  { currentPath := path, backslashOffset := 2, netwdrv := false, physdrv := true, joined := false
    subst := false, hasDpb := true, path_lt := hlt, offset_ge := Nat.le_refl _, offset_le := hle
    root_ne := hroot }

/-- A kernel with the drive A:, the device CON and no redirector. -/
def smallKernel : Kernel :=
  { cds := [localCds [0x41, colon, backslash] (by decide) (by decide) (by decide)]
    defaultDrive := 0
    njoined := 0
    osMajor := 7
    devices := [{ attr := 0x8000, name := #v[0x43, 0x4f, 0x4e, 0x20, 0x20, 0x20, 0x20, 0x20] }]
    upTable := id
    upFTable := id
    qRemoteFn := fun _ => none
    mediaCheck := fun _ => true
    dosCd := fun _ => true
    dirExists := fun _ => true }

/-- The terminator of `A:\A\A` and so on, with 63 components, is stored behind the buffer. -/
theorem full_path_not_inBounds :
    let src := (List.replicate 63 [backslash, 0x41]).flatten
    let r := smallKernel.truename 0 src ⟨false, true, false⟩
    r.code = 0 ∧ r.path.length = sftMax ∧ r.stored = sftMax + 1 ∧ ¬ r.InBounds := by
  have hr : (smallKernel.truename 0 (List.replicate 63 [backslash, 0x41]).flatten
      ⟨false, true, false⟩).stored = sftMax + 1 := by decide +kernel
  refine ⟨by decide +kernel, by decide +kernel, hr, fun h => ?_⟩
  have := h.stored_le
  rw [hr] at this
  exact absurd this (by decide)

/-- `\B` stays within the buffer. -/
theorem short_path_inBounds :
    ¬ smallKernel.Stray 0 [backslash, 0x42] ⟨false, true, false⟩ ∧
      ∀ s, smallKernel.begin 0 [backslash, 0x42] ⟨false, true, false⟩ = .ok s →
        s.NotFull ⟨false, true, false⟩ :=
  (smallKernel.truename_inBounds 0 [backslash, 0x42] ⟨false, true, false⟩
    (fun _ _ h => (nomatch h))).1 ⟨by decide, by decide, fun _ => by decide⟩

end Path
end BurdahDos
