import BurdahDos.Path.Defs
import Mathlib

/-!
# What the component loop computes

The loop of `truename` edits its output in place, a character at a time.  Here it is taken apart
into segments: `fit` cuts one to the 8.3 convention, `enter` applies one to a path, and `walk`
applies them all.  These are functions of strings; that the loop does the same is
`appendPath_walk`.
-/

set_option autoImplicit false

namespace BurdahDos
namespace Path

/-! ## Segments -/

/-- A segment in the 8.3 convention, and whether it has wildcards.  The arguments are those of
`component`. -/
def fitFrom : Str → ℕ → Bool → Option (Str × Bool)
  | [], _, _ => some ([], false)
  | c :: s, i, hasDot =>
    if c = star then
      (fitFrom s 0 hasDot).map fun r => (List.replicate i quest ++ r.1, true)
    else if c = dot ∧ hasDot then none
    else if c = dot ∧ s = [] then some ([], false)
    else
      let i := if c = dot then fextSize + 1 else i
      let hasDot := hasDot || c == dot
      if i = 0 then (fitFrom s 0 hasDot).map fun r => (r.1, c == quest || r.2)
      else if !dirChar c then none
      else (fitFrom s (i - 1) hasDot).map fun r => (c :: r.1, c == quest || r.2)

/-- A name in the 8.3 convention, and whether it has wildcards. -/
def fit (seg : Str) : Option (Str × Bool) := fitFrom seg fnameSize false

/-- The path after one more segment, and whether that has wildcards. -/
def enter (rootPos : ℕ) (sep : UInt8) (path seg : Str) : Option (Str × Bool) :=
  let path := if path.getLast? = some sep then path else path ++ [sep]
  if sftMax < path.length then none
  else if seg = [dot] then some (path.dropLast, false)
  else if seg = [dot, dot] then
    (backUp rootPos path.dropLast path.dropLast.length).map fun p => (path.take p, false)
  else if seg.head? = some dot then none
  else (fit seg).bind fun r =>
    if sftMax < path.length + r.1.length then none else some (path ++ r.1, r.2)

/-- The first segment of a name. -/
def segment (src : Str) : Str := (src.dropWhile isSep).takeWhile fun c => !isSep c

/-- What comes behind the first segment. -/
def behind (src : Str) : Str := (src.dropWhile isSep).dropWhile fun c => !isSep c

/-- The path after all segments of a name, and whether the last one has wildcards. -/
def walk (rootPos : ℕ) (sep : UInt8) : ℕ → Str → Bool → Str → Option (Str × Bool)
  | 0, _, wild, path => some (path, wild)
  | n + 1, src, wild, path =>
    if src = [] then some (path, wild)
    else if wild then none
    else (enter rootPos sep path (segment src)).bind fun r =>
      walk rootPos sep n (behind src) r.2 r.1

theorem pathError_lt (src : Str) : pathError src < 0 := by
  rw [pathError]
  split <;> decide

/-! ## The buffer -/

/-- The stores are within `SFTMAX`, and `p` is not behind them. -/
structure Buf.Fits (b : Buf) : Prop where
  p_le : b.p ≤ b.dest.length
  dest_le : b.dest.length ≤ sftMax

theorem Buf.Fits.length_text {b : Buf} (h : b.Fits) : b.text.length = b.p := by
  rw [Buf.text, List.length_take]
  exact Nat.min_eq_left h.p_le

theorem Buf.length_put {b : Buf} (h : b.p ≤ b.dest.length) (c : UInt8) :
    (b.put c).dest.length = max b.dest.length (b.p + 1) := by
  simp only [Buf.put, List.length_append, List.length_take, List.length_cons, List.length_drop]
  omega

theorem Buf.text_put {b : Buf} (h : b.p ≤ b.dest.length) (c : UInt8) :
    (b.put c).text = b.text ++ [c] := by
  have hlen : (b.dest.take b.p).length = b.p := by rw [List.length_take]; omega
  simp only [Buf.text, Buf.put]
  rw [List.take_append, hlen, List.take_of_length_le (by omega)]
  simp

/-- Storing at `p` leaves the rest alone. -/
theorem Buf.getElem?_put {b : Buf} (h : b.p ≤ b.dest.length) (c : UInt8) (i : ℕ) :
    (b.put c).dest[i]? = if i = b.p then some c else b.dest[i]? := by
  have hlen : (b.dest.take b.p).length = b.p := by rw [List.length_take]; omega
  simp only [Buf.put]
  by_cases hi : i < b.p
  · rw [List.getElem?_append_left (by omega), List.getElem?_take_of_lt hi, if_neg (by omega)]
  · rw [List.getElem?_append_right (by omega), hlen]
    by_cases he : i = b.p
    · rw [if_pos he, he, Nat.sub_self, List.getElem?_cons_zero]
    · obtain ⟨j, hj⟩ : ∃ j, i - b.p = j + 1 := ⟨i - b.p - 1, by omega⟩
      rw [if_neg he, hj, List.getElem?_cons_succ, List.getElem?_drop]
      congr 1
      omega

theorem Buf.Fits.put {b : Buf} (h : b.Fits) (hp : b.p < sftMax) (c : UInt8) : (b.put c).Fits where
  p_le := by
    rw [Buf.length_put h.p_le]
    exact Nat.le_max_right _ _
  dest_le := by
    rw [Buf.length_put h.p_le]
    have := h.dest_le
    omega

/-- A buffer with more characters at the end than another one, and the same in front of these. -/
structure Appended (b : Buf) (t : Str) (b' : Buf) : Prop where
  fits : b'.Fits
  text : b'.text = b.text ++ t
  /-- Nothing is stored in front of `p`. -/
  below : ∀ i, i < b.p → b'.dest[i]? = b.dest[i]?

theorem Appended.p {b b' : Buf} {t : Str} (h : Appended b t b') (hb : b.Fits) :
    b'.p = b.p + t.length := by
  rw [← h.fits.length_text, h.text, List.length_append, hb.length_text]

theorem Appended.nil {b : Buf} (h : b.Fits) : Appended b [] b :=
  ⟨h, (List.append_nil _).symm, fun _ _ => rfl⟩

theorem Appended.trans {b₁ b₂ b₃ : Buf} {s t : Str} (h₁ : Appended b₁ s b₂)
    (h₂ : Appended b₂ t b₃) (hb : b₁.Fits) : Appended b₁ (s ++ t) b₃ where
  fits := h₂.fits
  text := by rw [h₂.text, h₁.text, List.append_assoc]
  below := by
    intro i hi
    rw [h₂.below i (by have := h₁.p hb; omega), h₁.below i hi]

theorem Appended.put {b : Buf} (h : b.Fits) (hp : b.p < sftMax) (c : UInt8) :
    Appended b [c] (b.put c) where
  fits := h.put hp c
  text := Buf.text_put h.p_le c
  below := by
    intro i hi
    rw [Buf.getElem?_put h.p_le, if_neg (by omega)]

/-- What a function that adds these characters does: it fails if they do not fit, and even then has
stored nothing behind the buffer. -/
def Adds (b : Buf) (t : Str) (r : ℤ × Buf) : Prop :=
  (r.1 = 0 ∧ Appended b t r.2) ∨
    (r.1 < 0 ∧ r.2.dest.length ≤ sftMax ∧ sftMax < b.p + t.length)

theorem addChar_adds {b : Buf} (h : b.Fits) (src : Str) (c : UInt8) :
    Adds b [c] (addChar src c b) := by
  rw [addChar]
  split
  case isTrue hp =>
    exact .inr ⟨pathError_lt src, h.dest_le, by rw [List.length_singleton]; omega⟩
  case isFalse hp => exact .inl ⟨rfl, .put h (by omega) c⟩

theorem addQuests_adds (src : Str) (i : ℕ) {b : Buf} (h : b.Fits) :
    Adds b (List.replicate i quest) (addQuests src i b) := by
  induction i generalizing b with
  | zero => exact .inl ⟨rfl, .nil h⟩
  | succ i ih =>
    rw [List.replicate_succ]
    rcases addChar_adds h src quest with ⟨hc, ha⟩ | ⟨hc, hlen, hp⟩
    · rw [addQuests, if_neg (by simp [hc])]
      rcases ih ha.fits with ⟨hi, hq⟩ | ⟨hi, hq, hp⟩
      · exact .inl ⟨hi, ha.trans hq h⟩
      · refine .inr ⟨hi, hq, ?_⟩
        rw [ha.p h, List.length_singleton] at hp
        rw [List.length_cons]
        omega
    · rw [addQuests, if_pos (Int.ne_of_lt hc)]
      refine .inr ⟨hc, hlen, ?_⟩
      rw [List.length_singleton] at hp
      rw [List.length_cons]
      omega

/-! ## One component -/

/-- What comes of the loop over one component, from a segment that is cut to `o`: the cut segment is
added; or the loop fails, as it does if there is none or it does not fit. -/
def Parses (b : Buf) (o : Option (Str × Bool)) (wild : Bool) (rest : Str)
    (r : ℤ × Str × Bool × Buf) : Prop :=
  (∃ t w, o = some (t, w) ∧ r.1 = 0 ∧ r.2.1 = rest ∧ r.2.2.1 = (wild || w) ∧
    Appended b t r.2.2.2) ∨
  (r.1 < 0 ∧ r.2.2.2.dest.length ≤ sftMax ∧ ∀ t w, o = some (t, w) → sftMax < b.p + t.length)

/-- Characters that are added and then a loop over the rest. -/
theorem Parses.seq {b b' : Buf} {s rest : Str} {o : Option (Str × Bool)} {v wild : Bool}
    {r : ℤ × Str × Bool × Buf} (ha : Appended b s b') (hb : b.Fits)
    (h : Parses b' o (wild || v) rest r) :
    Parses b (o.map fun r => (s ++ r.1, v || r.2)) wild rest r := by
  rcases h with ⟨t, w, rfl, hr, hrest, hw, ht⟩ | ⟨hr, hlen, ho⟩
  · exact .inl ⟨s ++ t, v || w, rfl, hr, hrest, by rw [hw, Bool.or_assoc], ha.trans ht hb⟩
  · refine .inr ⟨hr, hlen, ?_⟩
    intro t w ht
    obtain ⟨q, hq, hqt⟩ := Option.map_eq_some_iff.1 ht
    obtain ⟨rfl, -⟩ := Prod.mk.inj hqt
    have := ho q.1 q.2 hq
    rw [ha.p hb] at this
    rw [List.length_append]
    omega

/-- The characters do not fit. -/
theorem Parses.full {b b' : Buf} {s rest src : Str} {o : Option (Str × Bool)} {w wild : Bool}
    {code : ℤ} (hcode : code < 0) (hlen : b'.dest.length ≤ sftMax)
    (hs : sftMax < b.p + s.length) (f : Str × Bool → Bool) :
    Parses b (o.map fun r => (s ++ r.1, f r)) wild rest (code, src, w, b') := by
  refine .inr ⟨hcode, hlen, ?_⟩
  intro t v ht
  obtain ⟨q, -, hqt⟩ := Option.map_eq_some_iff.1 ht
  obtain ⟨rfl, -⟩ := Prod.mk.inj hqt
  rw [List.length_append]
  omega

/-- **The loop over a component cuts it to 8.3.** -/
theorem component_parses (seg rest : Str) (i : ℕ) (hasDot wild : Bool) {b : Buf} (h : b.Fits)
    (hseg : ∀ c ∈ seg, isSep c = false) (hrest : atEnd rest) :
    Parses b (fitFrom seg i hasDot) wild rest (component (seg ++ rest) i hasDot wild b) := by
  induction seg generalizing i hasDot wild b with
  | nil =>
    refine .inl ⟨[], false, rfl, ?_⟩
    have hc : component rest i hasDot wild b = (0, rest, wild, b) := by
      cases rest with
      | nil => rfl
      | cons c rest => rw [component, if_pos (by simpa [atEnd] using hrest)]
    rw [List.nil_append, hc]
    exact ⟨rfl, rfl, (Bool.or_false _).symm, .nil h⟩
  | cons c seg ih =>
    have hc : isSep c = false := hseg c List.mem_cons_self
    have hs : ∀ c ∈ seg, isSep c = false := fun d hd => hseg d (List.mem_cons_of_mem c hd)
    rw [List.cons_append, component, if_neg (by simp [hc]), fitFrom]
    by_cases hstar : c = star
    · rw [if_pos hstar, if_pos hstar]
      rcases addQuests_adds (seg ++ rest) i h with ⟨hq, ha⟩ | ⟨hq, hlen, hp⟩
      · dsimp only
        rw [if_neg (by simp [hq])]
        have := @Parses.seq _ _ _ _ _ true wild _ ha h
          (by simpa using ih 0 hasDot true ha.fits hs)
        simpa using this
      · dsimp only
        rw [if_pos (Int.ne_of_lt hq)]
        exact .full hq hlen hp _
    · rw [if_neg hstar, if_neg hstar]
      by_cases hdots : c = dot ∧ hasDot = true
      · rw [if_pos hdots, if_pos hdots]
        exact .inr ⟨pathError_lt _, h.dest_le, fun _ _ hn => (nomatch hn)⟩
      · rw [if_neg hdots, if_neg hdots]
        by_cases hlast : c = dot ∧ seg = []
        · have hend : atEnd (seg ++ rest) = true := by rw [hlast.2]; exact hrest
          rw [if_pos hlast, if_pos ⟨hlast.1, hend⟩]
          exact .inl ⟨[], false, rfl, rfl, by rw [hlast.2, List.nil_append],
            (Bool.or_false _).symm, .nil h⟩
        · have hend : ¬ (c = dot ∧ atEnd (seg ++ rest) = true) := by
            rintro ⟨hd, he⟩
            cases seg with
            | nil => exact hlast ⟨hd, rfl⟩
            | cons d seg => simp [atEnd, hs d List.mem_cons_self] at he
          rw [if_neg hend, if_neg hlast]
          dsimp only
          generalize (if c = dot then fextSize + 1 else i) = i'
          generalize (hasDot || c == dot) = hasDot'
          by_cases hi : i' = 0
          · rw [if_pos hi, if_pos hi]
            have := @Parses.seq _ _ _ _ _ (c == quest) wild _ (.nil h) h
              (ih 0 hasDot' (wild || c == quest) h hs)
            simpa using this
          · rw [if_neg hi, if_neg hi]
            by_cases hd : dirChar c = true
            · rw [if_neg (by simp [hd]), if_neg (by simp [hd])]
              rcases addChar_adds h (seg ++ rest) c with ⟨hr, ha⟩ | ⟨hr, hlen, hp⟩
              · rw [if_neg (by simp [hr])]
                exact Parses.seq (v := c == quest) ha h (ih (i' - 1) hasDot' _ ha.fits hs)
              · rw [if_pos (Int.ne_of_lt hr)]
                exact .full hr hlen hp _
            · rw [if_pos (by simp [hd]), if_pos (by simp [hd])]
              exact .inr ⟨pathError_lt _, h.dest_le, fun _ _ hn => (nomatch hn)⟩

/-! ## The loop -/

theorem atEnd_behind (src : Str) : atEnd (behind src) = true := by
  rw [behind, atEnd]
  generalize src.dropWhile isSep = s
  induction s with
  | nil => rfl
  | cons c s ih =>
    rw [List.dropWhile_cons]
    split
    case isTrue => exact ih
    case isFalse hc => simpa using hc

theorem segment_append_behind (src : Str) : segment src ++ behind src = src.dropWhile isSep :=
  List.takeWhile_append_dropWhile

theorem segment_sep (src : Str) : ∀ c ∈ segment src, isSep c = false := by
  intro c hc
  have := List.mem_takeWhile_imp hc
  simpa using this

theorem backUp_lt {rootPos p q : ℕ} {dest : List UInt8} (h : backUp rootPos dest p = some q) :
    q < p := by
  induction p with
  | zero => cases h
  | succ p ih =>
    rw [backUp] at h
    split at h
    · cases h
      omega
    · split at h
      · cases h
      · have := ih h
        omega

/-- The search for a backslash looks at nothing from `p` on. -/
theorem backUp_take (rootPos n p : ℕ) (dest : List UInt8) (h : p ≤ n) :
    backUp rootPos (dest.take n) p = backUp rootPos dest p := by
  induction p with
  | zero => rfl
  | succ p ih =>
    rw [backUp, backUp, List.getElem?_take_of_lt (by omega), ih (by omega)]

theorem Buf.backUp_text (b : Buf) (rootPos : ℕ) :
    backUp rootPos b.text b.p = backUp rootPos b.dest b.p :=
  backUp_take rootPos b.p b.p b.dest (Nat.le_refl _)

/-- It does not leave the root. -/
theorem le_backUp {rootPos p q : ℕ} {dest : List UInt8} (h : backUp rootPos dest p = some q)
    (hroot : ∀ i, i + 1 = rootPos → dest[i]? ≠ some backslash) (hp : rootPos ≤ p) : rootPos ≤ q := by
  induction p with
  | zero => cases h
  | succ p ih =>
    rw [backUp] at h
    split at h
    case isTrue hb =>
      have hq : p = q := Option.some.inj h
      by_contra hlt
      exact hroot p (by omega) hb
    case isFalse =>
      split at h
      · cases h
      · exact ih h (by omega)

/-- The root of a path: what comes in front of the separator at `rootPos`. -/
structure Rooted (root : Str) (sep : UInt8) : Prop where
  last_ne : root.getLast? ≠ some sep
  not_backslash : root.getLast? ≠ some backslash

/-- The loop does not take the byte in front of `dest` for a separator.  It looks at it only if the
root is empty, and not in its first turn unless it starts there. -/
def FrontOk (front : UInt8) (root : Str) (sep : UInt8) (src : Str) (p : ℕ) : Prop :=
  root = [] → front ≠ sep ∨ (behind src = [] ∧ (src = [] ∨ 0 < p))

theorem FrontOk.next {front sep : UInt8} {root src : Str} {p : ℕ}
    (h : FrontOk front root sep src p) (q : ℕ) : FrontOk front root sep (behind src) q := by
  intro hroot
  rcases h hroot with hne | ⟨hrest, -⟩
  · exact .inl hne
  · refine .inr ⟨?_, .inl hrest⟩
    rw [hrest]
    rfl

/-- The buffer at the head of the loop. -/
structure Buf.At (b : Buf) (root : Str) (sep : UInt8) : Prop where
  fits : b.Fits
  root_pre : root <+: b.text
  sep_at : b.dest[root.length]? = some sep

theorem Buf.At.root_le {b : Buf} {root : Str} {sep : UInt8} (h : b.At root sep) :
    root.length ≤ b.p := by
  rw [← h.fits.length_text]
  exact h.root_pre.length_le

/-- Characters behind the root keep the buffer at it. -/
theorem Buf.At.appended {b b' : Buf} {root t : Str} {sep : UInt8} (h : b.At root sep)
    (ht : Appended b t b') (hp : root.length < b.p) : b'.At root sep where
  fits := ht.fits
  root_pre := by
    rw [ht.text]
    exact h.root_pre.trans (List.prefix_append _ _)
  sep_at := by rw [ht.below _ hp, h.sep_at]

/-- So does going back, as far as the root. -/
theorem Buf.At.back {b : Buf} {root : Str} {sep : UInt8} {p : ℕ} (h : b.At root sep)
    (hroot : root.length ≤ p) (hp : p ≤ b.p) : ({ b with p := p } : Buf).At root sep where
  fits := ⟨Nat.le_trans hp h.fits.p_le, h.fits.dest_le⟩
  root_pre := by
    have htext : ({ b with p := p } : Buf).text = b.text.take p := by
      simp only [Buf.text, List.take_take]
      rw [Nat.min_eq_left hp]
    rw [htext]
    exact List.prefix_take_iff.2 ⟨h.root_pre, hroot⟩
  sep_at := h.sep_at

theorem Buf.text_back {b : Buf} {p : ℕ} (hp : p ≤ b.p) :
    ({ b with p := p } : Buf).text = b.text.take p := by
  simp only [Buf.text, List.take_take]
  rw [Nat.min_eq_left hp]

/-- The character in front of `p`. -/
theorem Buf.At.last {b : Buf} {root src : Str} {sep front : UInt8} (h : b.At root sep)
    (hfront : FrontOk front root sep src b.p) (hsrc : src ≠ []) :
    charBefore front b.dest b.p = sep ↔ b.text.getLast? = some sep := by
  have hlen := h.fits.length_text
  have hp := h.fits.p_le
  rw [charBefore]
  split
  case isTrue hz =>
    have hnil : b.text = [] := List.length_eq_zero_iff.1 (by omega)
    have : root = [] := by
      have := h.root_pre
      rw [hnil] at this
      exact List.prefix_nil.1 this
    have hne : front ≠ sep := by
      rcases hfront this with hne | ⟨-, hsrc' | hp⟩
      · exact hne
      · exact absurd hsrc' hsrc
      · omega
    simp [hnil, hne]
  case isFalse hz =>
    rw [List.getLast?_eq_getElem?, hlen, Buf.text, List.getElem?_take_of_lt (by omega),
      List.getElem?_eq_getElem (by omega)]
    simp

/-- The path once the separator is there. -/
def withSep (sep : UInt8) (path : Str) : Str :=
  if path.getLast? = some sep then path else path ++ [sep]

/-- "Append backslash if not already there." -/
theorem Buf.At.addSep {b : Buf} {root src : Str} {sep front : UInt8} (h : b.At root sep)
    (hroot : Rooted root sep) (hfront : FrontOk front root sep src b.p) (hsrc : src ≠ []) :
    let r := if charBefore front b.dest b.p ≠ sep then addChar src sep b
      else (0, b)
    (r.1 = 0 ∧ r.2.text = withSep sep b.text ∧ r.2.At root sep ∧ root.length < r.2.p) ∨
      (r.1 < 0 ∧ r.2.dest.length ≤ sftMax ∧ sftMax < (withSep sep b.text).length) := by
  rw [withSep]
  by_cases hl : b.text.getLast? = some sep
  · rw [if_neg (by simpa using (h.last hfront hsrc).2 hl), if_pos hl]
    refine .inl ⟨rfl, rfl, h, ?_⟩
    refine lt_of_le_of_ne h.root_le fun he => hroot.last_ne ?_
    rw [h.root_pre.eq_of_length (by rw [h.fits.length_text, he]), hl]
  · rw [if_pos (mt (h.last hfront hsrc).1 hl), if_neg hl]
    rcases addChar_adds h.fits src sep with ⟨hr, ha⟩ | ⟨hr, hlen, hp⟩
    · refine .inl ⟨hr, ha.text, ?_, ?_⟩
      · refine ⟨ha.fits, ?_, ?_⟩
        · rw [ha.text]
          exact h.root_pre.trans (List.prefix_append _ _)
        · rcases Nat.lt_or_ge root.length b.p with hlt | hge
          · rw [ha.below _ hlt, h.sep_at]
          · have he : root.length = b.p := Nat.le_antisymm h.root_le hge
            rw [addChar] at hr ⊢
            split
            case isTrue hp => rw [if_pos hp] at hr; exact absurd hr (Int.ne_of_lt (pathError_lt src))
            case isFalse => rw [Buf.getElem?_put h.fits.p_le, if_pos he]
      · have := ha.p h.fits
        have := h.root_le
        rw [List.length_singleton] at *
        omega
    · refine .inr ⟨hr, hlen, ?_⟩
      rw [List.length_append, h.fits.length_text]
      exact hp

theorem head?_append_of_atEnd {rest : Str} (h : atEnd rest = true) (seg : Str) :
    (seg ++ rest).head? = some dot ↔ seg.head? = some dot := by
  cases seg with
  | cons c seg => rfl
  | nil =>
    cases rest with
    | nil => rfl
    | cons c rest =>
      have hc : isSep c = true := h
      constructor
      · intro he
        rw [Option.some.inj he] at hc
        exact absurd hc (by decide)
      · intro he
        cases he

theorem atEnd_append {seg rest : Str} (h : atEnd rest = true) (hseg : ∀ c ∈ seg, isSep c = false) :
    atEnd (seg ++ rest) = true ↔ seg = [] := by
  cases seg with
  | nil => simp [h]
  | cons c seg => simp [atEnd, hseg c List.mem_cons_self]

/-- The three kinds of segments, for a path with its separator. -/
theorem enter_eq {rootPos : ℕ} {sep : UInt8} {path : Str}
    (h : (withSep sep path).length ≤ sftMax) (seg : Str) :
    enter rootPos sep path seg =
      if seg = [dot] then some ((withSep sep path).dropLast, false)
      else if seg = [dot, dot] then
        (backUp rootPos (withSep sep path).dropLast (withSep sep path).dropLast.length).map
          fun p => ((withSep sep path).take p, false)
      else if seg.head? = some dot then none
      else (fit seg).bind fun r =>
        if sftMax < (withSep sep path).length + r.1.length then none
        else some (withSep sep path ++ r.1, r.2) := by
  rw [enter, ← withSep, if_neg (Nat.not_lt.2 h)]

/-- **The component loop applies the segments one by one.** -/
theorem appendPath_walk {front sep : UInt8} {root : Str} (hroot : Rooted root sep) (n : ℕ)
    (src : Str) (wild : Bool) {b : Buf} (h : b.At root sep)
    (hfront : FrontOk front root sep src b.p) :
    let r := appendPath front root.length n src wild b
    (walk root.length sep n src wild b.text = some (r.2.2.text, r.2.1) ∧ r.1 = 0 ∧
        r.2.2.At root sep) ∨
      (walk root.length sep n src wild b.text = none ∧ r.1 < 0 ∧
        r.2.2.dest.length ≤ sftMax) := by
  induction n generalizing src wild b with
  | zero => exact .inl ⟨rfl, rfl, h⟩
  | succ n ih =>
    rw [walk, appendPath]
    by_cases hsrc : src = []
    · rw [if_pos hsrc, if_pos hsrc]
      exact .inl ⟨rfl, rfl, h⟩
    rw [if_neg hsrc, if_neg hsrc]
    by_cases hwild : wild = true
    · rw [if_pos hwild, if_pos hwild]
      exact .inr ⟨rfl, (by decide : dePathNotFnd < 0), h.fits.dest_le⟩
    obtain rfl : wild = false := by simpa using hwild
    rw [if_neg hwild, if_neg hwild, h.sep_at, Option.getD_some, ← segment_append_behind]
    have hend := atEnd_behind src
    have hseg := segment_sep src
    have hadd := h.addSep hroot hfront hsrc
    have hnext := hfront.next
    dsimp only at hadd ⊢
    generalize (if charBefore front b.dest b.p ≠ sep then
      addChar src sep b else (0, b)) = r at *
    generalize segment src = seg at *
    generalize behind src = rest at *
    rcases hadd with ⟨hr, htext, hat, hlt⟩ | ⟨hr, hlen, hlong⟩
    case inr =>
      rw [if_pos (Int.ne_of_lt hr), enter, ← withSep, if_pos hlong]
      exact .inr ⟨rfl, hr, hlen⟩
    have hfits : (withSep sep b.text).length ≤ sftMax := by
      rw [← htext, hat.fits.length_text]
      exact Nat.le_trans hat.fits.p_le hat.fits.dest_le
    have hlast : ({ dest := r.2.dest, p := r.2.p - 1 } : Buf).text = (withSep sep b.text).dropLast := by
      rw [Buf.text_back (by omega), ← htext, List.dropLast_eq_take, hat.fits.length_text]
    have hback := hat.back (p := r.2.p - 1) (by omega) (by omega)
    have henter := @enter_eq root.length _ _ hfits seg
    rw [if_neg (by simp [hr])]
    by_cases hd : seg.head? = some dot
    · rw [if_pos ((head?_append_of_atEnd hend seg).2 hd)]
      obtain ⟨t, rfl⟩ : ∃ t, seg = dot :: t := by
        cases seg with
        | nil => cases hd
        | cons c t => exact ⟨t, by rw [Option.some.inj hd]⟩
      have ht : ∀ c ∈ t, isSep c = false := fun c hc => hseg c (List.mem_cons_of_mem _ hc)
      rw [List.cons_append, List.tail_cons]
      by_cases hdots : t.head? = some dot
      · obtain ⟨u, rfl⟩ : ∃ u, t = dot :: u := by
          cases t with
          | nil => cases hdots
          | cons c u => exact ⟨u, by rw [Option.some.inj hdots]⟩
        have hu : ∀ c ∈ u, isSep c = false := fun c hc => ht c (List.mem_cons_of_mem _ hc)
        rw [if_pos ((head?_append_of_atEnd hend _).2 hdots), List.cons_append]
        simp only [List.drop_succ_cons, List.drop_zero]
        by_cases hnil : u = []
        · -- ".."
          subst hnil
          rw [if_neg (by decide), if_pos rfl, ← hlast, hback.fits.length_text,
            Buf.backUp_text] at henter
          rw [if_neg (by simp [hend]), if_neg (by decide), henter]
          dsimp only
          cases hq : backUp root.length r.2.dest (r.2.p - 1) with
          | none => exact .inr ⟨rfl, (by decide : dePathNotFnd < 0), hat.fits.dest_le⟩
          | some q =>
            have hqlt := backUp_lt hq
            have hroot' : ∀ i, i + 1 = root.length → r.2.dest[i]? ≠ some backslash := by
              intro i hi he
              obtain ⟨t, ht⟩ := hat.root_pre
              refine hroot.not_backslash ?_
              rw [List.getLast?_eq_getElem?, ← hi, Nat.add_sub_cancel, ← he,
                ← List.getElem?_append_left (by omega), ht, Buf.text,
                List.getElem?_take_of_lt (by omega)]
            have hqle : root.length ≤ q := le_backUp hq hroot' (by omega)
            have hq' := ih rest false (hat.back hqle (by omega)) (hnext q)
            rw [Buf.text_back (by omega), htext] at hq'
            exact hq'
        · rw [if_neg (by simp), if_neg (by simpa using hnil), if_pos hd] at henter
          rw [if_pos (by simpa using mt (atEnd_append hend hu).1 hnil), henter]
          exact .inr ⟨rfl, pathError_lt _, hat.fits.dest_le⟩
      · rw [if_neg (mt (head?_append_of_atEnd hend t).1 hdots)]
        simp only [List.drop_succ_cons, List.drop_zero]
        by_cases hnil : t = []
        · -- "."
          subst hnil
          rw [if_pos rfl, ← hlast] at henter
          rw [if_neg (by simp [hend]), if_pos trivial, henter]
          exact ih rest false hback (hnext _)
        · have hne : dot :: t ≠ [dot, dot] := by
            intro he
            rw [(List.cons.inj he).2] at hdots
            exact hdots rfl
          rw [if_neg (by simpa using hnil), if_neg hne, if_pos hd] at henter
          rw [if_pos (by simpa using mt (atEnd_append hend ht).1 hnil), henter]
          exact .inr ⟨rfl, pathError_lt _, hat.fits.dest_le⟩
    · -- a name
      have hne : seg ≠ [dot] ∧ seg ≠ [dot, dot] := by
        constructor
        · rintro rfl
          exact hd rfl
        · rintro rfl
          exact hd rfl
      rw [if_neg hne.1, if_neg hne.2, if_neg hd, fit, ← htext, hat.fits.length_text] at henter
      rw [if_neg (mt (head?_append_of_atEnd hend seg).1 hd), henter]
      rcases component_parses seg rest fnameSize false false hat.fits hseg hend with
        ⟨t, w, ho, hc, hrest, hw, ha⟩ | ⟨hc, hlen, ho⟩
      · have hp := ha.p hat.fits
        have hle := ha.fits.p_le
        have hle' := ha.fits.dest_le
        rw [if_neg (by simp [hc]), ho, Option.bind_some, if_neg (by rw [← hp]; omega),
          Option.bind_some, hrest, hw, ← ha.text]
        exact ih rest w (hat.appended ha hlt) (hnext _)
      · rw [if_pos (Int.ne_of_lt hc)]
        refine .inr ⟨?_, hc, hlen⟩
        cases hf : fitFrom seg fnameSize false with
        | none => rfl
        | some r =>
          rw [Option.bind_some, if_pos (ho r.1 r.2 hf)]
          rfl

end Path
end BurdahDos
