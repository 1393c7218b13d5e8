import BurdahDos.Path.Bounds
import Mathlib

/-!
# One spelling for each file

On a local drive the result of `truename` is canonical: the drive, and components of 8.3 characters
in upper case, with a backslash in front of each.  Applied to such a path again, it changes nothing.

`Component` is a name in the 8.3 convention, and `spell` puts components together to a path.  What
the loop makes of a path that is spelled so, and of a name that is, are `walk_spelled` and
`walk_spell`.
-/

set_option autoImplicit false

namespace BurdahDos
namespace Path

/-! ## Components -/

/-- A character of a name: neither `DirChar` nor the loop stops at it. -/
structure Plain (c : UInt8) : Prop where
  dirChar : dirChar c = true
  not_sep : isSep c = false
  not_dot : c ≠ dot
  not_star : c ≠ star

instance (c : UInt8) : Decidable (Plain c) :=
  decidable_of_iff (BurdahDos.Path.dirChar c = true ∧ isSep c = false ∧ c ≠ dot ∧ c ≠ star)
    ⟨fun h => ⟨h.1, h.2.1, h.2.2.1, h.2.2.2⟩, fun h => ⟨h.1, h.2, h.3, h.4⟩⟩

/-- A name in the 8.3 convention. -/
structure Component where
  name : Str
  ext : Str
  name_ne : name ≠ []
  name_le : name.length ≤ fnameSize
  ext_le : ext.length ≤ fextSize
  plain : ∀ c ∈ name ++ ext, Plain c

/-- An extension with its dot. -/
def dotted (ext : Str) : Str := if ext = [] then [] else dot :: ext

/-- The name as it is written. -/
def Component.bytes (c : Component) : Str := c.name ++ dotted c.ext

/-- It has wildcards. -/
def Component.wild (c : Component) : Bool := (c.name ++ c.ext).contains quest

theorem Component.bytes_ne (c : Component) : c.bytes ≠ [] := by
  intro h
  exact c.name_ne (List.append_eq_nil_iff.1 h).1

theorem Component.mem_bytes {c : Component} {x : UInt8} (h : x ∈ c.bytes) : Plain x ∨ x = dot := by
  rw [Component.bytes, dotted, List.mem_append] at h
  rcases h with h | h
  · exact .inl (c.plain x (List.mem_append_left _ h))
  · split at h
    · cases h
    · rcases List.mem_cons.1 h with h | h
      · exact .inr h
      · exact .inl (c.plain x (List.mem_append_right _ h))

theorem Component.not_sep {c : Component} {x : UInt8} (h : x ∈ c.bytes) : isSep x = false := by
  rcases c.mem_bytes h with h | rfl
  · exact h.not_sep
  · decide

theorem Component.head?_bytes (c : Component) : c.bytes.head? ≠ some dot := by
  have hne := c.name_ne
  have hp := c.plain
  rw [Component.bytes]
  generalize c.name = name at *
  cases name with
  | nil => exact absurd rfl hne
  | cons x name =>
    intro h
    exact (hp x (by simp)).not_dot (Option.some.inj h)

/-! ## What `fit` makes -/

/-- The characters behind the dot. -/
theorem fitFrom_ext {s t : Str} {i : ℕ} {w : Bool} (h : fitFrom s i true = some (t, w))
    (hs : ∀ c ∈ s, isSep c = false) :
    t.length ≤ i ∧ (∀ c ∈ t, Plain c) ∧ (quest ∈ t → w = true) ∧ (0 < i → s ≠ [] → t ≠ []) := by
  induction s generalizing i t w with
  | nil =>
    cases h
    exact ⟨Nat.zero_le _, fun c hc => (nomatch hc), fun hc => (nomatch hc), fun _ h => absurd rfl h⟩
  | cons c s ih =>
    have hs' : ∀ c ∈ s, isSep c = false := fun d hd => hs d (List.mem_cons_of_mem c hd)
    rw [fitFrom] at h
    by_cases hstar : c = star
    · rw [if_pos hstar] at h
      obtain ⟨q, hq, hqt⟩ := Option.map_eq_some_iff.1 h
      obtain ⟨rfl, rfl⟩ := Prod.mk.inj hqt
      obtain ⟨h₁, h₂, -, -⟩ := ih hq hs'
      refine ⟨?_, ?_, fun _ => rfl, ?_⟩
      · rw [List.length_append, List.length_replicate]
        omega
      · intro x hx
        rcases List.mem_append.1 hx with hx | hx
        · rw [List.eq_of_mem_replicate hx]
          exact ⟨by decide, by decide, by decide, by decide⟩
        · exact h₂ x hx
      · intro hi _ hnil
        rw [List.append_eq_nil_iff, List.replicate_eq_nil_iff] at hnil
        omega
    rw [if_neg hstar] at h
    by_cases hdot : c = dot
    · rw [if_pos ⟨hdot, rfl⟩] at h
      cases h
    rw [if_neg (fun hd => hdot hd.1), if_neg (fun hd => hdot hd.1), if_neg hdot] at h
    simp only [Bool.true_or] at h
    by_cases hi : i = 0
    · rw [if_pos hi] at h
      obtain ⟨q, hq, hqt⟩ := Option.map_eq_some_iff.1 h
      obtain ⟨rfl, rfl⟩ := Prod.mk.inj hqt
      obtain ⟨h₁, h₂, h₃, -⟩ := ih hq hs'
      exact ⟨by omega, h₂, fun hx => by rw [h₃ hx, Bool.or_true], fun h0 => absurd h0 (by omega)⟩
    · rw [if_neg hi] at h
      by_cases hd : dirChar c = true
      · rw [if_neg (by simp [hd])] at h
        obtain ⟨q, hq, hqt⟩ := Option.map_eq_some_iff.1 h
        obtain ⟨rfl, rfl⟩ := Prod.mk.inj hqt
        obtain ⟨h₁, h₂, h₃, -⟩ := ih hq hs'
        refine ⟨by rw [List.length_cons]; omega, ?_, ?_, fun _ _ => List.cons_ne_nil _ _⟩
        · intro x hx
          rcases List.mem_cons.1 hx with rfl | hx
          · exact ⟨hd, hs x List.mem_cons_self, hdot, hstar⟩
          · exact h₂ x hx
        · intro hx
          rcases List.mem_cons.1 hx with rfl | hx
          · rfl
          · rw [h₃ hx, Bool.or_true]
      · rw [if_pos (by simp [hd])] at h
        cases h

/-- The characters from the name on. -/
theorem fitFrom_name {s t : Str} {i : ℕ} {w : Bool} (h : fitFrom s i false = some (t, w))
    (hs : ∀ c ∈ s, isSep c = false) :
    ∃ name ext, t = name ++ dotted ext ∧ name.length ≤ i ∧ ext.length ≤ fextSize ∧
      (∀ c ∈ name ++ ext, Plain c) ∧ (quest ∈ name ++ ext → w = true) ∧
      (0 < i → s ≠ [] → s.head? ≠ some dot → name ≠ []) := by
  induction s generalizing i t w with
  | nil =>
    cases h
    exact ⟨[], [], rfl, Nat.zero_le _, Nat.zero_le _, fun c hc => (by cases hc),
      fun hc => (by cases hc), fun _ h => absurd rfl h⟩
  | cons c s ih =>
    have hs' : ∀ c ∈ s, isSep c = false := fun d hd => hs d (List.mem_cons_of_mem c hd)
    rw [fitFrom] at h
    by_cases hstar : c = star
    · rw [if_pos hstar] at h
      obtain ⟨q, hq, hqt⟩ := Option.map_eq_some_iff.1 h
      obtain ⟨rfl, rfl⟩ := Prod.mk.inj hqt
      obtain ⟨name, ext, h₀, h₁, h₂, h₃, -, -⟩ := ih hq hs'
      refine ⟨List.replicate i quest ++ name, ext, ?_, ?_, h₂, ?_, fun _ => rfl, ?_⟩
      · rw [h₀, List.append_assoc]
      · rw [List.length_append, List.length_replicate]
        omega
      · intro x hx
        rw [List.append_assoc] at hx
        rcases List.mem_append.1 hx with hx | hx
        · rw [List.eq_of_mem_replicate hx]
          exact ⟨by decide, by decide, by decide, by decide⟩
        · exact h₃ x hx
      · intro hi _ _ hnil
        rw [List.append_eq_nil_iff, List.replicate_eq_nil_iff] at hnil
        omega
    rw [if_neg hstar, if_neg (fun hd => (by cases hd.2))] at h
    by_cases hdot : c = dot
    · by_cases hnil : s = []
      · rw [if_pos ⟨hdot, hnil⟩] at h
        cases h
        exact ⟨[], [], rfl, Nat.zero_le _, Nat.zero_le _, fun c hc => (by cases hc),
          fun hc => (by cases hc), fun _ _ hh => absurd (by rw [hdot]; rfl) hh⟩
      · rw [if_neg (fun hd => hnil hd.2), if_pos hdot, if_neg (by decide), if_neg ?_] at h
        swap
        · rw [hdot]
          decide
        obtain ⟨q, hq, hqt⟩ := Option.map_eq_some_iff.1 h
        obtain ⟨rfl, rfl⟩ := Prod.mk.inj hqt
        have hd' : (false || c == dot) = true := by simp [hdot]
        rw [hd'] at hq
        obtain ⟨h₁, h₂, h₃, h₄⟩ := fitFrom_ext hq hs'
        have hne : q.1 ≠ [] := h₄ (by decide) hnil
        refine ⟨[], q.1, ?_, Nat.zero_le _, h₁, h₂, ?_, fun _ _ hh => absurd (by rw [hdot]; rfl) hh⟩
        · rw [dotted, if_neg hne, hdot, List.nil_append]
        · intro hx
          rw [h₃ hx, Bool.or_true]
    · have hd' : (false || c == dot) = false := by simp [hdot]
      rw [if_neg (fun hd => hdot hd.1), if_neg hdot, hd'] at h
      by_cases hi : i = 0
      · rw [if_pos hi] at h
        obtain ⟨q, hq, hqt⟩ := Option.map_eq_some_iff.1 h
        obtain ⟨rfl, rfl⟩ := Prod.mk.inj hqt
        obtain ⟨name, ext, h₀, h₁, h₂, h₃, h₄, -⟩ := ih hq hs'
        exact ⟨name, ext, h₀, by omega, h₂, h₃, fun hx => by rw [h₄ hx, Bool.or_true],
          fun h0 => absurd h0 (by omega)⟩
      · rw [if_neg hi] at h
        by_cases hd : dirChar c = true
        · rw [if_neg (by simp [hd])] at h
          obtain ⟨q, hq, hqt⟩ := Option.map_eq_some_iff.1 h
          obtain ⟨rfl, rfl⟩ := Prod.mk.inj hqt
          obtain ⟨name, ext, h₀, h₁, h₂, h₃, h₄, -⟩ := ih hq hs'
          refine ⟨c :: name, ext, by rw [h₀, List.cons_append], by rw [List.length_cons]; omega, h₂,
            ?_, ?_, fun _ _ _ => List.cons_ne_nil _ _⟩
          · intro x hx
            rcases List.mem_cons.1 hx with rfl | hx
            · exact ⟨hd, hs x List.mem_cons_self, hdot, hstar⟩
            · exact h₃ x hx
          · intro hx
            rcases List.mem_cons.1 hx with rfl | hx
            · rfl
            · rw [h₄ hx, Bool.or_true]
        · rw [if_pos (by simp [hd])] at h
          cases h

/-- **A segment that is accepted becomes a component.** -/
theorem fit_component {seg t : Str} {w : Bool} (h : fit seg = some (t, w)) (hne : seg ≠ [])
    (hs : ∀ c ∈ seg, isSep c = false) (hd : seg.head? ≠ some dot) :
    ∃ c : Component, c.bytes = t ∧ (c.wild = true → w = true) := by
  obtain ⟨name, ext, h₀, h₁, h₂, h₃, h₄, h₅⟩ := fitFrom_name h hs
  refine ⟨⟨name, ext, h₅ (by decide) hne hd, h₁, h₂, h₃⟩, h₀.symm, ?_⟩
  intro hw
  exact h₄ (by simpa [Component.wild] using hw)

/-! ## Paths of components -/

/-- A path of components, with a trailing backslash or not. -/
def spell (root : Str) (comps : List Component) (trailing : Bool) : Str :=
  root ++ comps.flatMap (fun c => backslash :: c.bytes) ++ if trailing then [backslash] else []

theorem spell_snoc (root : Str) (comps : List Component) (c : Component) :
    spell root (comps ++ [c]) false = spell root comps true ++ c.bytes := by
  simp [spell]

theorem spell_true (root : Str) (comps : List Component) :
    spell root comps true = spell root comps false ++ [backslash] := by
  simp [spell]

theorem spell_nil (root : Str) : spell root [] false = root := by
  simp [spell]

/-- A path without a trailing backslash does not end with one. -/
theorem getLast?_spell {root : Str} (hroot : root.getLast? ≠ some backslash)
    (comps : List Component) : (spell root comps false).getLast? ≠ some backslash := by
  rcases List.eq_nil_or_concat' comps with rfl | ⟨init, c, rfl⟩
  · rwa [spell_nil]
  · rw [spell_snoc, List.getLast?_append_of_ne_nil _ c.bytes_ne]
    intro h
    have := c.not_sep (List.mem_of_getLast? h)
    exact absurd this (by decide)

theorem withSep_spell {root : Str} (hroot : root.getLast? ≠ some backslash)
    (comps : List Component) (trailing : Bool) :
    withSep backslash (spell root comps trailing) = spell root comps true := by
  cases trailing with
  | false => rw [withSep, if_neg (getLast?_spell hroot comps), spell_true]
  | true => rw [withSep, if_pos (by rw [spell_true, List.getLast?_append]; rfl)]

/-- From behind a last component, the backslash in front of it is found. -/
theorem backUp_append {rootPos : ℕ} {pre t : Str} (ht : ∀ c ∈ t, c ≠ backslash)
    (hroot : rootPos ≤ pre.length) :
    backUp rootPos (pre ++ backslash :: t) (pre.length + 1 + t.length) = some pre.length := by
  suffices h : ∀ j, j ≤ t.length →
      backUp rootPos (pre ++ backslash :: t) (pre.length + j + 1) = some pre.length by
    have := h t.length (Nat.le_refl _)
    rwa [Nat.add_right_comm] at this
  intro j
  induction j with
  | zero =>
    intro _
    rw [backUp, if_pos (by simp)]
  | succ j ih =>
    intro hj
    have hget : (pre ++ backslash :: t)[pre.length + (j + 1)]? = some t[j] := by
      rw [List.getElem?_append_right (by omega), Nat.add_sub_cancel_left,
        List.getElem?_cons_succ, List.getElem?_eq_getElem (by omega)]
    rw [backUp, hget, if_neg (by simpa using ht t[j] (List.getElem_mem _)), if_neg (by omega)]
    exact ih (by omega)

/-- There is nothing behind the root of a drive to take away. -/
theorem backUp_root {letter : UInt8} : backUp 2 [letter, colon] 2 = none := by
  rw [backUp, if_neg (by simp; decide), if_pos (Nat.le_succ 1)]

theorem backUp_spell {letter : UInt8} (comps : List Component) :
    (backUp 2 (spell [letter, colon] comps false) (spell [letter, colon] comps false).length).map
        (fun p => (spell [letter, colon] comps true).take p) =
      if comps = [] then none else some (spell [letter, colon] comps.dropLast false) := by
  rcases List.eq_nil_or_concat' comps with rfl | ⟨init, c, rfl⟩
  · rw [if_pos rfl, spell_nil, List.length_cons, List.length_singleton, backUp_root]
    rfl
  · have hlen : (2 : ℕ) ≤ (spell [letter, colon] init false).length := by simp [spell]
    have hne : ∀ x ∈ c.bytes, x ≠ backslash := by
      intro x hx he
      have := c.not_sep hx
      rw [he] at this
      exact absurd this (by decide)
    have hb := backUp_append hne hlen
    have hpath : spell [letter, colon] (init ++ [c]) false =
        spell [letter, colon] init false ++ backslash :: c.bytes := by
      rw [spell_snoc, spell_true, List.append_assoc, List.singleton_append]
    have hlen' : (spell [letter, colon] (init ++ [c]) false).length =
        (spell [letter, colon] init false).length + 1 + c.bytes.length := by
      rw [hpath, List.length_append, List.length_cons]
      omega
    rw [if_neg (by simp), List.dropLast_concat, hlen', hpath, hb, Option.map_some, spell_true,
      hpath, List.append_assoc, List.take_left]

/-- No component but the last has wildcards, and the last only if the flag says so. -/
def WildLast (comps : List Component) (wild : Bool) : Prop :=
  (∀ c ∈ comps.dropLast, c.wild = false) ∧ (wild = false → ∀ c ∈ comps, c.wild = false)

theorem WildLast.snoc {comps : List Component} {c : Component} {w : Bool}
    (h : ∀ c ∈ comps, c.wild = false) (hc : c.wild = true → w = true) :
    WildLast (comps ++ [c]) w := by
  refine ⟨by rwa [List.dropLast_concat], ?_⟩
  intro hw d hd
  rcases List.mem_append.1 hd with hd | hd
  · exact h d hd
  · rw [List.mem_singleton.1 hd]
    by_contra hne
    rw [hc (by simpa using hne)] at hw
    cases hw

theorem behind_of_segment_nil {src : Str} (h : segment src = []) : behind src = [] := by
  have hb := segment_append_behind src
  rw [h, List.nil_append] at hb
  have hend := atEnd_behind src
  cases hs : behind src with
  | nil => rfl
  | cons c s =>
    rw [hs] at hb hend
    have := List.head?_dropWhile_not isSep src
    rw [← hb] at this
    have hc : isSep c = true := hend
    simp [hc] at this

/-- One segment turns a path of components into one. -/
theorem enter_spelled {letter : UInt8} {comps : List Component} {seg path : Str} {w : Bool}
    (hs : ∀ c ∈ seg, isSep c = false) (hc : ∀ c ∈ comps, c.wild = false)
    (h : enter 2 backslash (spell [letter, colon] comps false) seg = some (path, w)) :
    ∃ comps' trailing, path = spell [letter, colon] comps' trailing ∧ WildLast comps' w ∧
      (trailing = true → seg = [] ∧ w = false) := by
  have hroot : [letter, colon].getLast? ≠ some backslash := fun h => (by cases h)
  have hdrop : (spell [letter, colon] comps true).dropLast = spell [letter, colon] comps false := by
    rw [spell_true, List.dropLast_concat]
  rw [enter, ← withSep, withSep_spell hroot, hdrop] at h
  split at h
  · cases h
  split at h
  · cases h
    exact ⟨comps, false, rfl, ⟨fun c hd => hc c ((List.dropLast_sublist _).mem hd), fun _ => hc⟩,
      fun ht => (by cases ht)⟩
  split at h
  · obtain ⟨p, hp, hpw⟩ := Option.map_eq_some_iff.1 h
    obtain ⟨rfl, rfl⟩ := Prod.mk.inj hpw
    have hb := @backUp_spell letter comps
    rw [hp, Option.map_some] at hb
    split at hb
    · cases hb
    · refine ⟨comps.dropLast, false, Option.some.inj hb, ?_, fun ht => (by cases ht)⟩
      have hd : ∀ c ∈ comps.dropLast, c.wild = false :=
        fun c hd => hc c ((List.dropLast_sublist _).mem hd)
      exact ⟨fun c hd' => hd c ((List.dropLast_sublist _).mem hd'), fun _ => hd⟩
  split at h
  · cases h
  case isFalse hd =>
    obtain ⟨q, hq, hqt⟩ := Option.bind_eq_some_iff.1 h
    split at hqt
    · cases hqt
    cases hqt
    by_cases hnil : seg = []
    · subst hnil
      cases hq
      exact ⟨comps, true, by simp, ⟨fun c hd => hc c ((List.dropLast_sublist _).mem hd), fun _ => hc⟩,
        fun _ => ⟨rfl, rfl⟩⟩
    · obtain ⟨c, hcb, hcw⟩ := fit_component hq hnil hs hd
      refine ⟨comps ++ [c], false, ?_, .snoc hc hcw, fun ht => (by cases ht)⟩
      rw [spell_snoc, hcb]

/-- **The segments turn a path of components into one.** -/
theorem walk_spelled {letter : UInt8} (n : ℕ) {src : Str} {wild w trailing : Bool}
    {comps : List Component} {path : Str}
    (h : walk 2 backslash n src wild (spell [letter, colon] comps trailing) = some (path, w))
    (hc : WildLast comps wild) (ht : trailing = true → src = [] ∧ wild = false) :
    ∃ comps' trailing', path = spell [letter, colon] comps' trailing' ∧ WildLast comps' w ∧
      (trailing' = true → w = false) := by
  induction n generalizing src wild comps trailing with
  | zero =>
    cases h
    exact ⟨comps, trailing, rfl, hc, fun h => (ht h).2⟩
  | succ n ih =>
    rw [walk] at h
    split at h
    · cases h
      exact ⟨comps, trailing, rfl, hc, fun h => (ht h).2⟩
    case isFalse hsrc =>
      split at h
      · cases h
      case isFalse hw =>
        obtain rfl : wild = false := by simpa using hw
        obtain rfl : trailing = false := by
          by_contra hne
          exact hsrc (ht (by simpa using hne)).1
        obtain ⟨q, hq, hqt⟩ := Option.bind_eq_some_iff.1 h
        obtain ⟨comps', trailing', hpath, hwl, htr⟩ :=
          @enter_spelled _ _ _ q.1 q.2 (segment_sep src) (hc.2 rfl) hq
        rw [hpath] at hqt
        exact ih hqt hwl fun h => ⟨behind_of_segment_nil (htr h).1, (htr h).2⟩

/-! ## Names that are spelled so -/

theorem fitFrom_plain_ext {ext : Str} {i : ℕ} (h : ∀ c ∈ ext, Plain c) (hi : ext.length ≤ i) :
    fitFrom ext i true = some (ext, ext.contains quest) := by
  induction ext generalizing i with
  | nil => rfl
  | cons c ext ih =>
    have hc := h c List.mem_cons_self
    have hq : (c == quest || ext.contains quest) = (c :: ext).contains quest := by
      rw [List.contains_cons, Bool.beq_comm]
    rw [List.length_cons] at hi
    rw [fitFrom, if_neg hc.not_star, if_neg (fun hd => hc.not_dot hd.1),
      if_neg (fun hd => hc.not_dot hd.1), if_neg hc.not_dot]
    simp only [Bool.true_or]
    rw [if_neg (by omega), if_neg (by simp [hc.dirChar]),
      ih (fun d hd => h d (List.mem_cons_of_mem c hd)) (by omega), Option.map_some, hq]

theorem fitFrom_plain_name {name ext : Str} {i : ℕ} (h : ∀ c ∈ name ++ ext, Plain c)
    (hi : name.length ≤ i) (hext : ext.length ≤ fextSize) :
    fitFrom (name ++ dotted ext) i false =
      some (name ++ dotted ext, (name ++ ext).contains quest) := by
  induction name generalizing i with
  | nil =>
    rw [dotted]
    split
    case isTrue hnil => rw [hnil]; rfl
    case isFalse hne =>
      rw [List.nil_append, List.nil_append, fitFrom, if_neg (by decide), if_neg (by simp),
        if_neg (by simp [hne]), if_pos rfl]
      dsimp only
      rw [if_neg (by decide), if_neg (by decide)]
      have he := fitFrom_plain_ext (i := fextSize + 1 - 1) (fun c hc => h c (by simpa using hc)) hext
      have hd : (false || dot == dot) = true := rfl
      rw [hd, he, Option.map_some]
      rfl
  | cons c name ih =>
    have hc := h c (by simp)
    have hq : (c == quest || (name ++ ext).contains quest) =
        (c :: (name ++ ext)).contains quest := by
      rw [List.contains_cons, Bool.beq_comm]
    have hdot : (false || c == dot) = false := by simp [hc.not_dot]
    rw [List.length_cons] at hi
    rw [List.cons_append, List.cons_append, fitFrom, if_neg hc.not_star,
      if_neg (fun hd => hc.not_dot hd.1), if_neg (fun hd => hc.not_dot hd.1), if_neg hc.not_dot,
      hdot]
    dsimp only
    rw [if_neg (by omega), if_neg (by simp [hc.dirChar]),
      ih (fun d hd => h d (List.mem_cons_of_mem c hd)) (by omega), Option.map_some, hq]

/-- A component is not changed. -/
theorem fit_bytes (c : Component) : fit c.bytes = some (c.bytes, c.wild) :=
  fitFrom_plain_name c.plain c.name_le c.ext_le

theorem enter_bytes {letter : UInt8} {comps : List Component} {c : Component}
    (h : (spell [letter, colon] (comps ++ [c]) false).length ≤ sftMax) :
    enter 2 backslash (spell [letter, colon] comps false) c.bytes =
      some (spell [letter, colon] (comps ++ [c]) false, c.wild) := by
  have hroot : [letter, colon].getLast? ≠ some backslash := fun h => (nomatch h)
  have hlen := h
  rw [spell_snoc, List.length_append] at hlen
  rw [enter_eq (by rw [withSep_spell hroot]; omega), withSep_spell hroot, if_neg ?_, if_neg ?_,
    if_neg c.head?_bytes, fit_bytes, Option.bind_some, if_neg (by dsimp only; omega), spell_snoc]
  · intro he
    exact c.head?_bytes (by rw [he]; rfl)
  · intro he
    exact c.head?_bytes (by rw [he]; rfl)

theorem enter_nil {letter : UInt8} {comps : List Component}
    (h : (spell [letter, colon] comps true).length ≤ sftMax) :
    enter 2 backslash (spell [letter, colon] comps false) [] =
      some (spell [letter, colon] comps true, false) := by
  have hroot : [letter, colon].getLast? ≠ some backslash := fun h => (nomatch h)
  rw [enter_eq (by rwa [withSep_spell hroot]), withSep_spell hroot, if_neg (by simp),
    if_neg (by simp), if_neg (by simp)]
  have hf : fit [] = some ([], false) := rfl
  rw [hf, Option.bind_some, if_neg (by rw [List.length_nil]; omega), List.append_nil]

theorem segment_bytes (c : Component) {rest : Str} (h : atEnd rest = true) :
    segment (c.bytes ++ rest) = c.bytes ∧ behind (c.bytes ++ rest) = rest := by
  have hall : ∀ x ∈ c.bytes, (!isSep x) = true := by
    intro x hx
    rw [c.not_sep hx]
    rfl
  have hdrop : (c.bytes ++ rest).dropWhile isSep = c.bytes ++ rest := by
    have hne := c.bytes_ne
    generalize c.bytes = s at *
    cases s with
    | nil => exact absurd rfl hne
    | cons x s =>
      rw [List.cons_append, List.dropWhile_cons_of_neg]
      simpa using hall x List.mem_cons_self
  have hrest : rest.takeWhile (fun x => !isSep x) = [] ∧
      rest.dropWhile (fun x => !isSep x) = rest := by
    cases rest with
    | nil => exact ⟨rfl, rfl⟩
    | cons x rest =>
      have hx : isSep x = true := h
      exact ⟨List.takeWhile_cons_of_neg (by simp [hx]), List.dropWhile_cons_of_neg (by simp [hx])⟩
  rw [segment, behind, hdrop, List.takeWhile_append_of_pos hall, List.dropWhile_append_of_pos hall,
    hrest.1, hrest.2, List.append_nil]
  exact ⟨rfl, rfl⟩

theorem segment_cons_backslash (src : Str) :
    segment (backslash :: src) = segment src ∧ behind (backslash :: src) = behind src := by
  have : (backslash :: src).dropWhile isSep = src.dropWhile isSep :=
    List.dropWhile_cons_of_pos (by decide)
  rw [segment, behind, this]
  exact ⟨rfl, rfl⟩

theorem atEnd_spell (comps : List Component) (trailing : Bool) :
    atEnd (spell [] comps trailing) = true := by
  cases comps with
  | nil => cases trailing <;> decide
  | cons c comps => rfl

theorem spell_cons (c : Component) (comps : List Component) (trailing : Bool) :
    spell [] (c :: comps) trailing = backslash :: (c.bytes ++ spell [] comps trailing) := by
  simp [spell]

/-- **A name that is spelled so is appended as it is.** -/
theorem walk_spell {letter : UInt8} (comps : List Component) {pre : List Component}
    {trailing : Bool} {n : ℕ} (hn : comps.length + (if trailing then 1 else 0) ≤ n)
    (hlen : (spell [letter, colon] (pre ++ comps) trailing).length ≤ sftMax)
    (hw : ∀ c ∈ comps.dropLast, c.wild = false)
    (ht : trailing = true → ∀ c ∈ comps, c.wild = false) :
    ∃ w, walk 2 backslash n (spell [] comps trailing) false (spell [letter, colon] pre false) =
        some (spell [letter, colon] (pre ++ comps) trailing, w) ∧
      (w = true → ∃ c ∈ comps, c.wild = true) := by
  induction comps generalizing pre n with
  | nil =>
    rw [List.append_nil] at hlen ⊢
    cases trailing with
    | false =>
      refine ⟨false, ?_, fun h => (nomatch h)⟩
      cases n <;> rfl
    | true =>
      obtain ⟨n, rfl⟩ : ∃ m, n = m + 1 := ⟨n - 1, by simp at hn; omega⟩
      have hs : spell [] [] true = [backslash] := rfl
      have hseg : segment [backslash] = [] ∧ behind [backslash] = [] := by decide
      refine ⟨false, ?_, fun h => (nomatch h)⟩
      rw [hs, walk, if_neg (by simp), if_neg (by simp), hseg.1, hseg.2, enter_nil hlen]
      cases n <;> rfl
  | cons c comps ih =>
    rw [List.length_cons] at hn
    obtain ⟨n, rfl⟩ : ∃ m, n = m + 1 := ⟨n - 1, by omega⟩
    have hpre : pre ++ c :: comps = (pre ++ [c]) ++ comps := by simp
    have hstep : (spell [letter, colon] (pre ++ [c]) false).length ≤ sftMax := by
      refine Nat.le_trans ?_ hlen
      rw [hpre]
      simp [spell]
    have hseg := segment_bytes c (atEnd_spell comps trailing)
    have hsep := segment_cons_backslash (c.bytes ++ spell [] comps trailing)
    rw [spell_cons, walk, if_neg (by simp), if_neg (by simp), hsep.1, hsep.2, hseg.1, hseg.2,
      enter_bytes hstep, Option.bind_some, hpre]
    rw [hpre] at hlen
    dsimp only
    by_cases hnil : comps = [] ∧ trailing = false
    · obtain ⟨rfl, rfl⟩ := hnil
      refine ⟨c.wild, ?_, fun h => ⟨c, List.mem_cons_self, h⟩⟩
      rw [List.append_nil]
      cases n <;> rfl
    · have hcw : c.wild = false := by
        by_cases htr : trailing = true
        · exact ht htr c List.mem_cons_self
        · have hne : comps ≠ [] := fun h => hnil ⟨h, by simpa using htr⟩
          refine hw c ?_
          rw [List.dropLast_cons_of_ne_nil hne]
          exact List.mem_cons_self
      have hw' : ∀ d ∈ comps.dropLast, d.wild = false := by
        intro d hd
        refine hw d ?_
        rw [List.dropLast_cons_of_ne_nil (by rintro rfl; cases hd)]
        exact List.mem_cons_of_mem c hd
      obtain ⟨w, h, hwild⟩ := @ih (pre ++ [c]) n (by omega) hlen hw'
        fun htr d hd => ht htr d (List.mem_cons_of_mem c hd)
      rw [hcw]
      refine ⟨w, h, fun hw => ?_⟩
      obtain ⟨d, hd, hdw⟩ := hwild hw
      exact ⟨d, List.mem_cons_of_mem c hd, hdw⟩

/-! ## Upper case -/

/-- What the upper-case map of the file names has to be like: it changes nothing twice, and makes
of a character of a name one of a name, which is no wildcard if it was none. -/
structure UpcaseOk (up : UInt8 → UInt8) : Prop where
  idem : ∀ c, up (up c) = up c
  plain : ∀ c, Plain c → Plain (up c)
  quest : ∀ c, Plain c → up c = quest → c = quest

/-- A component in upper case. -/
def Component.upper {up : UInt8 → UInt8} (h : UpcaseOk up) (c : Component) : Component where
  name := c.name.map up
  ext := c.ext.map up
  name_ne := by
    rw [Ne, List.map_eq_nil_iff]
    exact c.name_ne
  name_le := by
    rw [List.length_map]
    exact c.name_le
  ext_le := by
    rw [List.length_map]
    exact c.ext_le
  plain := by
    intro x hx
    rw [← List.map_append] at hx
    obtain ⟨y, hy, rfl⟩ := List.mem_map.1 hx
    exact h.plain y (c.plain y hy)

theorem Component.wild_upper {up : UInt8 → UInt8} (h : UpcaseOk up) {c : Component}
    (hw : (c.upper h).wild = true) : c.wild = true := by
  rw [Component.wild, Component.upper, ← List.map_append, List.contains_iff_mem] at hw
  obtain ⟨y, hy, hq⟩ := List.mem_map.1 hw
  rw [Component.wild, List.contains_iff_mem, ← h.quest y (c.plain y hy) hq]
  exact hy

/-- The characters that stand for themselves in a path have no other case. -/
theorem Kernel.upFChar_fixed (k : Kernel) :
    k.upFChar backslash = backslash ∧ k.upFChar dot = dot := by
  simp only [Kernel.upFChar, upChar]
  exact ⟨rfl, rfl⟩

theorem Component.bytes_upper {up : UInt8 → UInt8} (h : UpcaseOk up) (hdot : up dot = dot)
    (c : Component) : (c.upper h).bytes = c.bytes.map up := by
  change c.name.map up ++ dotted (c.ext.map up) = (c.name ++ dotted c.ext).map up
  rw [List.map_append, dotted, dotted]
  by_cases hnil : c.ext = []
  · rw [if_pos hnil, if_pos (by rw [hnil]; rfl)]
    rfl
  · rw [if_neg hnil, if_neg (by rwa [List.map_eq_nil_iff]), List.map_cons, hdot]

/-- A path in upper case, but for the root. -/
theorem map_spell {up : UInt8 → UInt8} (h : UpcaseOk up) (hdot : up dot = dot)
    (hback : up backslash = backslash) (root : Str) (comps : List Component) (trailing : Bool) :
    (spell root comps trailing).take root.length ++
        ((spell root comps trailing).drop root.length).map up =
      spell root (comps.map (Component.upper h)) trailing := by
  have hflat : (comps.flatMap fun c => backslash :: c.bytes).map up =
      (comps.map (Component.upper h)).flatMap fun c => backslash :: c.bytes := by
    rw [List.map_flatMap, List.flatMap_map]
    congr 1
    funext c
    rw [List.map_cons, hback, c.bytes_upper h hdot]
  rw [spell, List.append_assoc, List.take_left, List.drop_left, List.map_append, hflat, spell,
    List.append_assoc]
  cases trailing with
  | false => rfl
  | true => rw [if_pos rfl, List.map_singleton, hback]

/-- **A canonical path**: drive letter, colon, and components with a backslash in front of each, in
upper case.  The root has a trailing backslash.  Wildcards are in the last component, and only if
they are allowed. -/
def Canonical (up : UInt8 → UInt8) (allow : Bool) (letter : UInt8) (path : Str) : Prop :=
  ∃ comps trailing, path = spell [letter, colon] comps trailing ∧
    (comps = [] → trailing = true) ∧
    (∀ c ∈ comps, ∀ x ∈ c.bytes, up x = x) ∧
    (∀ c ∈ comps.dropLast, c.wild = false) ∧
    (∀ c ∈ comps, c.wild = true → allow = true ∧ trailing = false)

/-! ## A local drive -/

/-- A local FAT drive that is not substituted, joined or redirected, and its current directory. -/
structure Kernel.LocalFat (k : Kernel) (i : ℕ) (cds : Cds) : Prop where
  entry : k.cds[i]? = some cds
  lt : i < 26
  physdrv : cds.physdrv = true
  hasDpb : cds.hasDpb = true
  netwdrv : cds.netwdrv = false
  joined : cds.joined = false
  subst : cds.subst = false
  offset : cds.backslashOffset = 2
  /-- The current directory is a path that `DosChangeDir` can have left there. -/
  dir : ∃ comps trailing, cds.currentPath = spell [drNrToLetter i, colon] comps trailing ∧
    ∀ c ∈ comps, c.wild = false
  /-- No redirector takes its names. -/
  no_redirector : ∀ s, k.qRemoteFn s = none

/-- A local FAT drive, to no directory of which another drive is joined. -/
structure Kernel.LocalDrive (k : Kernel) (i : ℕ) (cds : Cds) : Prop extends k.LocalFat i cds where
  no_join : ∀ c ∈ k.cds, c.joined = true → c.currentPath.take 2 ≠ [drNrToLetter i, colon]

theorem Kernel.LocalDrive.getCds {k : Kernel} {i : ℕ} {cds : Cds} (h : k.LocalDrive i cds) :
    k.getCds i = some cds := by
  rw [Kernel.getCds, h.entry]
  simp [h.physdrv, h.hasDpb, h.netwdrv, h.joined]

/-- What is in the buffer before the loop: the current directory, or the root. -/
theorem text_spelled {letter : UInt8} (comps : List Component) (trailing : Bool) :
    ∃ trailing', [letter, colon] ++
        backslash :: ((spell [letter, colon] comps trailing).drop 2).tail =
      spell [letter, colon] comps trailing' := by
  have hdrop : (spell [letter, colon] comps trailing).drop 2 = spell [] comps trailing := by
    simp [spell]
  rw [hdrop]
  cases comps with
  | nil =>
    refine ⟨true, ?_⟩
    cases trailing <;> rfl
  | cons c comps =>
    refine ⟨trailing, ?_⟩
    simp [spell]

/-- The drive's path after `dos_cd`, which may reset it to the root. -/
theorem Kernel.LocalDrive.enterDir {k : Kernel} {i : ℕ} {cds : Cds} (h : k.LocalDrive i cds) :
    ∃ comps trailing, (k.enterDir (.ofCds cds)).currentPath =
        spell [drNrToLetter i, colon] comps trailing ∧ ∀ c ∈ comps, c.wild = false := by
  rw [Kernel.enterDir]
  split
  · exact h.dir
  · obtain ⟨comps, trailing, hpath, hw⟩ := h.dir
    change ∃ comps trailing, cds.currentPath.take (cds.backslashOffset + 1) = _ ∧ _
    rw [hpath, h.offset]
    cases comps with
    | nil => exact ⟨[], trailing, by cases trailing <;> rfl, fun c hc => (by cases hc)⟩
    | cons c comps => exact ⟨[], true, rfl, fun c hc => (by cases hc)⟩

/-- The tables after a call: the drive is still there. -/
theorem Kernel.LocalDrive.resetDir {k : Kernel} {i : ℕ} {cds : Cds} (h : k.LocalDrive i cds) :
    ∃ cds', ({ k with cds := k.resetDir i (.ofCds cds) } : Kernel).LocalDrive i cds' := by
  rw [Kernel.resetDir]
  split
  · exact ⟨cds, h⟩
  · refine ⟨cds.toRoot, ⟨?_, h.lt, h.physdrv, h.hasDpb, h.netwdrv, h.joined, h.subst, h.offset, ?_,
      h.no_redirector⟩, ?_⟩
    · change (k.cds.modify i Cds.toRoot)[i]? = _
      rw [List.getElem?_modify, h.entry, Option.map_eq_map, Option.map_some, if_pos rfl]
    · obtain ⟨comps, trailing, hpath, hw⟩ := h.dir
      change ∃ comps trailing, cds.currentPath.take (cds.backslashOffset + 1) = _ ∧ _
      rw [hpath, h.offset]
      cases comps with
      | nil => exact ⟨[], trailing, by cases trailing <;> rfl, fun c hc => (nomatch hc)⟩
      | cons c comps => exact ⟨[], true, rfl, fun c hc => (nomatch hc)⟩
    · intro c hc hj
      obtain ⟨j, hj'⟩ := List.mem_iff_getElem?.1 hc
      change (k.cds.modify i Cds.toRoot)[j]? = _ at hj'
      rw [List.getElem?_modify] at hj'
      obtain ⟨d, hd, rfl⟩ := Option.map_eq_some_iff.1 hj'
      have hmem : d ∈ k.cds := List.mem_of_getElem? hd
      split at hj
      case isTrue hi =>
        rw [← hi, h.entry] at hd
        cases hd
        rw [Cds.toRoot, h.joined] at hj
        cases hj
      case isFalse hi =>
        rw [if_neg hi]
        exact h.no_join d hmem hj

/-- **The start of the loop on a local drive.** -/
theorem Kernel.LocalDrive.qualify {k : Kernel} {i : ℕ} {cds : Cds} (h : k.LocalDrive i cds)
    (front : UInt8) (mode : Mode) (src : Str) {dest : List UInt8} (hdest : dest.length ≤ 12)
    (hmedia : k.mediaCheck i = true) :
    ∃ s comps, k.qualify front mode i i (.ofCds cds) src dest = .ok s ∧
      s.k = { k with cds := k.resetDir i (.ofCds cds) } ∧ s.result = i ∧
      s.src = (if src.head?.any isSep then src.tail else src) ∧
      s.Ok front [drNrToLetter i, colon] backslash ∧
      s.buf.text = spell [drNrToLetter i, colon] comps false ∧ (∀ c ∈ comps, c.wild = false) ∧
      (src.head?.any isSep → comps = []) := by
  obtain ⟨comps, trailing, hcp, hw⟩ := h.enterDir
  obtain ⟨trailing', htext⟩ := @text_spelled (drNrToLetter i) comps trailing
  have hlocal : ((TempCds.ofCds cds).real && !(TempCds.ofCds cds).netwdrv) = true := by
    simp [TempCds.ofCds, h.netwdrv]
  have hoff : (k.enterDir (.ofCds cds)).backslashOffset = 2 := by
    rw [Kernel.enterDir]
    split <;> exact h.offset
  have hsubst : (k.enterDir (.ofCds cds)).subst = false := by
    rw [Kernel.enterDir]
    split <;> exact h.subst
  have hletter : drNrToLetter (i &&& 0x1f) = drNrToLetter i := by
    have : i &&& 0x1f = i := by
      rw [show (0x1f : ℕ) = 2 ^ 5 - 1 from rfl, Nat.and_two_pow_sub_one_eq_mod]
      have := h.lt
      omega
    rw [this]
  have hlt := (TempCds.ok_ofCds cds).enterDir k
  rw [Kernel.qualify]
  dsimp only
  rw [hlocal, if_neg (by simp [hmedia]), if_pos rfl, if_pos rfl, hoff, hsubst, hletter, hcp]
  have hstart : (if mode.skipPhysical = true then [drNrToLetter i, colon]
      else (spell [drNrToLetter i, colon] comps trailing).take 2) = [drNrToLetter i, colon] := by
    split
    · rfl
    · simp [spell]
  have hlen2 : 2 ≤ (spell [drNrToLetter i, colon] comps trailing').length := by simp [spell]
  have hlt : (spell [drNrToLetter i, colon] comps trailing').length < 70 := by
    have hcplt := hlt.length_lt
    rw [hcp] at hcplt
    simp only [maxCdsPath] at hcplt
    rw [← htext]
    simp
    omega
  rw [hstart, htext]
  generalize hp : (if src.head?.any isSep = true then [drNrToLetter i, colon].length
    else (spell [drNrToLetter i, colon] comps trailing').length) = p
  have hp' : p = [drNrToLetter i, colon].length ∨
      p = (spell [drNrToLetter i, colon] comps trailing').length := by
    rw [← hp]
    split
    · exact .inl rfl
    · exact .inr rfl
  have hp2 : p ≠ 0 := by
    rcases hp' with hp' | hp' <;> rw [hp']
    · exact Nat.succ_ne_zero 1
    · omega
  rw [if_neg (fun he => hp2 he.2), if_neg (by rintro ⟨-, h, -⟩; cases h)]
  have hple : (if charBefore front (spell [drNrToLetter i, colon] comps trailing') p = backslash
      then p - 1 else p) ≤ (spell [drNrToLetter i, colon] comps trailing').length := by
    have : p ≤ (spell [drNrToLetter i, colon] comps trailing').length := by
      rcases hp' with hp' | hp' <;> rw [hp']
      exact hlen2
    split <;> omega
  refine ⟨_, if src.head?.any isSep then [] else comps, rfl, rfl, rfl, rfl, ?_, ?_, ?_, ?_⟩
  · refine ⟨rfl, ⟨fun h => (by cases h), fun h => (by cases h)⟩, ?_, fun h => (by cases h)⟩
    rw [← htext] at hp' hlt ⊢
    refine at_start (fun h => (by cases h)) ?_ hp' (by simp only [sftMax]; omega) fun he => hp2 he.2
    rw [List.length_append, List.length_cons (a := backslash)] at hlt
    simp only [sftMax]
    omega
  · rw [Buf.text, strcpy, List.take_append_of_le_length hple]
    by_cases ha : src.head?.any isSep = true
    · rw [if_pos ha] at hp ⊢
      have hc : charBefore front (spell [drNrToLetter i, colon] comps trailing') p = colon := by
        rw [charBefore, if_neg hp2, ← hp]
        simp [spell]
      rw [hc, if_neg (by decide), ← hp, spell_nil]
      simp [spell]
    · rw [if_neg ha] at hp ⊢
      have hc : charBefore front (spell [drNrToLetter i, colon] comps trailing') p = backslash ↔
          trailing' = true := by
        rw [charBefore, if_neg hp2, ← hp, ← List.getLast?_eq_getElem?]
        cases trailing' with
        | true => simp [spell_true]
        | false =>
          have hne := @getLast?_spell [drNrToLetter i, colon] (fun h => (by cases h)) comps
          rw [List.getLast?_eq_getElem?, List.getElem?_eq_getElem (by omega)] at hne ⊢
          simpa using hne
      cases trailing' with
      | true =>
        rw [if_pos (hc.2 rfl), ← hp, ← List.dropLast_eq_take, spell_true, List.dropLast_concat]
      | false => rw [if_neg (fun h => (by cases hc.1 h)), ← hp, List.take_length]
  · intro c hc
    split at hc
    · cases hc
    · exact hw c hc
  · intro ha
    rw [if_pos ha]

theorem Kernel.LocalDrive.bits {k : Kernel} {i : ℕ} {cds : Cds} (h : k.LocalDrive i cds) :
    i &&& isDeviceBit = 0 ∧ i &&& (isDeviceBit ||| isNetworkBit) = 0 := by
  have := h.lt
  interval_cases i <;> exact ⟨rfl, rfl⟩

/-- A name on a local drive comes to the current directory. -/
theorem Kernel.LocalDrive.begin {k : Kernel} {i : ℕ} {cds : Cds} (h : k.LocalDrive i cds)
    (front : UInt8) (mode : Mode) {src : Str} (hne : src ≠ []) (hdrive : k.driveOf src = i)
    (hunc : ¬ (src.head? = some backslash ∧ src.tail.head? = some backslash))
    (hdev : k.isDevice src = none) :
    ∃ dest : List UInt8, dest.length ≤ 12 ∧
      k.begin front src mode = k.qualify front mode i i (.ofCds cds) (skipDrive src) dest := by
  have hrem : k.remote src mode = none := by
    rw [Kernel.remote, h.no_redirector]
    split <;> rfl
  refine ⟨drNrToLetter (i &&& 0x1f) :: colon :: backslash :: List.replicate 9 0, by simp, ?_⟩
  rw [Kernel.begin]
  dsimp only
  rw [if_neg hne, if_neg hunc, hrem, hdrive, h.getCds, hdev]
  dsimp only
  rw [Kernel.mapLocal]
  have hn : (TempCds.ofCds cds).netwdrv = false := h.netwdrv
  simp only [hn, Option.isSome_none, Bool.false_eq_true, if_false, h.bits.1, ne_eq, not_true_eq_false,
    false_and]

/-- What comes of the loop: an error, or a path that is finished in upper case. -/
theorem Start.complete_cases {s : Start} {front sep : UInt8} {root : Str} (h : s.Ok front root sep)
    (mode : Mode) :
    ((s.complete front mode).code < 0 ∧
      (s.resolve = none ∨ ∃ path, s.resolve = some (path, true) ∧ mode.allowWildcards = false)) ∨
    ∃ path wild, s.resolve = some (path, wild) ∧ path.length ≤ sftMax ∧
      (wild = true → mode.allowWildcards = true) ∧ ∃ stored, s.complete front mode =
        let text := if path.length = 2 then path ++ [backslash] else path
        s.k.finish mode s.result
          (text.take root.length ++ (text.drop root.length).map s.k.upFChar) stored := by
  have hwalk := appendPath_walk h.rooted s.src.length s.src false h.at_root h.frontOk
  have hres : s.resolve =
      walk root.length sep s.src.length s.src false s.buf.text := by
    rw [Start.resolve, h.rootPos, h.at_root.sep_at, Option.getD_some]
  rw [Start.complete, h.rootPos, hres]
  dsimp only at hwalk ⊢
  generalize appendPath front root.length s.src.length s.src false s.buf = r at *
  rcases hwalk with ⟨hw, hr, hat⟩ | ⟨hw, hr, -⟩
  case inr =>
    rw [if_pos (Int.ne_of_lt hr)]
    exact .inl ⟨hr, .inl hw⟩
  rw [if_neg (by simp [hr])]
  by_cases hwild : (r.2.1 && !mode.allowWildcards) = true
  · rw [if_pos hwild]
    rw [Bool.and_eq_true, Bool.not_eq_true'] at hwild
    rw [hwild.1] at hw
    exact .inl ⟨(by decide : dePathNotFnd < 0), .inr ⟨_, hw, hwild.2⟩⟩
  rw [if_neg hwild]
  have hlen := hat.fits.length_text
  have hp := hat.fits.p_le
  have hd := hat.fits.dest_le
  refine .inr ⟨r.2.2.text, r.2.1, hw, by omega, fun ht => by simpa [ht] using hwild, ?_⟩
  rw [hlen]
  by_cases h2 : r.2.2.p = 2
  · have hadd : addChar [] backslash r.2.2 = (0, r.2.2.put backslash) := by
      rw [addChar, if_neg (by rw [h2]; decide)]
    rw [if_pos h2, if_pos h2, hadd, if_neg (by simp), Buf.text_put hp]
    exact ⟨_, rfl⟩
  · rw [if_neg h2, if_neg h2, if_neg (by simp)]
    exact ⟨_, rfl⟩

/-- On a local drive the path is the result. -/
theorem Kernel.LocalDrive.finish {k : Kernel} {i : ℕ} {cds : Cds} (h : k.LocalDrive i cds)
    (mode : Mode) (comps : List Component) (trailing : Bool) (stored : ℕ) :
    let r := k.finish mode i (spell [drNrToLetter i, colon] comps trailing) stored
    r.path = spell [drNrToLetter i, colon] comps trailing ∧ 0 ≤ r.code ∧ r.cds = k.cds := by
  have hjoin : k.joinedDrive (spell [drNrToLetter i, colon] comps trailing) = none := by
    rw [Kernel.joinedDrive, List.findIdx?_eq_none_iff]
    intro c hc
    by_contra hne
    simp only [Bool.and_eq_true, Bool.not_eq_false] at hne
    obtain ⟨⟨hj, -⟩, hpre⟩ := hne
    refine h.no_join c hc hj ?_
    have h2 := c.two_le_length
    obtain ⟨t, ht⟩ := List.isPrefixOf_iff_prefix.1 hpre
    have htake := congrArg (List.take 2) ht
    rw [List.take_append_of_le_length h2] at htake
    rw [htake]
    simp [spell]
  rw [Kernel.finish]
  dsimp only
  rw [hjoin, h.bits.2]
  have hnone : (if (spell [drNrToLetter i, colon] comps trailing)[2]? ≠ some slash ∧
      (!mode.skipPhysical) = true ∧ k.njoined ≠ 0 then (none : Option ℕ) else none) = none :=
    ite_self _
  rw [hnone]
  dsimp only
  rw [if_neg (by simp [isDeviceBit])]
  split
  · refine ⟨rfl, ?_, rfl⟩
    dsimp only
    split <;> decide
  · exact ⟨rfl, Int.natCast_nonneg i, rfl⟩

theorem Start.Ok.resolve_eq {s : Start} {front sep : UInt8} {root : Str} (h : s.Ok front root sep) :
    s.resolve = walk root.length sep s.src.length s.src false s.buf.text := by
  rw [Start.resolve, h.rootPos, h.at_root.sep_at, Option.getD_some]

/-- A path is as long as its root only if it is the root. -/
theorem length_spell_eq {letter : UInt8} {comps : List Component} {trailing : Bool}
    (h : (spell [letter, colon] comps trailing).length = 2) : comps = [] ∧ trailing = false := by
  cases comps with
  | nil =>
    cases trailing with
    | false => exact ⟨rfl, rfl⟩
    | true => cases h
  | cons c comps => simp [spell] at h

theorem le_length_spell (comps : List Component) (trailing : Bool) :
    2 * comps.length + (if trailing then 1 else 0) ≤ (spell [] comps trailing).length := by
  induction comps with
  | nil => cases trailing <;> decide
  | cons c comps ih =>
    have := List.length_pos_iff.2 c.bytes_ne
    rw [spell_cons, List.length_cons, List.length_cons, List.length_append]
    omega

/-- The path with the separator that is always there behind a colon. -/
theorem root_fix {letter : UInt8} (comps : List Component) (trailing : Bool) :
    ∃ trailing', (if (spell [letter, colon] comps trailing).length = 2 then
        spell [letter, colon] comps trailing ++ [backslash] else
        spell [letter, colon] comps trailing) = spell [letter, colon] comps trailing' ∧
      (comps = [] → trailing' = true) ∧ (comps ≠ [] → trailing' = trailing) := by
  split
  case isTrue h =>
    obtain ⟨rfl, rfl⟩ := length_spell_eq h
    exact ⟨true, by rw [spell_true], fun _ => rfl, fun h => absurd rfl h⟩
  case isFalse h =>
    refine ⟨trailing, rfl, ?_, fun _ => rfl⟩
    rintro rfl
    cases trailing with
    | false => exact absurd rfl h
    | true => rfl

/-- What `truename` returns on a local drive. -/
theorem Kernel.LocalDrive.truename {k : Kernel} {i : ℕ} {cds : Cds} (h : k.LocalDrive i cds)
    (hup : UpcaseOk k.upFChar) (front : UInt8) (mode : Mode) {src : Str} (hne : src ≠ [])
    (hdrive : k.driveOf src = i)
    (hunc : ¬ (src.head? = some backslash ∧ src.tail.head? = some backslash))
    (hdev : k.isDevice src = none) (hok : 0 ≤ (k.truename front src mode).code) :
    k.mediaCheck i = true ∧ (k.truename front src mode).cds = k.resetDir i (.ofCds cds) ∧
    ∃ comps trailing, (k.truename front src mode).path =
        spell [drNrToLetter i, colon] (comps.map (Component.upper hup)) trailing ∧
      (spell [drNrToLetter i, colon] comps trailing).length ≤ sftMax ∧
      (comps = [] → trailing = true) ∧ (∀ c ∈ comps.dropLast, c.wild = false) ∧
      (∀ c ∈ comps, c.wild = true → mode.allowWildcards = true ∧ trailing = false) := by
  obtain ⟨dest, hdest, hbegin⟩ := h.begin front mode hne hdrive hunc hdev
  rw [Kernel.truename, hbegin] at hok ⊢
  by_cases hmedia : k.mediaCheck i = true
  case neg =>
    have hlocal : ((TempCds.ofCds cds).real && !(TempCds.ofCds cds).netwdrv) = true := by
      simp [TempCds.ofCds, h.netwdrv]
    have hfail : k.qualify front mode i i (.ofCds cds) (skipDrive src) dest =
        .error (k.fail dePathNotFnd dest) := by
      rw [Kernel.qualify]
      dsimp only
      rw [if_pos ⟨hlocal, by simpa using hmedia⟩]
    rw [hfail] at hok
    exact absurd hok (by simp [Kernel.fail, dePathNotFnd])
  obtain ⟨s, comps₀, hs, hk, hres, -, hsok, htext, hw₀, -⟩ :=
    h.qualify front mode (skipDrive src) hdest hmedia
  obtain ⟨cds', hk'⟩ := h.resetDir
  rw [← hk] at hk'
  rw [hs] at hok ⊢
  dsimp only at hok ⊢
  have hup' : s.k.upFChar = k.upFChar := by rw [hk]; rfl
  rcases Start.complete_cases hsok mode with ⟨hfail, -⟩ | ⟨path, wild, hpath, hlen, hallow, st, hc⟩
  · omega
  · rw [hsok.resolve_eq, htext] at hpath
    obtain ⟨comps, trailing, rfl, hwl, htr⟩ := walk_spelled _ hpath
      ⟨fun c hc => hw₀ c ((List.dropLast_sublist _).mem hc), fun _ => hw₀⟩ (fun h => (by cases h))
    obtain ⟨trailing', hfix, hroot, hsame⟩ := @root_fix (drNrToLetter i) comps trailing
    have hback := k.upFChar_fixed
    dsimp only at hc
    rw [hfix, hup', map_spell hup hback.2 hback.1, hres] at hc
    have hfin := hk'.finish mode (comps.map (Component.upper hup)) trailing' st
    rw [hc]
    refine ⟨hmedia, by rw [hfin.2.2, hk], comps, trailing', hfin.1, ?_, hroot, hwl.1, ?_⟩
    · by_cases hnil : comps = []
      · rw [hnil, hroot hnil]
        exact Nat.le_of_ble_eq_true rfl
      · rwa [hsame hnil]
    · intro c hc hcw
      have hwild : wild = true := by
        by_contra hne
        rw [hwl.2 (by simpa using hne) c hc] at hcw
        cases hcw
      refine ⟨hallow hwild, ?_⟩
      rw [hsame (List.ne_nil_of_mem hc)]
      by_contra hne
      rw [htr (by simpa using hne)] at hwild
      cases hwild

theorem mem_spell {comps : List Component} {trailing : Bool} {x : UInt8}
    (h : x ∈ spell [] comps trailing) : x = backslash ∨ ∃ c ∈ comps, x ∈ c.bytes := by
  rw [spell, List.nil_append, List.mem_append] at h
  rcases h with h | h
  · obtain ⟨c, hc, hx⟩ := List.mem_flatMap.1 h
    rcases List.mem_cons.1 hx with hx | hx
    · exact .inl hx
    · exact .inr ⟨c, hc, hx⟩
  · split at h
    · exact .inl (List.mem_singleton.1 h)
    · cases h

theorem spell_root (root : Str) (comps : List Component) (trailing : Bool) :
    spell root comps trailing = root ++ spell [] comps trailing := by
  simp [spell]

/-- The letter of a drive gives its number. -/
theorem Kernel.driveOf_spell (k : Kernel) {i : ℕ} (hi : i < 26) (s : Str) :
    k.driveOf (drNrToLetter i :: colon :: s) = i := by
  have hletter : drLetterToNr (k.upFChar (drNrToLetter i)) = i := by
    have h : ¬ (0x61 ≤ drNrToLetter i ∧ drNrToLetter i ≤ 0x7a) ∧ ¬ 0x7f < drNrToLetter i ∧
        drLetterToNr (drNrToLetter i) = i := by
      interval_cases i <;> decide
    rw [Kernel.upFChar, upChar, if_neg h.1, if_neg h.2.1, h.2.2]
  rw [Kernel.driveOf, List.tail_cons, List.head?_cons, if_pos rfl, List.headD_cons, hletter]

theorem drNrToLetter_ne {i : ℕ} (hi : i < 26) : drNrToLetter i ≠ backslash := by
  interval_cases i <;> decide

/-- **What is canonical is its own true name.** -/
theorem Kernel.LocalDrive.truename_fixed {k : Kernel} {i : ℕ} {cds : Cds}
    (h : k.LocalDrive i cds) (front : UInt8) (mode : Mode) (hmedia : k.mediaCheck i = true)
    {path : Str} (hpath : Canonical k.upFChar mode.allowWildcards (drNrToLetter i) path)
    (hlen : path.length ≤ sftMax) (hdev : k.isDevice path = none) :
    0 ≤ (k.truename front path mode).code ∧ (k.truename front path mode).path = path := by
  obtain ⟨comps, trailing, rfl, hroot, hup, hw, hwild⟩ := hpath
  have hcons : spell [drNrToLetter i, colon] comps trailing =
      drNrToLetter i :: colon :: spell [] comps trailing := spell_root _ _ _
  have hskip : skipDrive (spell [drNrToLetter i, colon] comps trailing) =
      spell [] comps trailing := by
    rw [hcons, skipDrive, List.tail_cons, List.head?_cons, if_pos rfl]
    rfl
  have habs : (spell [] comps trailing).head?.any isSep = true := by
    cases comps with
    | nil => rw [hroot rfl]; decide
    | cons c comps => rw [spell_cons]; rfl
  obtain ⟨dest, hdest, hbegin⟩ := @Kernel.LocalDrive.begin _ _ _ h front mode (spell [drNrToLetter i, colon] comps trailing)
    (by rw [hcons]; exact List.cons_ne_nil _ _) (by rw [hcons]; exact k.driveOf_spell h.lt _)
    (by rw [hcons]; exact fun he => drNrToLetter_ne h.lt (Option.some.inj he.1)) hdev
  rw [hskip] at hbegin
  obtain ⟨s, comps₀, hs, hk, hres, hsrc, hsok, htext, -, hnil⟩ :=
    h.qualify front mode (spell [] comps trailing) hdest hmedia
  obtain ⟨cds', hk'⟩ := h.resetDir
  rw [← hk] at hk'
  rw [if_pos habs] at hsrc
  rw [hnil habs] at htext
  have hresolve : ∃ path w, s.resolve = some (path, w) ∧
      (if path.length = 2 then path ++ [backslash] else path) =
        spell [drNrToLetter i, colon] comps trailing ∧
      (w = true → mode.allowWildcards = true) := by
    rw [hsok.resolve_eq, htext, hsrc]
    cases comps with
    | nil =>
      rw [hroot rfl]
      exact ⟨[drNrToLetter i, colon], false, rfl, rfl, fun h => (by cases h)⟩
    | cons c comps =>
      have hle := le_length_spell comps trailing
      have hpos := List.length_pos_iff.2 c.bytes_ne
      have hn : (c :: comps).length + (if trailing then 1 else 0) ≤
          (spell [] (c :: comps) trailing).tail.length := by
        rw [spell_cons, List.tail_cons, List.length_append, List.length_cons]
        omega
      obtain ⟨w, hwalk, hw'⟩ := @walk_spell (drNrToLetter i) (c :: comps) [] _ _
        hn hlen hw (fun htr d hd => by
          by_contra hne
          rw [(hwild d hd (by simpa using hne)).2] at htr
          cases htr)
      have htail : walk 2 backslash (spell [] (c :: comps) trailing).tail.length
            (spell [] (c :: comps) trailing).tail false (spell [drNrToLetter i, colon] [] false) =
          walk 2 backslash (spell [] (c :: comps) trailing).tail.length
            (spell [] (c :: comps) trailing) false (spell [drNrToLetter i, colon] [] false) := by
        have hne : c.bytes ++ spell [] comps trailing ≠ [] := by simp [c.bytes_ne]
        obtain ⟨m, hm⟩ : ∃ m, (spell [] (c :: comps) trailing).tail.length = m + 1 :=
          ⟨_, (Nat.succ_pred_eq_of_pos (by rw [List.length_cons] at hn; omega)).symm⟩
        have hsep := segment_cons_backslash (c.bytes ++ spell [] comps trailing)
        rw [hm, spell_cons, List.tail_cons, walk, walk, if_neg hne, if_neg (by simp), hsep.1, hsep.2,
          if_neg (List.cons_ne_nil _ _), if_neg Bool.false_ne_true]
      have hlong : (spell [drNrToLetter i, colon] (c :: comps) trailing).length ≠ 2 := by
        intro h2
        exact absurd (length_spell_eq h2).1 (List.cons_ne_nil _ _)
      refine ⟨_, w, htail.trans hwalk, if_neg hlong, fun hwt => ?_⟩
      obtain ⟨d, hd, hdw⟩ := hw' hwt
      exact (hwild d hd hdw).1
  obtain ⟨path, w, hr, hfix, hallow⟩ := hresolve
  have hup' : s.k.upFChar = k.upFChar := by rw [hk]; rfl
  rw [Kernel.truename, hbegin, hs]
  dsimp only
  rcases Start.complete_cases hsok mode with ⟨-, hfail⟩ | ⟨path', w', hr', -, -, st, hc⟩
  · rcases hfail with hfail | ⟨path', hr', ha⟩
    · rw [hr] at hfail
      cases hfail
    · rw [hr] at hr'
      cases hr'
      rw [hallow rfl] at ha
      cases ha
  · rw [hr] at hr'
    cases hr'
    have hmap : (spell [] comps trailing).map k.upFChar = spell [] comps trailing := by
      refine (List.map_congr_left (g := id) ?_).trans (List.map_id _)
      intro x hx
      rcases mem_spell hx with rfl | ⟨c, hc, hx⟩
      · exact k.upFChar_fixed.1
      · exact hup c hc x hx
    have htext' : (spell [drNrToLetter i, colon] comps trailing).take [drNrToLetter i, colon].length ++
        ((spell [drNrToLetter i, colon] comps trailing).drop [drNrToLetter i, colon].length).map
          k.upFChar = spell [drNrToLetter i, colon] comps trailing := by
      rw [spell_root, List.take_left, List.drop_left, hmap]
    dsimp only at hc
    rw [hfix, hup', hres, htext'] at hc
    have hfin := hk'.finish mode comps trailing st
    rw [hc]
    exact ⟨hfin.2.1, hfin.1⟩

/-- What is a device does not depend on the current directories. -/
theorem Kernel.isDevice_cds (k : Kernel) (cds : List Cds) (s : Str) :
    ({ k with cds := cds } : Kernel).isDevice s = k.isDevice s := by
  have hm : ∀ froot name, ({ k with cds := cds } : Kernel).matchesName froot name =
      k.matchesName froot name := by
    intro froot name
    induction froot generalizing name with
    | nil => cases name <;> rfl
    | cons c froot ih =>
      cases name with
      | nil => rfl
      | cons n name =>
        rw [Kernel.matchesName, Kernel.matchesName, ih]
        rfl
  rw [Kernel.isDevice, Kernel.isDevice]
  simp only [hm]

/-- **On a local drive `truename` is canonical and idempotent**, if no drive is joined to a
directory of it, neither the name nor what comes of it is that of a device, and the upper-case map
makes characters of names of characters of names. -/
theorem truename_canonical {k : Kernel} {i : ℕ} {cds : Cds} (h : k.LocalDrive i cds)
    (hup : UpcaseOk k.upFChar) (front : UInt8) (mode : Mode) {src : Str}
    (hdrive : k.driveOf src = i)
    (hunc : ¬ (src.head? = some backslash ∧ src.tail.head? = some backslash))
    (hdev : k.isDevice src = none) (hok : 0 ≤ (k.truename front src mode).code) :
    let r := k.truename front src mode
    Canonical k.upFChar mode.allowWildcards (drNrToLetter i) r.path ∧
      (k.isDevice r.path = none →
        let r' := { k with cds := r.cds }.truename front r.path mode
        0 ≤ r'.code ∧ r'.path = r.path) := by
  have hne : src ≠ [] := by
    rintro rfl
    exact absurd hok (by simp [Kernel.truename, Kernel.begin, Kernel.fail, deFileNotFnd])
  obtain ⟨hmedia, hcds, comps, trailing, hpath, hlen, hroot, hw, hwild⟩ :=
    h.truename hup front mode hne hdrive hunc hdev hok
  dsimp only
  rw [hpath, hcds]
  have hback := k.upFChar_fixed
  have hcanon : Canonical k.upFChar mode.allowWildcards (drNrToLetter i)
      (spell [drNrToLetter i, colon] (comps.map (Component.upper hup)) trailing) := by
    refine ⟨comps.map (Component.upper hup), trailing, rfl, ?_, ?_, ?_, ?_⟩
    · intro hnil
      exact hroot (List.map_eq_nil_iff.1 hnil)
    · intro c hc x hx
      obtain ⟨d, -, rfl⟩ := List.mem_map.1 hc
      rw [d.bytes_upper hup hback.2] at hx
      obtain ⟨y, -, rfl⟩ := List.mem_map.1 hx
      exact hup.idem y
    · intro c hc
      rw [← List.map_dropLast] at hc
      obtain ⟨d, hd, rfl⟩ := List.mem_map.1 hc
      by_contra hne
      have := d.wild_upper hup (by simpa using hne)
      rw [hw d hd] at this
      cases this
    · intro c hc hcw
      obtain ⟨d, hd, rfl⟩ := List.mem_map.1 hc
      exact hwild d hd (d.wild_upper hup hcw)
  refine ⟨hcanon, fun hdev' => ?_⟩
  obtain ⟨cds', hk'⟩ := h.resetDir
  refine hk'.truename_fixed front mode hmedia hcanon ?_ ((k.isDevice_cds _ _).trans hdev')
  have hmap := map_spell hup hback.2 hback.1 [drNrToLetter i, colon] comps trailing
  rwa [← hmap, List.length_append, List.length_map, ← List.length_append, List.take_append_drop]

theorem localFat_small (k : Kernel) (hcds : k.cds.head? = smallKernel.cds.head?)
    (hq : ∀ s, k.qRemoteFn s = none) :
    k.LocalFat 0 (localCds [0x41, colon, backslash] (by decide) (by decide) (by decide)) where
  entry := by
    rw [← List.head?_eq_getElem?, hcds]
    rfl
  lt := by decide
  physdrv := rfl
  hasDpb := rfl
  netwdrv := rfl
  joined := rfl
  subst := rfl
  offset := rfl
  dir := ⟨[], true, rfl, fun c hc => (nomatch hc)⟩
  no_redirector := hq

/-- The map that changes only ASCII letters. -/
theorem upcaseOk_small : UpcaseOk smallKernel.upFChar := by
  refine ⟨?_, ?_, ?_⟩ <;> rintro ⟨⟨n⟩⟩ <;> revert n <;> decide +kernel

/-- The mode of `DosOpen`. -/
def openMode : Mode := ⟨false, true, false⟩

/-- The name `b` on the drive A:. -/
theorem small_name_canonical :
    Canonical smallKernel.upFChar false 0x41 (smallKernel.truename 0 [0x62] openMode).path ∧
      (smallKernel.isDevice (smallKernel.truename 0 [0x62] openMode).path = none →
        0 ≤ (smallKernel.truename 0 (smallKernel.truename 0 [0x62] openMode).path
          openMode).code ∧
        (smallKernel.truename 0 (smallKernel.truename 0 [0x62] openMode).path
          openMode).path = (smallKernel.truename 0 [0x62] openMode).path) :=
  truename_canonical (i := 0)
    { localFat_small smallKernel rfl fun _ => rfl with
      no_join := by decide +kernel }
    upcaseOk_small 0 openMode (by decide +kernel) (by decide) (by decide +kernel)
    (by decide +kernel)

/-! ## What the conditions are for -/

/-- The characters of a canonical path. -/
theorem Canonical.chars {up : UInt8 → UInt8} {allow : Bool} {letter : UInt8} {path : Str}
    (h : Canonical up allow letter path) {x : UInt8} (hx : x ∈ path.drop 2) :
    x = backslash ∨ x = dot ∨ Plain x := by
  obtain ⟨comps, trailing, rfl, -⟩ := h
  rw [spell_root] at hx
  rcases mem_spell hx with hb | ⟨c, -, hc⟩
  · exact .inl hb
  · exact .inr (c.mem_bytes hc).symm

/-- An upper-case map that makes a semicolon of a letter. -/
def semicolonKernel : Kernel := { smallKernel with upFTable := fun c => if c = 0x80 then 0x3b else c }

/-- The drive B: is joined to `A:\\J`. -/
def joinKernel : Kernel :=
  { smallKernel with
    cds := smallKernel.cds ++
      [{ localCds [0x41, colon, backslash, 0x4a] (by decide) (by decide) (by decide) with
          joined := true }]
    njoined := 1 }

/-- The name `\\DEV\\CON\\.`. -/
def hiddenDevice : Str := [backslash, 0x44, 0x45, 0x56, backslash, 0x43, 0x4f, 0x4e, backslash, dot]

/-- Without them, the result may have a character that `DirChar` rejects, be the name of a device
that the source hides behind a dot, or be on a drive that can be reached only by the path it is
joined to. -/
theorem truename_not_canonical :
    let cds := localCds [0x41, colon, backslash] (by decide) (by decide) (by decide)
    (semicolonKernel.LocalFat 0 cds ∧
      (∀ c, semicolonKernel.upFChar (semicolonKernel.upFChar c) = semicolonKernel.upFChar c) ∧
      semicolonKernel.isDevice [0x80] = none ∧
      (semicolonKernel.truename 0 [0x80] openMode).code = 0 ∧
      ¬ Canonical semicolonKernel.upFChar false 0x41
        (semicolonKernel.truename 0 [0x80] openMode).path) ∧
    (smallKernel.LocalFat 0 cds ∧ smallKernel.isDevice hiddenDevice = none ∧
      (smallKernel.truename 0 hiddenDevice openMode).code = 0 ∧
      (smallKernel.truename 0 (smallKernel.truename 0 hiddenDevice openMode).path openMode).path ≠
        (smallKernel.truename 0 hiddenDevice openMode).path) ∧
    (joinKernel.LocalFat 0 cds ∧ joinKernel.isDevice [backslash, 0x4a] = none ∧
      (joinKernel.truename 0 [backslash, 0x4a] openMode).code = 1 ∧
      (joinKernel.truename 0 (joinKernel.truename 0 [backslash, 0x4a] openMode).path
        openMode).code < 0) := by
  refine ⟨⟨localFat_small _ rfl fun _ => rfl, ?_, by decide +kernel, by decide +kernel, ?_⟩,
    ⟨localFat_small _ rfl fun _ => rfl, by decide +kernel, by decide +kernel, by decide +kernel⟩,
    ⟨localFat_small _ rfl fun _ => rfl, by decide +kernel, by decide +kernel, by decide +kernel⟩⟩
  · intro c
    simp only [Kernel.upFChar, upChar, semicolonKernel]
    grind
  · intro h
    have hmem : (0x3b : UInt8) ∈
        (semicolonKernel.truename 0 [0x80] openMode).path.drop 2 := by decide +kernel
    rcases h.chars hmem with hb | hd | hp
    · exact absurd hb (by decide)
    · exact absurd hd (by decide)
    · exact absurd hp.dirChar (by decide)

end Path
end BurdahDos
