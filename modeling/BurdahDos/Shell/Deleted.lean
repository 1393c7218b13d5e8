import BurdahDos.Lib.Journal
import BurdahDos.Shell.Del
import Mathlib

/-!
# What DEL deletes

* `Full` says that the pattern of an argument matches every name, and `Asked` that DEL asks for such
  an argument if it comes to it.
* `Safe` says that every event of a journal is fine: what is stored is inside of `fullname`, and a
  file that is deleted matches its argument and stands behind the prompts that it should.
* `deleteArg_extends` says what an argument adds to the journal.
* `cmdDel_iff` is the main result: DEL is safe exactly if `Asked`.
-/

set_option autoImplicit false

namespace BurdahDos
namespace Shell
namespace Del

open BurdahDos.Path (Str backslash dot star quest)

/-! ## Arguments -/

/-- The pattern of a path matches every name. -/
def Full (n : Names) (fullname : Str) : Prop :=
  isDevice n fullname = false ∧
    ∃ pat, pattern n fullname = some pat ∧ ∀ name, Dir.fcmpWild pat name = true

/-- The absolute path of an argument, if it is not too long. -/
def pathOf (n : Names) (args : List Str) (i : ℕ) : Option Str :=
  (args[i]?.bind n.abspath).filter fun path => path.length < maxPath

/-- DEL can come to an argument. -/
def Reached (n : Names) (args : List Str) (i : ℕ) : Prop :=
  (∀ j < i, (pathOf n args j).isSome) ∧ ∀ j < i, args[j + 1]? ≠ some []

/-- DEL asks for each argument that matches every name. -/
def Asked (n : Names) (args : List Str) : Prop :=
  ∀ i path, Reached n args i → pathOf n args i = some path → Full n (complete n path) →
    asks (lastName (complete n path)) = true

/-! ## What should happen -/

/-- A file that an argument asks to be deleted. -/
def OfArg (n : Names) (w : World) (args : List Str) (before : List Event) (i : ℕ) (file : Str) :
    Prop :=
  ∃ path pat h e, pathOf n args i = some path ∧ pattern n (complete n path) = some pat ∧
    h <+: before ∧ e ∈ w.entries h (dirOf (complete n path)) ∧ Dir.fcmpWild pat e.name = true ∧
    file = dirOf (complete n path) ++ Dir.convertName83ToNameSZ e.name

/-- The user has said yes to the prompt for each argument that matches every name, up to this. -/
def Confirmed (n : Names) (args : List Str) (before : List Event) (i : ℕ) : Prop :=
  ∀ j ≤ i, ∀ path, pathOf n args j = some path → Full n (complete n path) →
    ∃ dir, .prompt j dir 1 ∈ before

/-- An event that may follow others. -/
def Fine (n : Names) (w : World) (args : List Str) (before : List Event) : Event → Prop
  | .store p k => 0 ≤ p ∧ p + k ≤ fullnameSize
  | .prompt _ _ _ => True
  | .unlink i file ok => ok = true → OfArg n w args before i file ∧ Confirmed n args before i

/-- All that happens may happen. -/
def Safe (n : Names) (w : World) (args : List Str) : Prop :=
  ∀ before e after, cmdDel n w args = before ++ e :: after → Fine n w args before e

/-! ## The parts of a path -/

theorem dirOf_append_lastName (fullname : Str) :
    dirOf fullname ++ lastName fullname = fullname := by
  rw [dirOf, lastName, ← List.reverse_append, List.takeWhile_append_dropWhile, List.reverse_reverse]

theorem dirOf_ne_nil {fullname : Str} (h : backslash ∈ fullname) : dirOf fullname ≠ [] := by
  intro hd
  rw [dirOf, List.reverse_eq_nil_iff, List.dropWhile_eq_nil_iff] at hd
  simpa using hd backslash (List.mem_reverse.2 h)

theorem length_dirOf_le (fullname : Str) : (dirOf fullname).length ≤ fullname.length := by
  have h := congrArg List.length (dirOf_append_lastName fullname)
  rw [List.length_append] at h
  omega

theorem isPrefix_complete (n : Names) (path : Str) : path <+: complete n path := by
  have ha : ∀ s, s <+: addAll s := by
    intro s
    rw [addAll]
    split
    · exact List.prefix_append _ _
    · exact List.prefix_refl s
  refine List.IsPrefix.trans ?_ (ha (addBackslash n path))
  rw [addBackslash]
  split
  · exact List.prefix_append _ _
  · exact List.prefix_refl path

theorem length_addBackslash_le (n : Names) (path : Str) :
    (addBackslash n path).length ≤ path.length + 1 := by
  rw [addBackslash]
  split
  · rw [List.length_append, List.length_singleton]
  · omega

theorem length_complete_le (n : Names) (path : Str) :
    (complete n path).length ≤ path.length + 4 := by
  have hb := length_addBackslash_le n path
  rw [complete, addAll]
  split
  · rw [List.length_append]
    simp only [List.length_cons, List.length_nil]
    omega
  · omega

theorem length_convertName83ToNameSZ_le (name : File.Name) :
    (Dir.convertName83ToNameSZ name).length ≤ 12 := by
  have hb := (List.rdropWhile_prefix (· == Dir.blank) (l := name.toList.take 8)).length_le
  have he := (List.rdropWhile_prefix (· == Dir.blank) (l := name.toList.drop 8)).length_le
  rw [List.length_take, Vector.length_toList] at hb
  rw [List.length_drop, Vector.length_toList] at he
  rw [Dir.convertName83ToNameSZ, List.length_append]
  split
  · rw [List.length_nil]
    omega
  · rw [List.length_cons]
    omega

/-- A name that is found fits. -/
theorem length_find_le {n : Names} {w : World} {h : List Event} {fullname : Str}
    {f : Str × Bool} (hf : f ∈ find n w h fullname) : f.1.length ≤ 12 := by
  rw [find] at hf
  split at hf
  · cases hf
  · split at hf
    · rw [List.mem_singleton.1 hf]
      exact length_convertName83ToNameSZ_le _
    · obtain ⟨e, _, rfl⟩ := List.mem_map.1 hf
      exact length_convertName83ToNameSZ_le _

/-! ## What an argument adds to the journal -/

section Extend

variable {P : List Event → Event → Prop}

theorem deleteLoop_extends (w : World) (arg : ℕ) (dir : Str) (fs : List (Str × Bool))
    (h : List Event)
    (hstore : ∀ f ∈ fs, ∀ h', P h' (.store dir.length (f.1.length + 1)))
    (hunlink : ∀ f ∈ fs, ∀ h' ok, h <+: h' → (ok = true → f.2 = true) →
      P h' (.unlink arg (dir ++ f.1) ok)) :
    Extends P h (deleteLoop w arg dir fs h).1 := by
  induction fs generalizing h with
  | nil => exact .refl
  | cons f fs ih =>
    have hs : Extends P h (h ++ [.store dir.length (f.1.length + 1)]) :=
      .snoc .refl (hstore f List.mem_cons_self h)
    rw [deleteLoop]
    split
    · exact hs
    · have hu := hs.snoc (hunlink f List.mem_cons_self _
        (f.2 && w.unlinks (h ++ [.store dir.length (f.1.length + 1)]) (dir ++ f.1)) hs.isPrefix
        fun hok => (Bool.and_eq_true_iff.1 hok).1)
      exact hu.trans (ih _ (fun f hf => hstore f (List.mem_cons_of_mem _ hf)) fun f hf h' ok hp =>
        hunlink f (List.mem_cons_of_mem _ hf) h' ok (List.IsPrefix.trans hu.isPrefix hp))

theorem fill_extends (n : Names) {path : Str} (hl : path.length < maxPath) (h : List Event)
    (hstore : ∀ h' (p : ℤ) (k : ℕ), 0 ≤ p → p + k ≤ fullnameSize → P h' (.store p k)) :
    Extends P h (fill n path h) := by
  have hb := length_addBackslash_le n path
  unfold maxPath at hl
  unfold fullnameSize maxPath ffNameSize at hstore
  have h1 : Extends P h (h ++ [.store 0 (path.length + 1)]) :=
    .snoc .refl (hstore h _ _ (by omega) (by omega))
  have h2 : Extends P h (if addBackslash n path = path then h ++ [.store 0 (path.length + 1)]
      else h ++ [.store 0 (path.length + 1)] ++ [.store path.length 1]) := by
    split
    · exact h1
    · exact h1.snoc (hstore _ _ _ (by omega) (by omega))
  rw [fill]
  split
  · exact h2
  · exact h2.snoc (hstore _ _ _ (by omega) (by omega))

theorem prompt_extends (w : World) (arg : ℕ) {dir : Str} (hd : dir ≠ []) (hl : dir.length ≤ 263)
    (h : List Event)
    (hstore : ∀ h' (p : ℤ) (k : ℕ), 0 ≤ p → p + k ≤ fullnameSize → P h' (.store p k))
    (hprompt : ∀ h' r, P h' (.prompt arg dir.dropLast r)) :
    Extends P h (prompt w arg dir h).1 := by
  have hpos := List.length_pos_iff.2 hd
  have hs : ∀ h', P h' (.store (dir.length - 1) 1) := fun h' =>
    hstore h' _ _ (by omega) (by unfold fullnameSize maxPath ffNameSize; omega)
  exact .snoc (.snoc (.snoc .refl (hs _)) (hprompt _ _)) (hs _)

/-- The answer yes is in the journal. -/
theorem prompt_mem {w : World} {arg : ℕ} {dir : Str} {h : List Event}
    (hr : (prompt w arg dir h).2 = true) :
    .prompt arg dir.dropLast 1 ∈ (prompt w arg dir h).1 := by
  rw [prompt, beq_iff_eq] at hr
  simp [prompt, hr]

/-- **An argument adds stores, its prompt, and the deletion of what it finds**, with a yes in front
of that if it asks. -/
theorem deleteArg_extends (n : Names) (w : World) (arg : ℕ) (s : Str) (h : List Event)
    (hstore : ∀ h' (p : ℤ) (k : ℕ), 0 ≤ p → p + k ≤ fullnameSize → P h' (.store p k))
    (hprompt : ∀ h' dir r, P h' (.prompt arg dir r))
    (hunlink : ∀ path, n.abspath s = some path → path.length < maxPath → ∀ h₀ h', h <+: h₀ →
      h₀ <+: h' → (asks (lastName (complete n path)) = true → ∃ dir, .prompt arg dir 1 ∈ h₀) →
      ∀ f ∈ find n w h₀ (complete n path), ∀ ok, (ok = true → f.2 = true) →
      P h' (.unlink arg (dirOf (complete n path) ++ f.1) ok)) :
    Extends P h (deleteArg n w arg s h).1 := by
  rw [deleteArg]
  split
  · exact .refl
  · rename_i path hpath
    split
    · exact .refl
    · rename_i hlong
      have hl : path.length < maxPath := Nat.lt_of_not_le hlong
      have hc := length_complete_le n path
      have hdl := length_dirOf_le (complete n path)
      have hmem : backslash ∈ complete n path :=
        (isPrefix_complete n path).subset (n.abspath_backslash s path hpath)
      have hd := dirOf_ne_nil hmem
      have hd263 : (dirOf (complete n path)).length ≤ 263 := by
        unfold maxPath at hl
        omega
      have hfill := fill_extends n hl h hstore
      simp only
      -- the journal in front of the search
      obtain ⟨r, hr⟩ : ∃ r, (if asks (lastName (complete n path)) = true then
          prompt w arg (dirOf (complete n path)) (fill n path h) else (fill n path h, true)) = r :=
        ⟨_, rfl⟩
      have hask : Extends P h r.1 := by
        rw [← hr]
        split
        · exact hfill.trans (prompt_extends w arg hd hd263 _ hstore fun h' r => hprompt h' _ r)
        · exact hfill
      rw [hr]
      split
      · exact hask
      · rename_i hyes
        rw [Bool.not_eq_true', Bool.not_eq_false] at hyes
        refine hask.trans (deleteLoop_extends w arg _ _ _ ?_ ?_)
        · intro f hf h'
          have hlen := length_find_le hf
          refine hstore h' _ _ (by omega) ?_
          unfold fullnameSize maxPath ffNameSize
          omega
        · intro f hf h' ok hp hok
          refine hunlink path hpath hl _ h' hask.isPrefix hp ?_ f hf ok hok
          intro ha
          rw [if_pos ha] at hr
          rw [← hr] at hyes ⊢
          exact ⟨_, prompt_mem hyes⟩

end Extend

/-- An argument after which it goes on has a path, and the user has said yes if it asks. -/
theorem deleteArg_true {n : Names} {w : World} {arg : ℕ} {s : Str} {h : List Event}
    (hr : (deleteArg n w arg s h).2 = true) :
    ∃ path, n.abspath s = some path ∧ path.length < maxPath ∧
      (asks (lastName (complete n path)) = true →
        ∃ dir, .prompt arg dir 1 ∈ (deleteArg n w arg s h).1) := by
  rw [deleteArg] at hr ⊢
  split at hr
  · cases hr
  · rename_i path hpath
    split at hr
    · cases hr
    · rename_i hlong
      refine ⟨path, hpath, Nat.lt_of_not_le hlong, fun ha => ?_⟩
      simp only [if_neg hlong, if_pos ha] at hr ⊢
      by_cases hyes : (prompt w arg (dirOf (complete n path)) (fill n path h)).2 = true
      · have hmem := prompt_mem hyes
        rw [hyes, if_neg (by decide)]
        have hext : Extends (fun _ _ => True) _ _ := deleteLoop_extends w arg
          (dirOf (complete n path)) (find n w (prompt w arg (dirOf (complete n path))
            (fill n path h)).1 (complete n path)) (prompt w arg (dirOf (complete n path))
            (fill n path h)).1 (fun _ _ _ => trivial) fun _ _ _ _ _ _ => trivial
        exact ⟨_, hext.subset hmem⟩
      · rw [Bool.not_eq_true] at hyes
        rw [hyes, if_pos (by decide)] at hr
        cases hr

/-! ## All arguments -/

theorem pathOf_eq {n : Names} {done rest : List Str} {s path : Str} (hp : n.abspath s = some path)
    (hl : path.length < maxPath) : pathOf n (done ++ s :: rest) done.length = some path := by
  rw [pathOf, List.getElem?_append_right (Nat.le_refl _), Nat.sub_self, List.getElem?_cons_zero,
    Option.bind_some, hp, Option.filter_some, if_pos (decide_eq_true hl)]

/-- The file that an argument deletes is one that it asks for. -/
theorem ofArg_of_find {n : Names} {w : World} {args : List Str} {h₀ h' : List Event} {i : ℕ}
    {path : Str} (hp : pathOf n args i = some path) (hh : h₀ <+: h') {f : Str × Bool}
    (hf : f ∈ find n w h₀ (complete n path)) (hfile : f.2 = true) :
    OfArg n w args h' i (dirOf (complete n path) ++ f.1) := by
  rw [find] at hf
  split at hf
  · cases hf
  · rename_i pat hpat
    split at hf
    · rw [List.mem_singleton.1 hf] at hfile
      cases hfile
    · obtain ⟨e, he, rfl⟩ := List.mem_map.1 hf
      obtain ⟨hmem, hwanted⟩ := List.mem_filter.1 he
      simp only [Dir.wanted, Bool.and_eq_true] at hwanted
      exact ⟨path, pat, h₀, e, hp, hpat, hh, hmem, hwanted.1.2, rfl⟩

/-- **What happens for the arguments is fine**, when DEL asks for those that match every name. -/
theorem deleteArgs_extends (n : Names) (w : World) {all : List Str} (ha : Asked n all)
    (rest : List Str) : ∀ (done : List Str) (h : List Event), all = done ++ rest →
      (rest ≠ [] → Reached n all done.length) →
      (∀ j < done.length, ∀ path, pathOf n all j = some path → Full n (complete n path) →
        ∃ dir, .prompt j dir 1 ∈ h) →
      Extends (Fine n w all) h (deleteArgs n w done.length rest h) := by
  induction rest with
  | nil => exact fun _ _ _ _ _ => .refl
  | cons s rest ih =>
    intro done h hall hreach hconf
    have hreach := hreach (List.cons_ne_nil s rest)
    have harg : Extends (Fine n w all) h (deleteArg n w done.length s h).1 := by
      refine deleteArg_extends n w _ s h (fun _ _ _ h0 hk => ⟨h0, hk⟩) (fun _ _ _ => trivial) ?_
      intro path hpath hl h₀ h' hh hh' hask f hf ok hok hok'
      have hp : pathOf n all done.length = some path := hall ▸ pathOf_eq hpath hl
      refine ⟨ofArg_of_find hp hh' hf (hok hok'), ?_⟩
      intro j hj path' hp' hfull
      rcases Nat.lt_or_eq_of_le hj with hj | rfl
      · obtain ⟨dir, hd⟩ := hconf j hj path' hp' hfull
        exact ⟨dir, hh'.subset (hh.subset hd)⟩
      · obtain rfl := Option.some.inj (hp.symm.trans hp')
        obtain ⟨dir, hd⟩ := hask (ha _ path hreach hp hfull)
        exact ⟨dir, hh'.subset hd⟩
    rw [deleteArgs]
    split
    · exact harg
    · rename_i hgo
      rw [Bool.or_eq_true, not_or, Bool.not_eq_true', Bool.not_eq_false, beq_iff_eq] at hgo
      obtain ⟨path, hpath, hl, hask⟩ := deleteArg_true hgo.1
      have hp : pathOf n all done.length = some path := hall ▸ pathOf_eq hpath hl
      have hi := ih (done ++ [s]) (deleteArg n w done.length s h).1 (by simpa using hall)
      rw [List.length_append, List.length_singleton] at hi
      refine harg.trans (hi ?_ ?_)
      · intro hne
        refine ⟨fun j hj => ?_, fun j hj => ?_⟩
        · rcases Nat.lt_succ_iff_lt_or_eq.1 hj with hj | rfl
          · exact hreach.1 j hj
          · rw [hp]
            rfl
        · rcases Nat.lt_succ_iff_lt_or_eq.1 hj with hj | rfl
          · exact hreach.2 j hj
          · rw [hall, List.getElem?_append_right (by omega),
              show done.length + 1 - done.length = 1 by omega, List.getElem?_cons_succ,
              ← List.head?_eq_getElem?]
            exact hgo.2
      · intro j hj path' hp' hfull
        rcases Nat.lt_succ_iff_lt_or_eq.1 hj with hj | rfl
        · obtain ⟨dir, hd⟩ := hconf j hj path' hp' hfull
          exact ⟨dir, harg.subset hd⟩
        · obtain rfl := Option.some.inj (hp.symm.trans hp')
          exact hask (ha _ path hreach hp hfull)

/-- **DEL is safe**, when it asks for each argument that matches every name. -/
theorem safe_of_asked {n : Names} {args : List Str} (ha : Asked n args) (w : World) :
    Safe n w args := by
  intro before e after he
  have hext := deleteArgs_extends n w ha args [] [] rfl
    (fun _ => ⟨fun _ hj => absurd hj (Nat.not_lt_zero _),
      fun _ hj => absurd hj (Nat.not_lt_zero _)⟩)
    fun _ hj => absurd hj (Nat.not_lt_zero _)
  exact hext.mem he

/-! ## An argument for which DEL does not ask -/

/-- A file in every directory. -/
def someFile : File.Dirent where
  name := (Vector.replicate 11 Dir.blank).setIfInBounds 0 0x41
  attrib := faArch
  case := 0
  crtimems := 0
  crtime := 0
  crdate := 0
  accdate := 0
  startHigh := 0
  time := 0
  date := 0
  start := 0
  size := 0

/-- A user who always says yes, and files that can be deleted. -/
def plainWorld : World := ⟨fun _ _ => [someFile], fun _ => 1, fun _ => false, fun _ _ => true⟩

theorem deleteArgs_isPrefix (n : Names) (w : World) (arg : ℕ) (args : List Str) (h : List Event) :
    h <+: deleteArgs n w arg args h := by
  induction args generalizing arg h with
  | nil => exact List.prefix_refl h
  | cons s args ih =>
    have harg : Extends (fun _ _ => True) h (deleteArg n w arg s h).1 :=
      deleteArg_extends n w arg s h (fun _ _ _ _ _ => trivial) (fun _ _ _ => trivial)
        fun _ _ _ _ _ _ _ _ _ _ _ _ => trivial
    rw [deleteArgs]
    split
    · exact harg.isPrefix
    · exact List.IsPrefix.trans harg.isPrefix (ih _ _)

theorem deleteArg_isPrefix (n : Names) (w : World) (arg : ℕ) (s : Str) (args : List Str)
    (h : List Event) : (deleteArg n w arg s h).1 <+: deleteArgs n w arg (s :: args) h := by
  rw [deleteArgs]
  split
  · exact List.prefix_refl _
  · exact deleteArgs_isPrefix n w _ args _

theorem deleteLoop_plain (arg : ℕ) (dir : Str) (fs : List (Str × Bool)) (h : List Event) :
    (deleteLoop plainWorld arg dir fs h).2 = true := by
  induction fs generalizing h with
  | nil => rfl
  | cons f fs ih => exact ih _

theorem deleteArg_plain {n : Names} {s path : Str} (hp : n.abspath s = some path)
    (hl : path.length < maxPath) (arg : ℕ) (h : List Event) :
    (deleteArg n plainWorld arg s h).2 = true := by
  have hyes : ∀ dir h, (prompt plainWorld arg dir h).2 = true := fun _ _ => rfl
  simp only [deleteArg, hp, if_neg (Nat.not_le.2 hl)]
  by_cases ha : asks (lastName (complete n path)) = true
  · rw [if_pos ha, hyes, if_neg (by decide)]
    exact deleteLoop_plain _ _ _ _
  · rw [if_neg ha, if_neg (by simp)]
    exact deleteLoop_plain _ _ _ _

theorem pathOf_some {n : Names} {args : List Str} {i : ℕ} {path : Str}
    (h : pathOf n args i = some path) :
    ∃ s, args.drop i = s :: args.drop (i + 1) ∧ n.abspath s = some path ∧
      path.length < maxPath := by
  rw [pathOf, Option.filter_eq_some_iff, Option.bind_eq_some_iff] at h
  obtain ⟨⟨s, hs, hp⟩, hl⟩ := h
  obtain ⟨hi, rfl⟩ := List.getElem?_eq_some_iff.1 hs
  exact ⟨_, List.drop_eq_getElem_cons hi, hp, of_decide_eq_true hl⟩

/-- It comes to an argument that can be reached, with prompts for those in front of it only. -/
theorem cmdDel_reaches {n : Names} {args : List Str} (i : ℕ) (hr : Reached n args i) :
    ∃ h, (∀ k dir r, .prompt k dir r ∈ h → k < i) ∧
      cmdDel n plainWorld args = deleteArgs n plainWorld i (args.drop i) h := by
  induction i with
  | zero => exact ⟨[], fun _ _ _ hm => absurd hm List.not_mem_nil, rfl⟩
  | succ i ih =>
    obtain ⟨h, hprompt, heq⟩ := ih ⟨fun j hj => hr.1 j (Nat.lt_succ_of_lt hj),
      fun j hj => hr.2 j (Nat.lt_succ_of_lt hj)⟩
    obtain ⟨path, hpath⟩ := Option.isSome_iff_exists.1 (hr.1 i (Nat.lt_succ_self i))
    obtain ⟨s, hdrop, hp, hl⟩ := pathOf_some hpath
    have hext : Extends (fun _ e => ∀ k dir r, e = .prompt k dir r → k = i) h
        (deleteArg n plainWorld i s h).1 := by
      refine deleteArg_extends n plainWorld i s h ?_ ?_ ?_
      · intro _ _ _ _ _ k dir r he
        cases he
      · intro _ dir' r' k dir r he
        cases he
        rfl
      · intro _ _ _ _ _ _ _ _ _ _ _ _ k dir r he
        cases he
    refine ⟨(deleteArg n plainWorld i s h).1, ?_, ?_⟩
    · intro k dir r hm
      rcases hext.mem_or hm with hm | ⟨_, hp⟩
      · exact Nat.lt_succ_of_lt (hprompt k dir r hm)
      · exact Nat.lt_succ_of_le (hp k dir r rfl).le
    · have hne : (args.drop (i + 1)).head? ≠ some [] := by
        rw [List.head?_drop]
        exact hr.2 i (Nat.lt_succ_self i)
      rw [heq, hdrop, deleteArgs, deleteArg_plain hp hl, if_neg]
      simpa using hne

theorem find_full {n : Names} {fullname : Str} (hf : Full n fullname) (h : List Event) :
    find n plainWorld h fullname = [(Dir.convertName83ToNameSZ someFile.name, true)] := by
  obtain ⟨hdev, pat, hpat, hall⟩ := hf
  have hwanted : Dir.wanted ⟨0, pat, faArch, 0, 0⟩ someFile = true := by
    rw [Dir.wanted, hall someFile.name]
    simp only
    decide
  have hfound : found plainWorld h (dirOf fullname) pat = [someFile] :=
    List.filter_cons_of_pos hwanted
  simp only [find, hpat, hdev, hfound]
  rfl

/-- **It deletes a file without asking**, when it does not ask for a pattern that matches every
name. -/
theorem asked_of_safe {n : Names} {args : List Str} (hs : ∀ w, Safe n w args) : Asked n args := by
  intro i path hr hpath hfull
  by_contra hask
  obtain ⟨h, hprompt, heq⟩ := cmdDel_reaches i hr
  obtain ⟨s, hdrop, hp, hl⟩ := pathOf_some hpath
  have harg : (deleteArg n plainWorld i s h).1 = fill n path h
      ++ [.store (dirOf (complete n path)).length
        ((Dir.convertName83ToNameSZ someFile.name).length + 1)]
      ++ [.unlink i (dirOf (complete n path) ++ Dir.convertName83ToNameSZ someFile.name) true] := by
    simp only [deleteArg, hp, if_neg (Nat.not_le.2 hl), if_neg hask, find_full hfull]
    rfl
  obtain ⟨after, hafter⟩ := deleteArg_isPrefix n plainWorld i s (args.drop (i + 1)) h
  rw [← hdrop, ← heq, harg, List.append_assoc _ [Event.unlink _ _ _] after,
    List.singleton_append] at hafter
  obtain ⟨_, hconf⟩ := hs plainWorld _ _ after hafter.symm rfl
  obtain ⟨dir, hd⟩ := hconf i (Nat.le_refl i) path hpath hfull
  -- there is no prompt for it
  have hfill : Extends (fun _ e => ∀ k dir r, e ≠ .prompt k dir r) h (fill n path h
      ++ [.store (dirOf (complete n path)).length
        ((Dir.convertName83ToNameSZ someFile.name).length + 1)]) :=
    .snoc (fill_extends n hl h fun _ _ _ _ _ _ _ _ he => by cases he) fun _ _ _ he => by cases he
  rcases hfill.mem_or hd with hd | ⟨_, hne⟩
  · exact absurd (hprompt i dir 1 hd) (Nat.lt_irrefl i)
  · exact hne i dir 1 rfl

/-- **DEL asks when it should, and deletes what it should**, exactly if it asks for each argument
that matches every name. -/
theorem cmdDel_iff (n : Names) (args : List Str) : (∀ w, Safe n w args) ↔ Asked n args :=
  ⟨asked_of_safe, safe_of_asked⟩

/-! ### Question marks -/

/-- Names in the root directory of a drive. -/
def rootNames : Names where
  abspath s := some ([0x43, 0x3a, backslash] ++ s)
  abspath_backslash s path h := by
    rw [← Option.some.inj h]
    simp
  isDir path := path == [0x43, 0x3a, backslash]
  up c := c
  device _ := false

/-- `*.???` -/
def questExt : Str := [star, dot, quest, quest, quest]

theorem full_questExt : Full rootNames ([0x43, 0x3a, backslash] ++ questExt) := by
  refine ⟨rfl, Vector.replicate 11 quest, by decide, fun name => ?_⟩
  simp [Dir.fcmpWild]

/-- `DEL *.???` deletes every file without asking. -/
theorem cmdDel_questExt :
    (∃ path, pathOf rootNames [questExt] 0 = some path ∧ Full rootNames (complete rootNames path)) ∧
      cmdDel rootNames plainWorld [questExt]
        = [.store 0 9, .store 3 2, .unlink 0 [0x43, 0x3a, backslash, 0x41] true] ∧
      ¬Safe rootNames plainWorld [questExt] := by
  have hpath : pathOf rootNames [questExt] 0 = some ([0x43, 0x3a, backslash] ++ questExt) := by
    decide
  have hrun : cmdDel rootNames plainWorld [questExt]
      = [.store 0 9, .store 3 2, .unlink 0 [0x43, 0x3a, backslash, 0x41] true] := by
    decide
  refine ⟨⟨_, hpath, full_questExt⟩, hrun, fun hs => ?_⟩
  obtain ⟨_, hconf⟩ := hs [.store 0 9, .store 3 2] _ [] hrun rfl
  obtain ⟨dir, hd⟩ := hconf 0 (Nat.le_refl 0) _ hpath full_questExt
  simp at hd

end Del
end Shell
end BurdahDos
