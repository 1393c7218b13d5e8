import BurdahDos.Shell.Defs
import BurdahDos.Lib.CString
import Mathlib

/-!
# Searching for a program

`find_which` of `portal/lib/where.c`.  The name is parked at the end of the array `buf`, and the
entries of PATH are put in front of it one after the other.  `findWhich_order` says which names are
looked for, in which order, and that nothing outside of `buf` is accessed.

Whether a name is that of a plain file, and what its full path is, is asked of the system.
-/

set_option autoImplicit false

namespace BurdahDos
namespace Shell

open CString

/-! ## The search -/

/-- `MAXPATH` -/
def maxPath : ℕ := 260

/-- `sizeof buf` -/
def whichSize : ℕ := maxPath + 4

/-- A separator: a backslash, a slash or a colon. -/
def isSeparator (c : UInt8) : Bool := c == 92 || c == 47 || c == 58

/-- The suffixes of programs: `COM`, `EXE` and `BAT`. -/
def com : Str := [67, 79, 77]
def exe : Str := [69, 88, 69]
def bat : Str := [66, 65, 84]

/-- What `find_which` asks the system. -/
structure Programs where
  /-- `dfnstat(p) & DFN_FILE` -/
  plainFile : Str → Bool
  /-- `dfnfullpath` -/
  fullpath : Str → Option Str

/-- The array, and the names that have been looked for. -/
structure Probing where
  buf : Bytes
  probes : List Str

/-- The name at `p` is looked for. -/
def Probing.stat (sys : Programs) (p : ℕ) (x : Probing) : Option (Bool × Probing) :=
  (str x.buf p).map fun name => (sys.plainFile name, { x with probes := x.probes ++ [name] })

/-- The name at `p` is looked for with a suffix. -/
def Probing.statSuffix (sys : Programs) (p : ℕ) (suffix : Str) (x : Probing) :
    Option (Bool × Probing) :=
  (strcpy x.buf (whichSize - 4) suffix).bind fun b => { x with buf := b }.stat sys p

/-- The part of the loop that looks for files: with suffixes, or with the name as it stands. -/
def Probing.tryName (sys : Programs) (p : ℕ) (x : Probing) : Option (Bool × Probing) :=
  match x.buf[whichSize - 5]? with
  | none => none
  | some c =>
    if c = 46 then
      match x.statSuffix sys p com with
      | none => none
      | some (true, x) => some (true, x)
      | some (false, x) =>
        match x.statSuffix sys p exe with
        | none => none
        | some (true, x) => some (true, x)
        | some (false, x) => x.statSuffix sys p bat
    else x.stat sys p

/-- The check for an explicit suffix: from `p` down to the start of the name or of its last
component.  If there is none, a dot behind the name says that suffixes are to be used. -/
def checkSuffix (pname : ℕ) : ℕ → Bytes → Option Bytes
  | 0, _ => none
  | p + 1, b =>
    match b[p]? with
    | none => none
    | some c =>
      if c = 46 then some b
      else if p ≤ pname ∨ isSeparator c then store b (whichSize - 5) 46
      else checkSuffix pname p b

/-- `--p, *p = '\\'`, unless the entry has a separator at its end. -/
def addSeparator (pname : ℕ) (entry : Str) (b : Bytes) : Option (ℕ × Bytes) :=
  if (entry.getLast?.map isSeparator).getD false then some (pname, b)
  else if pname = 0 then none
  else (store b (pname - 1) 92).map (pname - 1, ·)

/-- The search for the next entry of PATH that fits in front of the name: where the name begins
then, and what follows the entry. -/
def nextEntry (pname : ℕ) : ℕ → Bytes → Str → Option (Option (ℕ × Bytes × Str))
  | 0, _, _ => none
  | fuel + 1, b, envptr =>
    match envptr.dropWhile (· == 59) with
    | [] => some none
    | env@(_ :: _) =>
      let entry := env.takeWhile (· != 59)
      match addSeparator pname entry b with
      | none => none
      | some (p, b) =>
        if entry.length > p then nextEntry pname fuel b (env.dropWhile (· != 59))
        else (write b (p - entry.length) entry).map fun b =>
          some (p - entry.length, b, env.dropWhile (· != 59))

/-- The loop of `find_which`: where the name of the file found begins. -/
def whichLoop (sys : Programs) (pname : ℕ) :
    ℕ → Probing → ℕ → Option Str → Option (Option ℕ × Probing)
  | 0, _, _, _ => none
  | fuel + 1, x, p, envptr =>
    match x.tryName sys p with
    | none => none
    | some (true, x) => some (some p, x)
    | some (false, x) =>
      match envptr with
      | none => some (none, x)
      | some env =>
        if pname = 0 then some (none, x)
        else
          match nextEntry pname (env.length + 1) x.buf env with
          | none => none
          | some none => some (none, x)
          | some (some (p, b, env)) => whichLoop sys pname fuel { x with buf := b } p (some env)

/-- Whether a name has a drive letter or is absolute. -/
def isRooted (name : Str) : Bool :=
  name[1]? == some 58 || name[0]? == some 92 || name[0]? == some 47

/-- The value of PATH that is used for the name at `pname`. -/
def usedPath (path : Option Str) (pname : ℕ) (b : Bytes) : Option (Option Str) :=
  match b[pname]?, b[pname + 1]? with
  | some c, some d => some (if d ≠ 58 ∧ c ≠ 92 ∧ c ≠ 47 then path else none)
  | _, _ => none

/-- `find_which`: what it returns, and the names that it looks for.  `b` is what is in `buf`
before. -/
def findWhich (sys : Programs) (path : Option Str) (b : Bytes) (name : Str) :
    Option (Option Str × List Str) :=
  if name.length > whichSize - 5 then some (none, [])
  else
    let pname := whichSize - 5 - name.length
    match (strcpy b pname name).bind (checkSuffix pname (whichSize - 5)) with
    | none => none
    | some b =>
      match usedPath path pname b with
      | none => none
      | some envptr =>
        match whichLoop sys pname ((path.getD []).length + 1) ⟨b, []⟩ pname envptr with
        | none => none
        | some (none, x) => some (none, x.probes)
        | some (some p, x) => (str x.buf p).map fun s => (sys.fullpath s, x.probes)

/-! ## The names that should be looked for -/

/-- The last component of a name. -/
def lastComponent (name : Str) : Str := (name.reverse.takeWhile (!isSeparator ·)).reverse

/-- A name as it stands if its last component has a dot, or else with each of the suffixes. -/
def spellings (name : Str) : List Str :=
  if 46 ∈ lastComponent name then [name] else [com, exe, bat].map (name ++ 46 :: ·)

/-- The entries of a value of PATH. -/
def pathEntries (path : Str) : List Str := (path.splitOn 59).filter (· ≠ [])

/-- An entry and a name, with a separator between them. -/
def joinEntry (name entry : Str) : Str :=
  entry ++ (if (entry.getLast?.map isSeparator).getD false then name else 92 :: name)

/-- The name itself and, unless it is rooted, the name behind each of the entries that fit. -/
def candidates (path : Option Str) (name : Str) : List Str :=
  name :: if isRooted name then [] else
    ((pathEntries (path.getD [])).map (joinEntry name)).filter (·.length < maxPath)

/-- The names up to the first one that is found, that one included. -/
def tried (sys : Programs) (names : List Str) : List Str :=
  names.takeWhile (!sys.plainFile ·) ++ (names.find? sys.plainFile).toList

/-- The full path of the first of the names that is found, and the names looked for until then. -/
def outcome (sys : Programs) (names : List Str) : Option Str × List Str :=
  ((names.find? sys.plainFile).bind sys.fullpath, tried sys names)

/-! ## Entries of PATH -/

variable {sys : Programs} {b : Bytes} {name s : Str} {flag : UInt8}

theorem tried_append_none {l l' : List Str} (h : l.find? sys.plainFile = none) :
    tried sys (l ++ l') = l ++ tried sys l' := by
  rw [List.find?_eq_none] at h
  rw [tried, tried, List.takeWhile_append_of_pos, List.find?_append, List.find?_eq_none.mpr h,
    Option.none_or, List.append_assoc]
  intro a ha
  rw [Bool.not_eq_true', ← Bool.not_eq_true]
  exact h a ha

theorem tried_append_some {l l' : List Str} {a : Str} (h : l.find? sys.plainFile = some a) :
    tried sys (l ++ l') = tried sys l := by
  have hne : ¬ ∀ x ∈ l, (!sys.plainFile x) = true := by
    intro hall
    have ha := hall a (List.mem_of_find?_eq_some h)
    rw [List.find?_some h] at ha
    cases ha
  rw [tried, tried, List.takeWhile_append, List.find?_append, h, Option.some_or, if_neg]
  intro hlen
  refine hne (List.takeWhile_eq_self_iff.mp ?_)
  exact (List.takeWhile_prefix _).eq_of_length hlen

theorem tried_none {l : List Str} (h : l.find? sys.plainFile = none) : tried sys l = l := by
  rw [← List.append_nil l, tried_append_none h]
  rfl

theorem pathEntries_cons_semicolon (env : Str) : pathEntries (59 :: env) = pathEntries env := by
  rw [pathEntries, ← List.nil_append (59 :: env),
    List.splitOn_append_cons_self_of_not_mem List.not_mem_nil]
  exact List.filter_cons_of_neg (by simp)

theorem pathEntries_dropWhile (env : Str) :
    pathEntries (env.dropWhile (· == 59)) = pathEntries env := by
  induction env with
  | nil => rfl
  | cons c env ih =>
    by_cases hc : c = 59
    · rw [List.dropWhile_cons_of_pos (by simpa using hc), ih, hc, pathEntries_cons_semicolon]
    · rw [List.dropWhile_cons_of_neg (by simpa using hc)]

/-- The first entry, and the others. -/
theorem pathEntries_first {c : UInt8} (env : Str) (hc : c ≠ 59) :
    pathEntries (c :: env) = (c :: env).takeWhile (· != 59) ::
      pathEntries ((c :: env).dropWhile (· != 59)) := by
  have hentry : (59 : UInt8) ∉ (c :: env).takeWhile (· != 59) := by
    intro hmem
    simpa using List.mem_takeWhile_imp hmem
  have hne : (c :: env).takeWhile (· != 59) ≠ [] := by
    rw [List.takeWhile_cons_of_pos (by simpa using hc)]
    exact List.cons_ne_nil _ _
  conv_lhs => rw [← List.takeWhile_append_dropWhile (p := (· != 59)) (l := c :: env)]
  cases hrest : (c :: env).dropWhile (· != 59) with
  | nil =>
    rw [List.append_nil, pathEntries, List.splitOn_eq_singleton hentry, List.filter_cons_of_pos
      (by simpa using hne)]
    rfl
  | cons d rest =>
    have hd : d = 59 := by
      have hhead := List.head_dropWhile_not (· != 59) (l := c :: env)
        (by rw [hrest]; exact List.cons_ne_nil _ _)
      simpa [hrest] using hhead
    rw [hd, pathEntries, List.splitOn_append_cons_self_of_not_mem hentry,
      List.filter_cons_of_pos (by simpa using hne), pathEntries_cons_semicolon]
    rfl

/-! ## The name in the array -/

/-- The name `s` is at the end of the array, with the flag behind it that tells whether suffixes are
used. -/
def Parked (b : Bytes) (flag : UInt8) (s : Str) : Prop :=
  ∃ pre post, b = pre ++ (s ++ flag :: post) ∧ pre.length + s.length = whichSize - 5 ∧
    post.length = 4 ∧ 0 ∉ s

/-- The position of a name that is at the end of the array. -/
def parkedAt (s : Str) : ℕ := whichSize - 5 - s.length

theorem Parked.get_flag (h : Parked b flag s) : b[whichSize - 5]? = some flag := by
  obtain ⟨pre, post, rfl, hlen, -, -⟩ := h
  rw [← hlen, ← List.append_assoc, ← List.length_append, List.getElem?_append_right (Nat.le_refl _),
    Nat.sub_self]
  rfl

theorem Parked.holds (h : Parked b 0 s) : Holds b (parkedAt s) s := by
  obtain ⟨pre, post, rfl, hlen, -, hs⟩ := h
  rw [parkedAt, ← hlen, Nat.add_sub_cancel]
  exact holds_append pre post hs

/-- What is in front of a name counts as the array. -/
theorem Parked.of_append {u : Str} (h : Parked b flag (u ++ s)) : Parked b flag s := by
  obtain ⟨pre, post, rfl, hlen, hpost, hs⟩ := h
  refine ⟨pre ++ u, post, ?_, ?_, hpost, fun hmem => hs (List.mem_append_right u hmem)⟩
  · rw [List.append_assoc, List.append_assoc]
  · rw [List.length_append] at hlen ⊢
    omega

/-- The names that are looked for, depending on the flag. -/
def spelled (flag : UInt8) (s : Str) : List Str :=
  if flag = 46 then [com, exe, bat].map (s ++ 46 :: ·) else [s]

theorem Parked.statSuffix (sys : Programs) (h : Parked b 46 s) (suffix : Str)
    (hlen : suffix.length = 3) (hnul : 0 ∉ suffix) (probes : List Str) :
    ∃ b', Parked b' 46 s ∧ Holds b' (parkedAt s) (s ++ 46 :: suffix) ∧
      Probing.statSuffix sys (parkedAt s) suffix ⟨b, probes⟩ =
        some (sys.plainFile (s ++ 46 :: suffix), ⟨b', probes ++ [s ++ 46 :: suffix]⟩) := by
  obtain ⟨pre, post, rfl, hpre, hpost, hs⟩ := h
  have hplace : parkedAt s = pre.length := by rw [parkedAt]; omega
  have hwrite : strcpy (pre ++ (s ++ 46 :: post)) (whichSize - 4) suffix =
      some (pre ++ (s ++ 46 :: (suffix ++ [0]))) := by
    have hw := @write_append (suffix ++ [0]) (pre ++ (s ++ [46])) post []
      (by rw [List.length_append, hlen, hpost]; rfl)
    rw [List.append_nil, List.append_nil] at hw
    have hlength : (pre ++ (s ++ [46])).length = whichSize - 4 := by
      rw [← List.append_assoc, List.length_append, List.length_append, hpre]
      rfl
    rw [strcpy, ← hlength]
    simpa only [List.append_assoc, List.singleton_append] using hw
  have hholds : Holds (pre ++ (s ++ 46 :: (suffix ++ [0]))) (parkedAt s) (s ++ 46 :: suffix) := by
    have hname : 0 ∉ s ++ 46 :: suffix := by
      rw [List.mem_append, List.mem_cons]
      rintro (h | h | h)
      · exact hs h
      · cases h
      · exact hnul h
    have hh := holds_append pre [] hname
    rw [hplace]
    simpa only [List.append_assoc, List.cons_append] using hh
  refine ⟨_, ⟨pre, suffix ++ [0], rfl, hpre, by rw [List.length_append, hlen]; rfl, hs⟩, hholds, ?_⟩
  rw [Probing.statSuffix, hwrite, Option.bind_some, Probing.stat, hholds.str]
  rfl

/-- The name at the end of the array is looked for in all its spellings, up to the first one
found. -/
theorem Parked.tryName (sys : Programs) (h : Parked b flag s) (hflag : flag = 46 ∨ flag = 0)
    (probes : List Str) :
    ∃ b', Parked b' flag s ∧
      Probing.tryName sys (parkedAt s) ⟨b, probes⟩ =
        some (((spelled flag s).find? sys.plainFile).isSome,
          ⟨b', probes ++ tried sys (spelled flag s)⟩) ∧
      ∀ n, (spelled flag s).find? sys.plainFile = some n → Holds b' (parkedAt s) n := by
  rcases hflag with rfl | rfl
  · rw [Probing.tryName, h.get_flag]
    dsimp only
    rw [if_pos rfl, spelled, if_pos rfl, tried, List.map_cons, List.map_cons, List.map_cons,
      List.map_nil]
    obtain ⟨b₁, h₁, hholds₁, hstat₁⟩ := h.statSuffix sys com rfl (by decide) probes
    rw [hstat₁]
    cases hcom : sys.plainFile (s ++ 46 :: com) with
    | true =>
      refine ⟨b₁, h₁, by simp [hcom], fun n hn => ?_⟩
      rw [List.find?_cons_of_pos hcom, Option.some.injEq] at hn
      exact hn ▸ hholds₁
    | false =>
      obtain ⟨b₂, h₂, hholds₂, hstat₂⟩ := h₁.statSuffix sys exe rfl (by decide)
        (probes ++ [s ++ 46 :: com])
      dsimp only
      rw [hstat₂, List.find?_cons_of_neg (by simp [hcom])]
      cases hexe : sys.plainFile (s ++ 46 :: exe) with
      | true =>
        refine ⟨b₂, h₂, by simp [hcom, hexe], fun n hn => ?_⟩
        rw [List.find?_cons_of_pos hexe, Option.some.injEq] at hn
        exact hn ▸ hholds₂
      | false =>
        obtain ⟨b₃, h₃, hholds₃, hstat₃⟩ := h₂.statSuffix sys bat rfl (by decide)
          (probes ++ [s ++ 46 :: com] ++ [s ++ 46 :: exe])
        dsimp only
        rw [hstat₃, List.find?_cons_of_neg (by simp [hexe])]
        refine ⟨b₃, h₃, ?_, fun n hn => ?_⟩
        · cases hbat : sys.plainFile (s ++ 46 :: bat) <;> simp [hcom, hexe, hbat]
        · rw [List.mem_singleton.mp (List.mem_of_find?_eq_some hn)]
          exact hholds₃
  · rw [Probing.tryName, h.get_flag]
    dsimp only
    rw [if_neg (by decide), spelled, if_neg (by decide), Probing.stat, h.holds.str, tried]
    refine ⟨b, h, ?_, fun n hn => ?_⟩
    · cases hs : sys.plainFile s <;> simp [hs]
    · rw [List.mem_singleton.mp (List.mem_of_find?_eq_some hn)]
      exact h.holds

/-! ## The next entry -/

/-- The names that the entries of PATH make, of those that fit. -/
def fitting (name env : Str) : List Str :=
  ((pathEntries env).map (joinEntry name)).filter (·.length < maxPath)

theorem fitting_cons (name : Str) {env env' entry : Str}
    (h : pathEntries env = entry :: pathEntries env') :
    fitting name env = if (joinEntry name entry).length < maxPath then
      joinEntry name entry :: fitting name env' else fitting name env' := by
  rw [fitting, h, List.map_cons, List.filter_cons, fitting]
  simp only [decide_eq_true_eq]

/-- An entry is put in front of the name, if it fits. -/
theorem addSeparator_spec (h : Parked b flag name) (hlen : name.length < whichSize - 5)
    (entry : Str) (hnul : 0 ∉ entry) :
    ∃ p b', addSeparator (parkedAt name) entry b = some (p, b') ∧ Parked b' flag name ∧
      (entry.length ≤ p ↔ (joinEntry name entry).length < maxPath) ∧
      (entry.length ≤ p → p - entry.length = parkedAt (joinEntry name entry) ∧
        ∃ b'', write b' (p - entry.length) entry = some b'' ∧
          Parked b'' flag (joinEntry name entry)) := by
  obtain ⟨pre, post, rfl, hpre, hpost, hs⟩ := h
  have hsize : whichSize = 264 := rfl
  have hmax : maxPath = 260 := rfl
  have hplace : parkedAt name = pre.length := by rw [parkedAt]; omega
  -- `q` is what is in front of the name, with the separator if one has been added
  suffices hput : ∀ sep : Str, joinEntry name entry = entry ++ (sep ++ name) → 0 ∉ sep →
      ∀ front : Bytes, front.length + sep.length = pre.length →
      (entry.length ≤ front.length ↔ (joinEntry name entry).length < maxPath) ∧
      (entry.length ≤ front.length → front.length - entry.length = parkedAt (joinEntry name entry) ∧
        ∃ b'', write (front ++ (sep ++ (name ++ flag :: post))) (front.length - entry.length) entry =
          some b'' ∧ Parked b'' flag (joinEntry name entry)) by
    rw [addSeparator]
    by_cases hsep : (entry.getLast?.map isSeparator).getD false = true
    · rw [if_pos hsep, hplace]
      refine ⟨_, _, rfl, ⟨pre, post, rfl, hpre, hpost, hs⟩, ?_⟩
      exact hput [] (by rw [joinEntry, if_pos hsep]; rfl) List.not_mem_nil pre rfl
    · rw [if_neg hsep, hplace, if_neg (by omega)]
      obtain ⟨front, c, rfl⟩ : ∃ front c, pre = front ++ [c] := by
        refine ⟨pre.dropLast, pre.getLast (by rintro rfl; simp at hpre; omega), ?_⟩
        rw [List.dropLast_append_getLast]
      have hw := @write_append [92] front [c] (name ++ flag :: post) rfl
      rw [store, List.append_assoc, List.length_append, List.length_singleton, Nat.add_sub_cancel, hw]
      refine ⟨_, _, rfl, ⟨front ++ [92], post, by rw [List.append_assoc], ?_, hpost, hs⟩, ?_⟩
      · rw [← hpre, List.length_append, List.length_append]
        rfl
      · exact hput [92] (by rw [joinEntry, if_neg hsep]; rfl) (by decide) front
          (by rw [List.length_append]; rfl)
  intro sep hjoin hsep front hfront
  rw [parkedAt, hjoin, List.length_append, List.length_append]
  refine ⟨by omega, fun hle => ⟨by omega, ?_⟩⟩
  have hsplit : front = front.take (front.length - entry.length) ++
      front.drop (front.length - entry.length) := (List.take_append_drop _ _).symm
  have hw := @write_append entry (front.take (front.length - entry.length))
    (front.drop (front.length - entry.length)) (sep ++ (name ++ flag :: post))
    (by rw [List.length_drop]; omega)
  rw [List.length_take, Nat.min_eq_left (Nat.sub_le _ _), ← List.append_assoc, ← hsplit] at hw
  refine ⟨_, hw, front.take (front.length - entry.length), post, ?_, ?_, hpost, ?_⟩
  · simp only [List.append_assoc]
  · simp only [List.length_append, List.length_take]
    omega
  · rw [List.mem_append, List.mem_append]
    rintro (hmem | hmem | hmem)
    · exact hnul hmem
    · exact hsep hmem
    · exact hs hmem

theorem joinEntry_append (name entry : Str) : ∃ u, joinEntry name entry = u ++ name := by
  rw [joinEntry]
  split
  · exact ⟨entry, rfl⟩
  · exact ⟨entry ++ [92], by simp⟩

/-- What the search for the next entry ends with. -/
def Next (flag : UInt8) (name env : Str) : Option (ℕ × Bytes × Str) → Prop
  | none => fitting name env = []
  | some (p, b, env') => ∃ entry, fitting name env = joinEntry name entry :: fitting name env' ∧
      p = parkedAt (joinEntry name entry) ∧ Parked b flag (joinEntry name entry) ∧
      env'.length < env.length ∧ 0 ∉ env'

theorem nextEntry_spec (hlen : name.length < whichSize - 5) :
    ∀ (fuel : ℕ) {b : Bytes} {env : Str}, Parked b flag name → 0 ∉ env → env.length < fuel →
      ∃ r, nextEntry (parkedAt name) fuel b env = some r ∧ Next flag name env r
  | 0, _, _, _, _, hfuel => absurd hfuel (Nat.not_lt_zero _)
  | fuel + 1, b, env, h, hnul, hfuel => by
    have hfit : fitting name (env.dropWhile (· == 59)) = fitting name env := by
      rw [fitting, pathEntries_dropWhile, fitting]
    have hsuffix := List.dropWhile_suffix (l := env) (· == 59)
    rw [nextEntry]
    cases henv : env.dropWhile (· == 59) with
    | nil => exact ⟨none, rfl, by rw [Next, ← hfit, henv]; rfl⟩
    | cons c rest =>
      rw [henv] at hfit hsuffix
      have hc : c ≠ 59 := by
        have hhead := List.head_dropWhile_not (· == 59) (l := env)
          (by rw [henv]; exact List.cons_ne_nil _ _)
        simpa [henv] using hhead
      have hmem : ∀ x ∈ c :: rest, x ∈ env := fun x hx => hsuffix.subset hx
      have hentries := pathEntries_first rest hc
      have hrest : ((c :: rest).dropWhile (· != 59)).length < env.length := by
        have hle := (List.dropWhile_suffix (l := rest) (· != 59)).length_le
        have hlt := hsuffix.length_le
        rw [List.dropWhile_cons_of_pos (by simpa using hc)]
        rw [List.length_cons] at hlt
        omega
      have hnul' : 0 ∉ (c :: rest).dropWhile (· != 59) :=
        fun hx => hnul (hmem 0 ((List.dropWhile_suffix _).subset hx))
      obtain ⟨p, b₁, hadd, hb₁, hle, hwrite⟩ := addSeparator_spec h hlen
        ((c :: rest).takeWhile (· != 59))
        fun hx => hnul (hmem 0 ((List.takeWhile_prefix _).subset hx))
      dsimp only
      rw [hadd]
      dsimp only
      have hfit' := fitting_cons name hentries
      by_cases hfits : ((c :: rest).takeWhile (· != 59)).length ≤ p
      · obtain ⟨hp, b₂, hw, hb₂⟩ := hwrite hfits
        rw [if_neg (Nat.not_lt.mpr hfits), hw]
        rw [if_pos (hle.mp hfits)] at hfit'
        exact ⟨_, rfl, _, hfit.symm.trans hfit', hp, hb₂, hrest, hnul'⟩
      · rw [if_pos (Nat.not_le.mp hfits)]
        rw [if_neg fun hlt => hfits (hle.mpr hlt)] at hfit'
        obtain ⟨r, hr, hnext⟩ := nextEntry_spec hlen fuel hb₁ hnul' (by omega)
        refine ⟨r, hr, ?_⟩
        rw [hfit] at hfit'
        match r, hnext with
        | none, hnext => exact hfit'.trans hnext
        | some (p', b', env'), ⟨entry, hcons, hp', hb', hlt, hn⟩ =>
          exact ⟨entry, hfit'.trans hcons, hp', hb', by omega, hn⟩

/-! ## The loop -/

/-- The names that the value of PATH makes. -/
def followers (name : Str) : Option Str → List Str
  | none => []
  | some env => fitting name env

/-- What the loop ends with, if these are the names to look for. -/
def Found (sys : Programs) (names : List Str) (r : Option ℕ) (b : Bytes) : Prop :=
  match names.find? sys.plainFile with
  | none => r = none
  | some n => ∃ p, r = some p ∧ Holds b p n

theorem fitting_long (h : whichSize - 5 ≤ name.length) (env : Str) : fitting name env = [] := by
  rw [fitting, List.filter_eq_nil_iff]
  intro s hs
  obtain ⟨entry, hentry, rfl⟩ := List.mem_map.mp hs
  have hne : entry ≠ [] := by simpa using (List.mem_filter.mp hentry).2
  have hpos := List.length_pos_of_ne_nil hne
  have hsize : whichSize = 264 := rfl
  have hmax : maxPath = 260 := rfl
  rw [joinEntry, decide_eq_true_eq, List.length_append]
  split
  · omega
  · rw [List.length_cons]
    omega

theorem found_append_none {l l' : List Str} {r : Option ℕ} (h : l.find? sys.plainFile = none)
    (hfound : Found sys l' r b) : Found sys (l ++ l') r b := by
  rw [Found, List.find?_append, h, Option.none_or]
  exact hfound

theorem whichLoop_spec (sys : Programs) (name : Str) (hflag : flag = 46 ∨ flag = 0) :
    ∀ (fuel : ℕ) {b : Bytes} (probes : List Str) {u : Str} (envptr : Option Str),
      Parked b flag (u ++ name) → (∀ env ∈ envptr, 0 ∉ env) → (envptr.getD []).length < fuel →
      ∃ r b', whichLoop sys (parkedAt name) fuel ⟨b, probes⟩ (parkedAt (u ++ name)) envptr =
        some (r, ⟨b', probes ++
          tried sys (((u ++ name) :: followers name envptr).flatMap (spelled flag))⟩) ∧
        Found sys (((u ++ name) :: followers name envptr).flatMap (spelled flag)) r b'
  | 0, _, _, _, _, _, _, hfuel => absurd hfuel (Nat.not_lt_zero _)
  | fuel + 1, b, probes, u, envptr, h, hnul, hfuel => by
    obtain ⟨b₁, h₁, htry, hholds⟩ := h.tryName sys hflag probes
    rw [whichLoop, htry, List.flatMap_cons]
    cases hfind : (spelled flag (u ++ name)).find? sys.plainFile with
    | some n =>
      refine ⟨some (parkedAt (u ++ name)), b₁, by rw [tried_append_some hfind]; rfl, ?_⟩
      rw [Found, List.find?_append, hfind, Option.some_or]
      exact ⟨_, rfl, hholds n hfind⟩
    | none =>
      rw [tried_append_none hfind, tried_none hfind]
      dsimp only [Option.isSome_none]
      have hlast : followers name envptr = [] → ∃ b',
          some ((none : Option ℕ), (⟨b₁, probes ++ spelled flag (u ++ name)⟩ : Probing)) =
            some (none, ⟨b', probes ++ (spelled flag (u ++ name) ++
              tried sys ((followers name envptr).flatMap (spelled flag)))⟩) ∧
          Found sys (spelled flag (u ++ name) ++ (followers name envptr).flatMap (spelled flag)) none b' := by
        intro hnil
        rw [hnil]
        exact ⟨b₁, by simp [tried], found_append_none hfind rfl⟩
      cases envptr with
      | none => exact ⟨none, hlast rfl⟩
      | some env =>
        dsimp only
        by_cases hplace : parkedAt name = 0
        · rw [if_pos hplace]
          exact ⟨none, hlast (fitting_long (Nat.le_of_sub_eq_zero hplace) env)⟩
        · rw [if_neg hplace]
          obtain ⟨r, hr, hnext⟩ := nextEntry_spec (Nat.lt_of_sub_ne_zero hplace) (env.length + 1)
            h₁.of_append (hnul env rfl) (Nat.lt_succ_self _)
          rw [hr]
          match r, hnext with
          | none, hnext => exact ⟨none, hlast hnext⟩
          | some (p, b₂, env'), ⟨entry, hcons, hp, hb₂, hlt, hnul'⟩ =>
            obtain ⟨v, hv⟩ := joinEntry_append name entry
            rw [hv] at hcons hp hb₂
            obtain ⟨r, b', hloop, hfound⟩ := whichLoop_spec sys name hflag fuel
              (probes ++ spelled flag (u ++ name)) (some env') hb₂
              (fun e he => by rw [← Option.some.inj he]; exact hnul')
              (by have hle : env.length < fuel + 1 := hfuel
                  change env'.length < fuel
                  omega)
            refine ⟨r, b', ?_, ?_⟩
            · rw [followers, hcons, hp, ← List.append_assoc]
              exact hloop
            · rw [followers, hcons]
              exact found_append_none hfind hfound

/-! ## The suffix of the name -/

theorem lastComponent_concat (s : Str) (c : UInt8) :
    lastComponent (s ++ [c]) = if isSeparator c then [] else lastComponent s ++ [c] := by
  rw [lastComponent, List.reverse_concat, List.takeWhile_cons]
  cases isSeparator c with
  | true => rfl
  | false => simp [lastComponent]

/-- A name behind a separator has the last component of the name. -/
theorem lastComponent_append (u s : Str) (hu : ∃ v c, u = v ++ [c] ∧ isSeparator c = true) :
    lastComponent (u ++ s) = lastComponent s := by
  obtain ⟨v, c, rfl, hc⟩ := hu
  induction s using List.reverseRecOn with
  | nil => rw [List.append_nil, lastComponent_concat, if_pos hc]; rfl
  | append_singleton s d ih => rw [← List.append_assoc, lastComponent_concat, lastComponent_concat, ih]

/-- The part of the array that is the name up to some character is looked through from its end. -/
theorem checkSuffix_spec {pname : ℕ} (s : Str) : ∀ {b : Bytes} {t : Str}, s ≠ [] →
    Holds b pname (s ++ t) →
    checkSuffix pname (pname + s.length) b =
      if 46 ∈ lastComponent s then some b else store b (whichSize - 5) 46 := by
  induction s using List.reverseRecOn with
  | nil => exact fun hne _ => absurd rfl hne
  | append_singleton s c ih =>
    intro b t _ h
    have hget : b[pname + s.length]? = some c := by
      rw [h.get (by simp only [List.length_append]; omega)]
      simp
    rw [List.length_append, List.length_singleton, ← Nat.add_assoc, checkSuffix, hget,
      lastComponent_concat]
    dsimp only
    by_cases hdot : c = 46
    · subst hdot
      rw [if_pos rfl, if_pos]
      rw [if_neg (by decide)]
      exact List.mem_append_right _ List.mem_cons_self
    · rw [if_neg hdot]
      by_cases hsep : isSeparator c = true
      · rw [if_pos (Or.inr hsep), if_pos hsep, if_neg List.not_mem_nil]
      · rw [if_neg hsep]
        have hmem : 46 ∈ lastComponent s ++ [c] ↔ 46 ∈ lastComponent s := by
          rw [List.mem_append, List.mem_singleton]
          exact or_iff_left fun heq => hdot heq.symm
        rw [if_congr hmem rfl rfl]
        by_cases hs : s = []
        · rw [hs, if_pos (Or.inl (show pname + ([] : Str).length ≤ pname from Nat.le_refl _))]
          rfl
        · have hpos := List.length_pos_of_ne_nil hs
          rw [if_neg (by rintro (hle | hle) <;> [omega; exact hsep hle])]
          exact ih hs (t := c :: t) (by simpa using h)

theorem Parked.get (h : Parked b flag s) {j : ℕ} (hj : j ≤ s.length) :
    b[parkedAt s + j]? = (s ++ [flag])[j]? := by
  obtain ⟨pre, post, rfl, hlen, -, -⟩ := h
  rw [show parkedAt s = pre.length by rw [parkedAt]; omega,
    List.getElem?_append_right (Nat.le_add_right _ _), Nat.add_sub_cancel_left,
    ← List.singleton_append, ← List.append_assoc, List.getElem?_append_left]
  rw [List.length_append, List.length_singleton]
  omega

/-- The name is copied to the end of the array, and the flag set. -/
theorem parked_name (hb : b.length = whichSize) (hname : name ≠ []) (hnul : 0 ∉ name)
    (hlen : name.length ≤ whichSize - 5) :
    ∃ flag b', (strcpy b (parkedAt name) name).bind (checkSuffix (parkedAt name) (whichSize - 5)) =
      some b' ∧ Parked b' flag name ∧
      (46 ∉ lastComponent name ∧ flag = 46 ∨ 46 ∈ lastComponent name ∧ flag = 0) := by
  have hsize : whichSize = 264 := rfl
  have hplace : parkedAt name + name.length = whichSize - 5 := Nat.sub_add_cancel hlen
  obtain ⟨b₁, hb₁⟩ := Option.isSome_iff_exists.mp
    (strcpy_isSome.mpr (show parkedAt name + name.length < b.length by omega))
  have hpre : (b.take (parkedAt name)).length = parkedAt name := by
    rw [List.length_take]
    omega
  have hpost : (b.drop (parkedAt name + (name ++ [0]).length)).length = 4 := by
    rw [List.length_drop, List.length_append, List.length_singleton]
    omega
  have heq : b₁ = b.take (parkedAt name) ++
      (name ++ 0 :: b.drop (parkedAt name + (name ++ [0]).length)) := by
    rw [eq_of_write hb₁, List.append_assoc, List.append_assoc, List.singleton_append]
  have hparked : Parked b₁ 0 name := ⟨_, _, heq, by rw [hpre, hplace], hpost, hnul⟩
  have hcheck := checkSuffix_spec name (t := []) hname (by rw [List.append_nil]; exact hparked.holds)
  rw [hplace] at hcheck
  rw [hb₁, Option.bind_some, hcheck]
  by_cases hdot : 46 ∈ lastComponent name
  · exact ⟨0, b₁, if_pos hdot, hparked, Or.inr ⟨hdot, rfl⟩⟩
  · refine ⟨46, _, ?_, ⟨b.take (parkedAt name), b.drop (parkedAt name + (name ++ [0]).length), rfl,
      by rw [hpre, hplace], hpost, hnul⟩, Or.inl ⟨hdot, rfl⟩⟩
    have hw := @write_append [46] (b.take (parkedAt name) ++ name) [0]
      (b.drop (parkedAt name + (name ++ [0]).length)) rfl
    rw [show (b.take (parkedAt name) ++ name).length = whichSize - 5 by
      rw [List.length_append, hpre, hplace]] at hw
    rw [if_neg hdot, store, heq]
    simpa only [List.append_assoc, List.singleton_append] using hw

theorem usedPath_spec (path : Option Str) (h : Parked b flag name) (hflag : flag = 46 ∨ flag = 0)
    (hname : name ≠ []) :
    usedPath path (parkedAt name) b = some (if isRooted name then none else path) := by
  have hpos := List.length_pos_of_ne_nil hname
  rw [usedPath, show b[parkedAt name]? = (name ++ [flag])[0]? from h.get (Nat.zero_le _), h.get hpos]
  have hne : flag ≠ 58 := by rcases hflag with rfl | rfl <;> decide
  match name, hname with
  | [c], _ =>
    simp only [isRooted, List.cons_append, List.getElem?_cons_zero, List.getElem?_cons_succ]
    by_cases hc : c = 92 <;> by_cases hc' : c = 47 <;> simp [hne, hc, hc']
  | c :: d :: rest, _ =>
    simp only [isRooted, List.cons_append, List.getElem?_cons_zero, List.getElem?_cons_succ]
    by_cases hd : d = 58 <;> by_cases hc : c = 92 <;> by_cases hc' : c = 47 <;> simp [hd, hc, hc']

theorem followers_eq (path : Option Str) (name : Str) :
    followers name (if isRooted name then none else path) =
      if isRooted name then [] else fitting name (path.getD []) := by
  split
  · rfl
  · cases path <;> rfl

/-- All the names have the last component of the name. -/
theorem spelled_eq (path : Option Str) (name : Str)
    (hflag : 46 ∉ lastComponent name ∧ flag = 46 ∨ 46 ∈ lastComponent name ∧ flag = 0) :
    (candidates path name).flatMap (spelled flag) = (candidates path name).flatMap spellings := by
  refine List.flatMap_congr fun s hs => ?_
  have hlast : lastComponent s = lastComponent name := by
    rcases List.mem_cons.mp hs with rfl | hs
    · rfl
    · split at hs
      · exact absurd hs List.not_mem_nil
      · obtain ⟨entry, hentry, rfl⟩ := List.mem_map.mp (List.mem_filter.mp hs).1
        rw [joinEntry]
        split
        · rename_i hsep
          refine lastComponent_append _ _ ?_
          cases hlast : entry.getLast? with
          | none => rw [hlast] at hsep; cases hsep
          | some c =>
            rw [hlast] at hsep
            exact ⟨entry.dropLast, c, (List.dropLast_append_getLast? c hlast).symm, hsep⟩
        · rw [← List.singleton_append, ← List.append_assoc]
          exact lastComponent_append _ _ ⟨entry, 92, rfl, rfl⟩
  rw [spelled, spellings, hlast]
  rcases hflag with ⟨hdot, rfl⟩ | ⟨hdot, rfl⟩
  · rw [if_pos rfl, if_neg hdot]
  · rw [if_neg (by decide), if_pos hdot]

/-- **The names that `find_which` looks for**: the name itself and, unless it is rooted, the name
behind each entry of PATH that fits, each as it stands or with the three suffixes; the first one
that is a plain file is found.  A name that does not fit itself is not looked for. -/
theorem findWhich_order (sys : Programs) (path : Option Str) (b : Bytes) (name : Str)
    (hb : b.length = whichSize) (hname : name ≠ []) (hnul : 0 ∉ name)
    (hpath : ∀ env ∈ path, 0 ∉ env) :
    findWhich sys path b name = some (if name.length < maxPath then
      outcome sys ((candidates path name).flatMap spellings) else (none, [])) := by
  have hsize : whichSize = 264 := rfl
  have hmax : maxPath = 260 := rfl
  rw [findWhich]
  by_cases hlen : name.length < maxPath
  · rw [if_neg (by omega), if_pos hlen]
    obtain ⟨flag, b₁, hbind, hparked, hflag⟩ := parked_name hb hname hnul (by omega)
    rw [← parkedAt]
    dsimp only
    rw [hbind]
    have hflag' : flag = 46 ∨ flag = 0 := hflag.imp And.right And.right
    dsimp only
    rw [usedPath_spec path hparked hflag' hname]
    dsimp only
    obtain ⟨r, b₂, hloop, hfound⟩ := @whichLoop_spec _ sys name hflag'
      ((path.getD []).length + 1) _ [] [] (if isRooted name then none else path) hparked
      (fun env henv => by
        split at henv
        · cases henv
        · exact hpath env henv)
      (by split
          · exact Nat.succ_pos _
          · exact Nat.lt_succ_self _)
    rw [List.nil_append, followers_eq] at hfound hloop
    rw [List.nil_append] at hloop
    have hnames : (name :: if isRooted name then [] else fitting name (path.getD [])) =
        candidates path name := rfl
    rw [hnames, spelled_eq path name hflag] at hfound hloop
    rw [hloop, outcome]
    rw [Found] at hfound
    split at hfound
    · rename_i hnone
      rw [hfound, hnone]
      rfl
    · rename_i n hsome
      obtain ⟨p, rfl, hholds⟩ := hfound
      dsimp only
      rw [hholds.str, hsome]
      rfl
  · rw [if_pos (by omega), if_neg hlen]

/-- The files `A.EXE`, behind a PATH of one directory. -/
theorem findWhich_order_exe :
    (List.replicate 264 (0 : UInt8)).length = whichSize ∧
    findWhich ⟨(· == [68, 92, 65, 46, 69, 88, 69]), some⟩ (some [68]) (List.replicate 264 0) [65] =
      some (some [68, 92, 65, 46, 69, 88, 69],
        [[65, 46, 67, 79, 77], [65, 46, 69, 88, 69], [65, 46, 66, 65, 84],
          [68, 92, 65, 46, 67, 79, 77], [68, 92, 65, 46, 69, 88, 69]]) := by
  refine ⟨List.length_replicate, (findWhich_order _ _ _ _ List.length_replicate (by decide) (by decide)
    (fun env henv => ?_)).trans ?_⟩
  · rw [← Option.some.inj henv]
    decide
  · decide

/-- A name of 260 characters is not looked for. -/
theorem long_name_not_tried :
    findWhich ⟨fun _ => true, some⟩ none (List.replicate 264 0) (List.replicate 260 65) ≠
      some (outcome ⟨fun _ => true, some⟩ ((candidates none (List.replicate 260 65)).flatMap spellings)) := by
  rw [findWhich, if_pos (by rw [List.length_replicate]; decide)]
  decide +kernel

end Shell
end BurdahDos
