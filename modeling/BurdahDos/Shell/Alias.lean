import BurdahDos.Shell.Read
import Mathlib

/-!
# Expansion of aliases

`aliasexpand` of `portal/shell/expalias.c`, with `env_findVar` on the alias context.

The expansion of a line ends, by `expandLoop_ends`: every turn takes an alias that has not been
taken yet. What it leaves is the line rewritten at its first word, by `Expands`.  The offsets of
the aliases taken are kept in a block of one byte for each (`realloc(expanded, ++numExpanded)`),
and so the first of them is already stored past its end: `aliasexpand_kept_iff`.
-/

set_option autoImplicit false

namespace BurdahDos
namespace Shell

/-! ## Characters of a name -/

/-- What DOS says about the characters of file names: `nlsBuf` and `toFUpper`. -/
structure Nls where
  inclFirst : UInt8
  inclLast : UInt8
  exclFirst : UInt8
  exclLast : UInt8
  illegalChars : List UInt8
  toFUpper : UInt8 → UInt8

/-- `is_fnchar` -/
def Nls.isFnchar (nls : Nls) (c : UInt8) : Bool :=
  !(c < nls.inclFirst || c > nls.inclLast || (nls.exclFirst ≤ c && c ≤ nls.exclLast)
    || nls.illegalChars.contains c)

/-- A character of the name of a command: `is_fnchar(*cp) || *cp == '.'`. -/
def Nls.inName (nls : Nls) (c : UInt8) : Bool := nls.isFnchar c || c == 46

/-- `StrFUpr` -/
def Nls.strFUpr (nls : Nls) (s : Str) : Str := (s.map nls.toFUpper).takeWhile (· != 0)

/-- `is_pathdelim` -/
def isPathdelim (c : UInt8) : Bool := c == 92 || c == 58

/-- `is_quote` -/
def isQuote (c : UInt8) : Bool := c == 34

/-! ## The alias context -/

/-- `ctxtAlias`: strings of the form `NAME=value`, each with a NUL behind it, and an empty one at
the end. -/
structure Aliases where
  strings : List Str
  ne_nil : [] ∉ strings
  nul : ∀ e ∈ strings, 0 ∉ e

/-- `env_findVar`, from an offset on. -/
def envFindVar : List Str → Str → ℕ → Option ℕ
  | [], _, _ => none
  | e :: es, var, offset =>
    if e = [] then none
    else if (e.drop var.length).head? = some 61 ∧ e.take var.length = var then some offset
    else envFindVar es var (offset + (e.length + 1))

/-- The string that starts at an offset. -/
def strFrom : List Str → ℕ → Str
  | [], _ => []
  | e :: es, ofs => if ofs ≤ e.length then e.drop ofs else strFrom es (ofs - (e.length + 1))

/-! ## The loop -/

/-- Bytes stored from a position on, in a block of this size. -/
structure Store where
  size : ℕ
  at' : ℕ
  len : ℕ
deriving DecidableEq

/-- The bytes are in the block. -/
def Store.Inside (st : Store) : Prop := st.at' + st.len ≤ st.size

instance (st : Store) : Decidable st.Inside := inferInstanceAs (Decidable (_ ≤ _))

/-- The variables of `aliasexpand`. -/
structure Expansion where
  cmd : Str
  expanded : List ℕ
  /-- The answers of `realloc`. -/
  reallocs : List Bool
  /-- What has been stored up to here. -/
  stores : List Store
deriving DecidableEq

def Expansion.store (x : Expansion) (st : List Store) : Expansion := { x with stores := x.stores ++ st }

/-- How an expansion ends. -/
inductive Ending where
  | noMemory
  | star
  | noAlias
  /-- The alias has been taken already. -/
  | used
  | tooLong
deriving DecidableEq

/-- A turn of the loop: it goes to `redo` or to `errRet`. -/
inductive AliasTurn where
  | redo (x : Expansion)
  | errRet (ending : Ending) (x : Expansion)

/-- The alias at this offset is put in front of the rest of the line, where there is room for it. -/
def prepend (strings : List Str) (maxlen ofs : ℕ) (cp : Str) (x : Expansion) : AliasTurn :=
  let value := strFrom strings ofs
  -- the difference of `int` and `size_t`
  if value.length < (maxlen + 2 ^ 16 - cp.length) % 2 ^ 16 then
    .redo { x.store [⟨maxlen, 0, value.length + 1⟩, ⟨maxlen, value.length, cp.length + 1⟩,
      ⟨maxlen, 0, (value ++ cp).length + 1⟩] with cmd := value ++ cp }
  else .errRet .tooLong x

/-- The offset of an alias is recorded, and the line is expanded. -/
def record (strings : List Str) (maxlen ofs : ℕ) (hbuf cp : Str) (x : Expansion) : AliasTurn :=
  if ofs ∈ x.expanded then .errRet .used x
  else
    let numExpanded := x.expanded.length + 1
    let r := ask true x.reallocs
    let x := { x with reallocs := r.2 }
    if !r.1 then .errRet .noMemory x
    else
      -- `realloc(expanded, ++numExpanded)`, for entries of two bytes
      prepend strings maxlen (ofs + (hbuf.length + 1)) cp
        { x.store [⟨numExpanded, 2 * (numExpanded - 1), 2⟩] with expanded := x.expanded ++ [ofs] }

/-- The turn, once the white space in front of the line is skipped. -/
def aliasWord (nls : Nls) (strings : List Str) (maxlen : ℕ) (cp : Str) (x : Expansion) : AliasTurn :=
  let name := cp.takeWhile nls.inName
  let rest := cp.dropWhile nls.inName
  if name = [] ∨ rest.head?.any (fun c => isPathdelim c || isQuote c) then
    .errRet .noAlias (x.store [⟨maxlen, 0, name.length⟩])
  else
    let x := x.store [⟨maxlen, 0, name.length + 1⟩]
    let hbuf := nls.strFUpr name
    match envFindVar strings hbuf 0 with
    | none => .errRet .noAlias x
    | some ofs => record strings maxlen ofs hbuf rest x

/-- A turn of the loop. -/
def aliasTurn (nls : Nls) (strings : List Str) (maxlen : ℕ) (x : Expansion) : AliasTurn :=
  match ltrimcl x.cmd with
  | 42 :: rest => .errRet .star { x.store [⟨maxlen, 0, rest.length + 1⟩] with cmd := rest }
  | cp => aliasWord nls strings maxlen cp x

/-- The loop, of `fuel` turns at most. -/
def expandLoop (nls : Nls) (strings : List Str) (maxlen : ℕ) : ℕ → Expansion → Option (Ending × Expansion)
  | 0, _ => none
  | fuel + 1, x =>
    match aliasTurn nls strings maxlen x with
    | .errRet ending x => some (ending, x)
    | .redo x => expandLoop nls strings maxlen fuel x

/-- `aliasexpand`, where `malloc` gives the work buffer or not. -/
def aliasexpand (fuel : ℕ) (nls : Nls) (table : Aliases) (cmd : Str) (maxlen : ℕ) (malloc : Bool)
    (reallocs : List Bool) : Option (Ending × Expansion) :=
  if !malloc then some (.noMemory, ⟨cmd, [], reallocs, []⟩)
  else expandLoop nls table.strings maxlen fuel ⟨cmd, [], reallocs, []⟩

/-! ## What the expansion of a line is -/

/-- The strings of a context, with their offsets. -/
def entries : List Str → ℕ → List (ℕ × Str)
  | [], _ => []
  | e :: es, offset => (offset, e) :: entries es (offset + (e.length + 1))

/-- The alias with this name: its offset, and its value. -/
def lookup (table : Aliases) (name : Str) : Option (ℕ × Str) :=
  ((entries table.strings 0).find? fun q => (name ++ [61]).isPrefixOf q.2).map fun q =>
    (q.1, q.2.drop (name.length + 1))

/-- The first word of a line is the name of the alias at this offset, and is replaced by its
value. -/
inductive Rewrites (nls : Nls) (table : Aliases) : Str → ℕ → Str → Prop
  | intro {line name rest value : Str} {ofs : ℕ} (hline : ltrimcl line = name ++ rest)
      (hstar : (ltrimcl line).head? ≠ some 42) (hne : name ≠ []) (hname : ∀ c ∈ name, nls.inName c = true)
      (hrest : ∀ c ∈ rest.head?, nls.inName c = false ∧ isPathdelim c = false ∧ isQuote c = false)
      (halias : lookup table (nls.strFUpr name) = some (ofs, value)) :
      Rewrites nls table line ofs (value ++ rest)

/-- A line comes from another one by rewriting it with the aliases at these offsets, one after the
other.  No alias is taken twice, and all lines fit. -/
inductive Run (nls : Nls) (table : Aliases) (maxlen : ℕ) (cmd : Str) : List ℕ → Str → Prop
  | nil : Run nls table maxlen cmd [] cmd
  | snoc {used : List ℕ} {line line' : Str} {ofs : ℕ} (h : Run nls table maxlen cmd used line)
      (hstep : Rewrites nls table line ofs line') (hfresh : ofs ∉ used) (hfits : line'.length < maxlen) :
      Run nls table maxlen cmd (used ++ [ofs]) line'

/-- Why the expansion ends at a line, and what it leaves. -/
def Ended (nls : Nls) (table : Aliases) (maxlen : ℕ) (noMemory : ℕ → Prop) (line : Str) (used : List ℕ)
    (x : Expansion) : Ending → Prop
  | .noMemory => x.cmd = line ∧ x.expanded = used ∧ noMemory used.length
  | .star => ltrimcl line = 42 :: x.cmd ∧ x.expanded = used
  | .noAlias => x.cmd = line ∧ x.expanded = used ∧ ∀ ofs line', ¬ Rewrites nls table line ofs line'
  | .used => x.cmd = line ∧ x.expanded = used ∧ ∃ ofs ∈ used, ∃ line', Rewrites nls table line ofs line'
  | .tooLong => x.cmd = line ∧ ∃ ofs line', x.expanded = used ++ [ofs] ∧ ofs ∉ used ∧
      Rewrites nls table line ofs line' ∧ maxlen ≤ line'.length

/-- All that has been stored is in its block. -/
def Expansion.Kept (x : Expansion) : Prop := ∀ st ∈ x.stores, st.Inside

instance (x : Expansion) : Decidable x.Kept := inferInstanceAs (Decidable (∀ st ∈ x.stores, st.Inside))

/-! ## The alias context -/

theorem isPrefixOf_assign (name e : Str) :
    (name ++ [61]).isPrefixOf e = true ↔ (e.drop name.length).head? = some 61 ∧ e.take name.length = name := by
  rw [List.isPrefixOf_iff_prefix]
  constructor
  · rintro ⟨value, rfl⟩
    simp
  · rintro ⟨hhead, htake⟩
    obtain ⟨value, hvalue⟩ : ∃ value, e.drop name.length = 61 :: value := by
      cases h : e.drop name.length with
      | nil => rw [h] at hhead; cases hhead
      | cons c value => rw [h] at hhead; cases hhead; exact ⟨value, rfl⟩
    refine ⟨value, ?_⟩
    calc name ++ [61] ++ value = e.take name.length ++ e.drop name.length := by
          rw [htake, hvalue, List.append_assoc, List.singleton_append]
      _ = e := List.take_append_drop _ e

theorem envFindVar_eq (name : Str) : ∀ {strings : List Str}, [] ∉ strings → ∀ offset : ℕ,
    envFindVar strings name offset =
      ((entries strings offset).find? fun q => (name ++ [61]).isPrefixOf q.2).map Prod.fst
  | [], _, _ => rfl
  | e :: es, hne, offset => by
    have he : e ≠ [] := fun h => hne (h ▸ List.mem_cons_self)
    rw [envFindVar, if_neg he, entries, List.find?_cons]
    split_ifs with h
    · rw [(isPrefixOf_assign name e).2 h]
      rfl
    · rw [Bool.eq_false_iff.2 (mt (isPrefixOf_assign name e).1 h)]
      exact envFindVar_eq name (fun h => hne (List.mem_cons_of_mem e h)) _

theorem le_of_mem_entries {ofs : ℕ} {e : Str} : ∀ {strings : List Str} {offset : ℕ},
    (ofs, e) ∈ entries strings offset → offset ≤ ofs ∧ e ∈ strings
  | [], _, h => nomatch h
  | s :: strings, offset, h => by
    rcases List.mem_cons.1 h with h | h
    · cases h
      exact ⟨le_rfl, List.mem_cons_self⟩
    · obtain ⟨hle, hmem⟩ := le_of_mem_entries h
      exact ⟨by omega, List.mem_cons_of_mem s hmem⟩

theorem strFrom_entry {ofs k : ℕ} {e : Str} (hk : k ≤ e.length) : ∀ {strings : List Str} {offset : ℕ},
    (ofs, e) ∈ entries strings offset → strFrom strings (ofs + k - offset) = e.drop k
  | [], _, h => nomatch h
  | s :: strings, offset, h => by
    rw [strFrom]
    rcases List.mem_cons.1 h with h | h
    · cases h
      rw [Nat.add_sub_cancel_left, if_pos hk]
    · have hle := (le_of_mem_entries h).1
      rw [if_neg (by omega), ← strFrom_entry hk h]
      congr 1
      omega

theorem length_entries : ∀ (strings : List Str) (offset : ℕ), (entries strings offset).length = strings.length
  | [], _ => rfl
  | _ :: strings, _ => by rw [entries, List.length_cons, length_entries strings, List.length_cons]

/-- What is found is a string of the context. -/
theorem lookup_some {table : Aliases} {name value : Str} {ofs : ℕ} (h : lookup table name = some (ofs, value)) :
    (ofs, name ++ 61 :: value) ∈ entries table.strings 0 ∧ envFindVar table.strings name 0 = some ofs := by
  obtain ⟨⟨o, e⟩, hfind, heq⟩ := Option.map_eq_some_iff.1 h
  have hpre : (name ++ [61]).isPrefixOf e = true := by simpa using List.find?_some hfind
  obtain ⟨v, rfl⟩ := List.isPrefixOf_iff_prefix.1 hpre
  have hmem := List.mem_of_find?_eq_some hfind
  simp only [Prod.mk.injEq] at heq
  obtain ⟨rfl, rfl⟩ := heq
  refine ⟨by simpa using hmem, ?_⟩
  rw [envFindVar_eq name table.ne_nil, hfind, Option.map_some]

theorem lookup_of_envFindVar {table : Aliases} {name : Str} {ofs : ℕ}
    (h : envFindVar table.strings name 0 = some ofs) : ∃ value, lookup table name = some (ofs, value) := by
  rw [envFindVar_eq name table.ne_nil] at h
  obtain ⟨q, hfind, rfl⟩ := Option.map_eq_some_iff.1 h
  exact ⟨q.2.drop (name.length + 1), by rw [lookup, hfind, Option.map_some]⟩

/-- The value of an alias is the string behind its name. -/
theorem strFrom_value {table : Aliases} {name value : Str} {ofs : ℕ}
    (h : lookup table name = some (ofs, value)) :
    strFrom table.strings (ofs + (name.length + 1)) = value := by
  have hmem := (lookup_some h).1
  have hlen : name.length + 1 ≤ (name ++ 61 :: value).length := by
    rw [List.length_append, List.length_cons]
    omega
  have hdrop := strFrom_entry hlen hmem
  rw [Nat.sub_zero] at hdrop
  rw [hdrop, ← List.singleton_append, ← List.append_assoc]
  exact List.drop_left' (by simp)

theorem lookup_nul {table : Aliases} {name value : Str} {ofs : ℕ} (h : lookup table name = some (ofs, value)) :
    0 ∉ value := fun hz =>
  table.nul _ (le_of_mem_entries (lookup_some h).1).2
    (List.mem_append_right _ (List.mem_cons_of_mem _ hz))

/-! ## Stores -/

theorem kept_store (x : Expansion) (sts : List Store) :
    (x.store sts).Kept ↔ x.Kept ∧ ∀ st ∈ sts, st.Inside := by
  rw [Expansion.Kept, Expansion.store, List.forall_mem_append]
  rfl

theorem Expansion.Kept.store_iff {x : Expansion} {sts : List Store} (h : ∀ st ∈ sts, st.Inside) :
    (x.store sts).Kept ↔ x.Kept := by
  rw [kept_store]
  exact and_iff_left h

/-- An offset of two bytes is stored past the end of a block that has one byte for each. -/
theorem not_inside_record (n : ℕ) : ¬ Store.Inside ⟨n + 1, 2 * (n + 1 - 1), 2⟩ := by
  rw [Store.Inside]
  simp only
  omega

/-- The fit test is exact, as the rest of a line is shorter than `maxlen`. -/
theorem room_iff {value cp : Str} {maxlen : ℕ} (hmax : maxlen < 2 ^ 15) (hcp : cp.length < maxlen) :
    value.length < (maxlen + 2 ^ 16 - cp.length) % 2 ^ 16 ↔ (value ++ cp).length < maxlen := by
  have hdiff : (maxlen + 2 ^ 16 - cp.length) % 2 ^ 16 = maxlen - cp.length := by
    rw [show maxlen + 2 ^ 16 - cp.length = maxlen - cp.length + 2 ^ 16 by omega, Nat.add_mod_right]
    exact Nat.mod_eq_of_lt (by omega)
  rw [hdiff, List.length_append]
  omega

/-! ## Turns -/

variable {nls : Nls} {table : Aliases} {cmd : Str} {maxlen : ℕ} {reallocs : List Bool}

theorem nodup_snoc {used : List ℕ} {ofs : ℕ} (h : used.Nodup) (hfresh : ofs ∉ used) :
    (used ++ [ofs]).Nodup :=
  List.nodup_append.2 ⟨h, List.nodup_cons.2 ⟨List.not_mem_nil, List.nodup_nil⟩, by
    rintro a ha b hb rfl
    exact hfresh (List.mem_singleton.1 hb ▸ ha)⟩

theorem Run.nodup {used : List ℕ} {line : Str} (h : Run nls table maxlen cmd used line) : used.Nodup := by
  induction h with
  | nil => exact List.nodup_nil
  | snoc _ _ hfresh _ ih => exact nodup_snoc ih hfresh

theorem Rewrites.mem {line line' : Str} {ofs : ℕ} (h : Rewrites nls table line ofs line') :
    ofs ∈ (entries table.strings 0).map Prod.fst := by
  obtain ⟨-, -, -, -, -, halias⟩ := h
  exact List.mem_map.2 ⟨_, (lookup_some halias).1, rfl⟩

theorem Run.subset {used : List ℕ} {line : Str} (h : Run nls table maxlen cmd used line) :
    used ⊆ (entries table.strings 0).map Prod.fst := by
  induction h with
  | nil => exact List.nil_subset _
  | snoc _ hstep _ _ ih => exact List.append_subset.2 ⟨ih, List.cons_subset.2 ⟨hstep.mem, List.nil_subset _⟩⟩

/-- No more aliases are taken than there are. -/
theorem Run.length_le {used : List ℕ} {line : Str} (h : Run nls table maxlen cmd used line) :
    used.length ≤ table.strings.length := by
  have hle := (h.nodup.subperm h.subset).length_le
  rwa [List.length_map, length_entries] at hle

variable (maxlen reallocs)

/-- What holds of an expansion all the way. -/
structure Tracked (x : Expansion) : Prop where
  len : x.cmd.length < maxlen
  nul : 0 ∉ x.cmd
  had : ∀ i < x.expanded.length, reallocs[i]? ≠ some false
  kept : x.Kept ↔ x.expanded = []
  nodup : x.expanded.Nodup

variable (nls table cmd)

/-- The expansion of `cmd` has come to this point. -/
structure Going (x : Expansion) : Prop extends Tracked maxlen reallocs x where
  run : Run nls table maxlen cmd x.expanded x.cmd
  reallocs_eq : x.reallocs = reallocs.drop x.expanded.length

/-- The expansion of `cmd` has ended. -/
structure Gone (ending : Ending) (x : Expansion) : Prop extends Tracked maxlen reallocs x where
  ended : ∃ line used, Run nls table maxlen cmd used line ∧
    Ended nls table maxlen (fun n => reallocs[n]? = some false) line used x ending

/-- What a turn comes to, with this many aliases taken before. -/
def TurnGoes (n : ℕ) : AliasTurn → Prop
  | .redo x => Going nls table cmd maxlen reallocs x ∧ x.expanded.length = n + 1
  | .errRet ending x => Gone nls table cmd maxlen reallocs ending x

variable {nls table cmd maxlen reallocs}

/-- Stores that are inside change nothing. -/
theorem Going.store {x : Expansion} (h : Going nls table cmd maxlen reallocs x) (sts : List Store)
    (hsts : ∀ st ∈ sts, st.Inside) : Going nls table cmd maxlen reallocs (x.store sts) where
  len := h.len
  nul := h.nul
  had := h.had
  kept := (Expansion.Kept.store_iff hsts).trans h.kept
  nodup := h.nodup
  run := h.run
  reallocs_eq := h.reallocs_eq

theorem ask_drop {l : List Bool} {n : ℕ} :
    ask true (l.drop n) = (l[n]?.getD true, l.drop (n + 1)) := by
  cases h : l.drop n with
  | nil =>
    rw [List.drop_eq_nil_iff] at h
    rw [ask, List.getElem?_eq_none h, List.drop_eq_nil_of_le (by omega)]
    rfl
  | cons a as =>
    have hn : n < l.length := by
      by_contra hn
      rw [List.drop_eq_nil_of_le (by omega)] at h
      cases h
    rw [List.drop_eq_getElem_cons hn] at h
    injection h with hhead htail
    rw [ask, List.getElem?_eq_getElem hn, hhead, htail]
    rfl

theorem prepend_goes {x : Expansion} {line cp value : Str} {used : List ℕ} {ofs o : ℕ}
    (hmax : maxlen < 2 ^ 15) (hcp : cp.length < maxlen) (hnul : 0 ∉ cp ∧ 0 ∉ value)
    (hrun : Run nls table maxlen cmd used line) (hstep : Rewrites nls table line o (value ++ cp))
    (hfresh : o ∉ used) (hvalue : strFrom table.strings ofs = value) (hx : x.expanded = used ++ [o])
    (hcmd : x.cmd = line) (ht : Tracked maxlen reallocs x)
    (hreallocs : x.reallocs = reallocs.drop x.expanded.length) :
    TurnGoes nls table cmd maxlen reallocs used.length (prepend table.strings maxlen ofs cp x) := by
  have hbad : ¬ x.Kept := fun h => by
    rw [ht.kept, hx] at h
    exact List.append_ne_nil_of_right_ne_nil _ (List.cons_ne_nil _ _) h
  rw [prepend, hvalue]
  simp only
  split_ifs with hroom
  · refine ⟨⟨⟨(room_iff hmax hcp).1 hroom, ?_, ht.had, ?_, ht.nodup⟩, ?_, hreallocs⟩, ?_⟩
    · rw [List.mem_append]
      exact not_or.2 ⟨hnul.2, hnul.1⟩
    · have hne : x.expanded ≠ [] := fun h => hbad (ht.kept.2 h)
      exact iff_of_false (fun h => hbad ((kept_store _ _).1 h).1) hne
    · simp only [Expansion.store]
      rw [hx]
      exact .snoc hrun hstep hfresh ((room_iff hmax hcp).1 hroom)
    · simp only [Expansion.store]
      rw [hx, List.length_append, List.length_singleton]
  · exact ⟨ht, line, used, hrun, hcmd, o, value ++ cp, hx, hfresh, hstep,
      not_lt.1 (mt (room_iff hmax hcp).2 hroom)⟩

theorem record_goes {x : Expansion} {cp value hbuf : Str} {ofs : ℕ} (hmax : maxlen < 2 ^ 15)
    (hcp : cp.length < maxlen) (hnul : 0 ∉ cp) (h : Going nls table cmd maxlen reallocs x)
    (hstep : Rewrites nls table x.cmd ofs (value ++ cp)) (halias : lookup table hbuf = some (ofs, value)) :
    TurnGoes nls table cmd maxlen reallocs x.expanded.length
      (record table.strings maxlen ofs hbuf cp x) := by
  rw [record]
  split_ifs with hused
  · exact ⟨h.toTracked, x.cmd, x.expanded, h.run, rfl, rfl, ofs, hused, _, hstep⟩
  · simp only
    rw [h.reallocs_eq, ask_drop]
    simp only
    by_cases hr : reallocs[x.expanded.length]? = some false
    · rw [hr]
      exact ⟨⟨h.len, h.nul, h.had, h.kept, h.nodup⟩, x.cmd, x.expanded, h.run, rfl, rfl, hr⟩
    · have hans : reallocs[x.expanded.length]?.getD true = true := by
        cases hb : reallocs[x.expanded.length]? with
        | none => rfl
        | some b => cases b with
          | true => rfl
          | false => exact absurd hb hr
      rw [hans]
      refine prepend_goes hmax hcp ⟨hnul, lookup_nul halias⟩ h.run hstep hused (strFrom_value halias) rfl rfl
        ⟨h.len, h.nul, ?_, ?_, nodup_snoc h.nodup hused⟩ ?_
      · intro i hi
        rw [List.length_append, List.length_singleton] at hi
        rcases Nat.lt_succ_iff_lt_or_eq.1 hi with hi | rfl
        · exact h.had i hi
        · exact hr
      · refine iff_of_false (fun hk => ?_) (List.append_ne_nil_of_right_ne_nil _ (List.cons_ne_nil _ _))
        exact not_inside_record _ (hk _ (List.mem_append_right _ (List.mem_singleton_self _)))
      · simp only [Expansion.store, List.length_append, List.length_singleton]

/-- The first word is what `aliasexpand` takes for it. -/
theorem rewrites_iff {line line' : Str} {ofs : ℕ} :
    Rewrites nls table line ofs line' ↔ (ltrimcl line).head? ≠ some 42 ∧
      (ltrimcl line).takeWhile nls.inName ≠ [] ∧
      ((ltrimcl line).dropWhile nls.inName).head?.any (fun c => isPathdelim c || isQuote c) = false ∧
      ∃ value, lookup table (nls.strFUpr ((ltrimcl line).takeWhile nls.inName)) = some (ofs, value) ∧
        line' = value ++ (ltrimcl line).dropWhile nls.inName := by
  constructor
  · intro h
    cases h with | @intro name rest value _ hline hstar hne hname hrest halias =>
    have hnil : rest.takeWhile nls.inName = [] ∧ rest.dropWhile nls.inName = rest := by
      cases rest with
      | nil => exact ⟨rfl, rfl⟩
      | cons c rest =>
        have hc := (hrest c (by simp)).1
        exact ⟨List.takeWhile_cons_of_neg (by simp [hc]), List.dropWhile_cons_of_neg (by simp [hc])⟩
    have htake : (ltrimcl line).takeWhile nls.inName = name := by
      rw [hline, List.takeWhile_append_of_pos hname, hnil.1, List.append_nil]
    have hdrop : (ltrimcl line).dropWhile nls.inName = rest := by
      rw [hline, List.dropWhile_append_of_pos hname, hnil.2]
    rw [htake, hdrop]
    refine ⟨hstar, hne, ?_, value, halias, rfl⟩
    cases rest with
    | nil => rfl
    | cons c rest =>
      obtain ⟨-, hp, hq⟩ := hrest c (by simp)
      simp [hp, hq]
  · rintro ⟨hstar, hne, hrest, value, halias, rfl⟩
    refine .intro List.takeWhile_append_dropWhile.symm hstar hne (fun c hc => List.mem_takeWhile_imp hc)
      (fun c hc => ?_) halias
    rw [Option.mem_def] at hc
    rw [hc] at hrest
    have hin := List.head?_dropWhile_not nls.inName (ltrimcl line)
    rw [hc] at hin
    simpa [hin] using hrest

theorem ltrimcl_length_le (s : Str) : (ltrimcl s).length ≤ s.length :=
  (List.dropWhile_sublist _).length_le

theorem aliasWord_goes {x : Expansion} (hmax : maxlen < 2 ^ 15) (hstar : (ltrimcl x.cmd).head? ≠ some 42)
    (h : Going nls table cmd maxlen reallocs x) :
    TurnGoes nls table cmd maxlen reallocs x.expanded.length
      (aliasWord nls table.strings maxlen (ltrimcl x.cmd) x) := by
  have htake : ((ltrimcl x.cmd).takeWhile nls.inName).length ≤ (ltrimcl x.cmd).length :=
    (List.takeWhile_sublist _).length_le
  have hdrop : ((ltrimcl x.cmd).dropWhile nls.inName).length ≤ (ltrimcl x.cmd).length :=
    (List.dropWhile_sublist _).length_le
  have htrim := ltrimcl_length_le x.cmd
  have hlen := h.len
  rw [aliasWord]
  split_ifs with hno
  · have hx := h.store [⟨maxlen, 0, ((ltrimcl x.cmd).takeWhile nls.inName).length⟩] (by
      intro st hst
      rw [List.mem_singleton.1 hst, Store.Inside]
      simp only
      omega)
    refine ⟨hx.toTracked, x.cmd, x.expanded, h.run, rfl, rfl, fun ofs line' hstep => ?_⟩
    obtain ⟨-, hne, hrest, -⟩ := rewrites_iff.1 hstep
    rcases hno with hno | hno
    · exact hne hno
    · rw [hrest] at hno
      cases hno
  · have hx := h.store [⟨maxlen, 0, ((ltrimcl x.cmd).takeWhile nls.inName).length + 1⟩] (by
      intro st hst
      rw [List.mem_singleton.1 hst, Store.Inside]
      simp only
      omega)
    simp only
    split
    · rename_i hfind
      refine ⟨hx.toTracked, x.cmd, x.expanded, h.run, rfl, rfl, fun ofs line' hstep => ?_⟩
      obtain ⟨-, -, -, value, halias, -⟩ := rewrites_iff.1 hstep
      rw [(lookup_some halias).2] at hfind
      cases hfind
    · rename_i ofs hfind
      obtain ⟨value, halias⟩ := lookup_of_envFindVar hfind
      rw [not_or, Bool.not_eq_true] at hno
      refine record_goes hmax (by omega) (fun hz => h.nul ?_) hx
        (rewrites_iff.2 ⟨hstar, hno.1, hno.2, value, halias, rfl⟩) halias
      exact (List.dropWhile_sublist _).subset ((List.dropWhile_sublist _).subset hz)

/-- **A turn takes a new alias, or the expansion ends.** -/
theorem aliasTurn_goes {x : Expansion} (hmax : maxlen < 2 ^ 15) (h : Going nls table cmd maxlen reallocs x) :
    TurnGoes nls table cmd maxlen reallocs x.expanded.length (aliasTurn nls table.strings maxlen x) := by
  rw [aliasTurn]
  split
  · rename_i rest heq
    have hle := ltrimcl_length_le x.cmd
    rw [heq, List.length_cons] at hle
    have hlen := h.len
    have hx := h.store [⟨maxlen, 0, rest.length + 1⟩] (by
      intro st hst
      rw [List.mem_singleton.1 hst, Store.Inside]
      simp only
      omega)
    refine ⟨⟨by simp only; omega, fun hz => h.nul ?_, hx.had, hx.kept, hx.nodup⟩, x.cmd, x.expanded, h.run,
      heq, rfl⟩
    exact (List.dropWhile_sublist _).subset (heq ▸ List.mem_cons_of_mem _ hz)
  · rename_i hstar
    refine aliasWord_goes hmax (fun hhead => ?_) h
    obtain ⟨rest, hrest⟩ := List.head?_eq_some_iff.1 hhead
    exact hstar rest hrest

/-- **The expansion ends**, as a turn takes an alias that has not been taken. -/
theorem expandLoop_ends (hmax : maxlen < 2 ^ 15) : ∀ {fuel : ℕ} {x : Expansion},
    Going nls table cmd maxlen reallocs x → table.strings.length < x.expanded.length + fuel →
    ∃ ending x', expandLoop nls table.strings maxlen fuel x = some (ending, x') ∧
      Gone nls table cmd maxlen reallocs ending x'
  | 0, x, h, hfuel => by
    have hle := h.run.length_le
    omega
  | fuel + 1, x, h, hfuel => by
    have hturn := aliasTurn_goes hmax h
    rw [expandLoop]
    cases heq : aliasTurn nls table.strings maxlen x with
    | errRet ending x' =>
      rw [heq] at hturn
      exact ⟨ending, x', rfl, hturn⟩
    | redo x' =>
      rw [heq] at hturn
      obtain ⟨hgoing, hlen⟩ := hturn
      exact expandLoop_ends hmax hgoing (by omega)

/-! ## The expansion -/

/-- What an expansion of `cmd` leaves: the line rewritten up to where it ends, by an alias at most
once each. -/
structure Expands (nls : Nls) (table : Aliases) (cmd : Str) (maxlen : ℕ) (noMemory : ℕ → Prop)
    (ending : Ending) (x : Expansion) : Prop where
  len : x.cmd.length < maxlen
  nul : 0 ∉ x.cmd
  once : x.expanded.Nodup
  ended : ∃ line used, Run nls table maxlen cmd used line ∧ Ended nls table maxlen noMemory line used x ending

theorem Ended.mono {line : Str} {used : List ℕ} {x : Expansion} {ending : Ending} {p q : ℕ → Prop}
    (hpq : ∀ n, p n → q n) (h : Ended nls table maxlen p line used x ending) :
    Ended nls table maxlen q line used x ending := by
  cases ending with
  | noMemory => exact ⟨h.1, h.2.1, hpq _ h.2.2⟩
  | star => exact h
  | noAlias => exact h
  | used => exact h
  | tooLong => exact h

/-- A run starts with the line itself being rewritten. -/
theorem Run.first {used : List ℕ} {line : Str} (h : Run nls table maxlen cmd used line) :
    (used = [] ∧ line = cmd) ∨ (used ≠ [] ∧ ∃ ofs line', Rewrites nls table cmd ofs line') := by
  induction h with
  | nil => exact .inl ⟨rfl, rfl⟩
  | snoc _ hstep _ _ ih =>
    refine .inr ⟨List.append_ne_nil_of_right_ne_nil _ (List.cons_ne_nil _ _), ?_⟩
    rcases ih with ⟨-, rfl⟩ | ⟨-, hfirst⟩
    · exact ⟨_, _, hstep⟩
    · exact hfirst

/-- No alias is taken if and only if the first word names none, or there is no memory to record
it. -/
theorem Gone.expanded_eq_nil_iff {ending : Ending} {x : Expansion}
    (h : Gone nls table cmd maxlen reallocs ending x) :
    x.expanded = [] ↔ reallocs[0]? = some false ∨ ∀ ofs line', ¬ Rewrites nls table cmd ofs line' := by
  obtain ⟨line, used, hrun, hended⟩ := h.ended
  constructor
  · intro hnil
    -- what ends the expansion is found at `cmd` itself
    have hused : used = [] → line = cmd := fun hused => by
      rcases hrun.first with ⟨-, hline⟩ | ⟨hne, -⟩
      · exact hline
      · exact absurd hused hne
    cases ending with
    | noMemory =>
      obtain ⟨-, hx, hno⟩ := hended
      rw [← hx, hnil] at hno
      exact .inl hno
    | star =>
      obtain ⟨hstar, hx⟩ := hended
      refine .inr fun ofs line' hstep => (rewrites_iff.1 hstep).1 ?_
      rw [← hused (hx ▸ hnil), hstar]
      rfl
    | noAlias =>
      obtain ⟨-, hx, hno⟩ := hended
      exact .inr (hused (hx ▸ hnil) ▸ hno)
    | used =>
      obtain ⟨-, hx, ofs, hmem, -⟩ := hended
      rw [← hx, hnil] at hmem
      cases hmem
    | tooLong =>
      obtain ⟨-, ofs, line', hx, -⟩ := hended
      rw [hx] at hnil
      exact absurd hnil (List.append_ne_nil_of_right_ne_nil _ (List.cons_ne_nil _ _))
  · intro hcond
    by_contra hne
    rcases hcond with hno | hno
    · exact h.had 0 (List.length_pos_of_ne_nil hne) hno
    · rcases hrun.first with ⟨rfl, rfl⟩ | ⟨-, ofs, line', hstep⟩
      · cases ending with
        | noMemory => exact hne hended.2.1
        | star => exact hne hended.2
        | noAlias => exact hne hended.2.1
        | used => exact hne hended.2.1
        | tooLong =>
          obtain ⟨-, ofs, line', -, -, hstep, -⟩ := hended
          exact hno ofs line' hstep
      · exact hno ofs line' hstep

/-- **`aliasexpand` ends, rewrites the first word with one alias after the other as long as it
fits, and stores in its blocks if and only if it takes no alias at all.** -/
theorem aliasexpand_kept_iff (nls : Nls) (table : Aliases) {cmd : Str} {maxlen : ℕ} (malloc : Bool)
    (reallocs : List Bool) (hmax : maxlen < 2 ^ 15) (hcmd : cmd.length < maxlen) (hnul : 0 ∉ cmd) {fuel : ℕ}
    (hfuel : table.strings.length < fuel) :
    ∃ ending x, aliasexpand fuel nls table cmd maxlen malloc reallocs = some (ending, x) ∧
      Expands nls table cmd maxlen (fun n => malloc = false ∨ reallocs[n]? = some false) ending x ∧
      (x.Kept ↔ malloc = false ∨ reallocs[0]? = some false ∨
        ∀ ofs line', ¬ Rewrites nls table cmd ofs line') := by
  have hstart : Going nls table cmd maxlen reallocs ⟨cmd, [], reallocs, []⟩ := {
    len := hcmd
    nul := hnul
    had := fun i hi => absurd hi (Nat.not_lt_zero i)
    kept := iff_of_true (fun _ hst => absurd hst List.not_mem_nil) rfl
    nodup := List.nodup_nil
    run := .nil
    reallocs_eq := rfl }
  cases malloc with
  | false =>
    exact ⟨.noMemory, _, rfl, ⟨hcmd, hnul, List.nodup_nil, cmd, [], .nil, rfl, rfl, .inl rfl⟩,
      iff_of_true (hstart.kept.2 rfl) (.inl rfl)⟩
  | true =>
    obtain ⟨ending, x, heq, h⟩ := expandLoop_ends hmax hstart (by simpa using hfuel)
    obtain ⟨line, used, hrun, hended⟩ := h.ended
    refine ⟨ending, x, heq, ⟨h.len, h.nul, h.nodup, line, used, hrun, hended.mono fun _ => .inr⟩, ?_⟩
    rw [h.kept, h.expanded_eq_nil_iff]
    simp

/-- The characters of file names, without a table of a country. -/
def plainNls : Nls := ⟨0, 255, 0, 32, [46, 34, 47, 92, 91, 93, 58, 124, 60, 62, 43, 61, 59, 44], id⟩

/-- `A=b` -/
def aliasA : Aliases where
  strings := [[65, 61, 98]]
  ne_nil := by decide
  nul := by decide

/-- The line `A /w` becomes `b /w`. -/
theorem aliasexpand_kept_iff_a : ∃ ending x,
    aliasexpand 2 plainNls aliasA [65, 32, 47, 119] 256 true [] = some (ending, x) ∧
      Expands plainNls aliasA [65, 32, 47, 119] 256 (fun n => true = false ∨ ([] : List Bool)[n]? = some false)
        ending x ∧
      (x.Kept ↔ true = false ∨ ([] : List Bool)[0]? = some false ∨
        ∀ ofs line', ¬ Rewrites plainNls aliasA [65, 32, 47, 119] ofs line') :=
  aliasexpand_kept_iff plainNls aliasA true [] (by decide) (by decide) (by decide) (by decide)

/-- With the alias `A=b`, the line `A` has an offset of two bytes stored in a block of one byte. -/
theorem offset_past_block : ∃ x, aliasexpand 2 plainNls aliasA [65] 256 true [] = some (.noAlias, x) ∧
    x.cmd = [98] ∧ ⟨1, 0, 2⟩ ∈ x.stores ∧ ¬ x.Kept := by
  refine ⟨_, rfl, ?_⟩
  decide

end Shell
end BurdahDos
