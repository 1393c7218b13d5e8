import BurdahDos.Shell.Read
import BurdahDos.Lib.CString
import BurdahDos.Lib.Words
import Mathlib

/-!
# Completing a file name

`do_complete` of `portal/lib/filecomp.c`.  Its local arrays and the caller's line are lists of
bytes, and an access outside of one of them has no outcome.  Without long file names it is the
blocks of `sfnfindfirst` and `sfnfindnext` that are gone through.

* `doComplete_iff` says when nothing outside of the arrays is accessed and the last word becomes
  its directory followed by the longest common prefix of the names that match.
* `longest_first_name`: a name of twelve characters is too long for `maxmatch` when it is the first
  one.
-/

set_option autoImplicit false

namespace BurdahDos
namespace Shell

open CString Words

/-! ## The function -/

/-- `FA_DIREC` -/
def faDirec : UInt8 := 0x10

/-- What is used of the block that a search fills. -/
structure Ffblk where
  ffName : Str
  ffAttrib : UInt8

/-- `islower` -/
def islower (c : UInt8) : Bool := 97 ≤ c.toNat && c.toNat ≤ 122

/-- `strlwr` -/
def strlwr (b : Bytes) : Option Bytes := (str b 0).bind fun s => write b 0 (s.map tolower)

/-- The local arrays `fname` and `maxmatch`, the flag, and what has been printed. -/
structure Completing where
  fname : Bytes
  maxmatch : Bytes
  perfectmatch : Bool
  shown : List Str

/-- What `do_complete` returns, the line that it leaves, and what it prints. -/
structure Completed where
  ret : Bool
  line : Bytes
  shown : List Str

/-- A blank ends the word in front. -/
def isBlank (c : UInt8) : Bool := c == 32

/-- The start of the word, from position `count` on backwards. -/
def findFront (b : Bytes) : ℕ → Option ℕ
  | 0 => b[0]?.map fun c => if isBlank c then 1 else 0
  | count + 1 =>
    match b[count + 1]? with
    | none => none
    | some c => if isBlank c then some (count + 2) else findFront b count

/-- A backslash or a colon ends the directory. -/
def endsDirectory (c : UInt8) : Bool := c == 92 || c == 58

/-- The loop that cuts the name off the directory, with `n` characters left. -/
def cutDirectory : ℕ → Bytes → Option Bytes
  | 0, directory => some directory
  | n + 1, directory =>
    match directory[n]? with
    | none => none
    | some c =>
      if endsDirectory c then some directory else (store directory n 0).bind (cutDirectory n)

/-- The wildcard that is added to a name. -/
def wildcard (name : Str) : Str := if 46 ∈ name then [42] else [42, 46, 42]

/-- `.` or `..` -/
def isDots (name : Str) : Bool := name == [46] || name == [46, 46]

/-- A match is printed. -/
def showMatch (file : Ffblk) (x : Completing) : Option Completing :=
  (strcpy x.fname 0 (if file.ffAttrib = faDirec then 91 :: file.ffName ++ [93] else file.ffName)).bind
    fun fname => (str fname 0).map fun s => { x with fname := fname, shown := x.shown ++ [s] }

/-- The loop that compares `maxmatch` and `fname` from position `count` on: whether they differ, and
`maxmatch` cut off there. -/
def cutMismatch (fname : Bytes) : ℕ → ℕ → Bytes → Option (Bool × Bytes)
  | 0, _, _ => none
  | fuel + 1, count, maxmatch =>
    match maxmatch[count]? with
    | none => none
    | some c =>
      if c = 0 then some (false, maxmatch)
      else
        match fname[count]? with
        | none => none
        | some d =>
          if d = 0 then some (false, maxmatch)
          else if c ≠ d then (store maxmatch count 0).map (true, ·)
          else cutMismatch fname fuel (count + 1) maxmatch

/-- `fname` is compared with what has matched so far. -/
def compareMatch (x : Completing) : Option Completing :=
  match x.maxmatch[0]? with
  | none => none
  | some c =>
    if c = 0 ∧ x.perfectmatch then
      ((str x.fname 0).bind (strcpy x.maxmatch 0)).map fun m => { x with maxmatch := m }
    else
      (cutMismatch x.fname x.maxmatch.length 0 x.maxmatch).map fun r =>
        { x with maxmatch := r.2, perfectmatch := x.perfectmatch && !r.1 }

/-- A match is taken into account. -/
def takeMatch (makelower : Bool) (file : Ffblk) (x : Completing) : Option Completing :=
  (strcpy x.fname 0 file.ffName).bind fun fname =>
    (if makelower then strlwr fname else some fname).bind fun fname =>
      (strcat fname 0 [if file.ffAttrib = faDirec then 92 else 32]).bind fun fname =>
        compareMatch { x with fname := fname }

/-- The loop over the matches. -/
def matchLoop (makelower show' : Bool) : List Ffblk → Completing → Option Completing
  | [], x => some x
  | file :: files, x =>
    if isDots file.ffName then matchLoop makelower show' files x
    else
      (if show' then showMatch file x else takeMatch makelower file x).bind
        (matchLoop makelower show' files)

/-- What the local arrays hold before they are used. -/
def newCompleting : Completing where
  fname := List.replicate 14 0
  maxmatch := List.replicate 13 0
  perfectmatch := true
  shown := []

/-- The search for the matches: none if none is found, or if `lfncomplete` has the result of
`lfnfindfirst` taken for a failure.  If then nothing is found, the block is not filled. -/
def findMatches (lfncomplete : Bool) (find : Str → List Ffblk) (path : Str) :
    Option (Option (List Ffblk)) :=
  match lfncomplete, find path with
  | false, [] => some none
  | false, files => some (some files)
  | true, [] => none
  | true, _ => some none

/-- The word at the end of the line: where it starts, its directory, and the pattern for the
search. -/
def splitWord (b : Bytes) (charcount : ℕ) : Option (ℕ × Str × Str) :=
  (findFront b (charcount - 1)).bind fun start =>
  (str b start).bind fun word =>
  (strcpy (List.replicate 128 0) 0 word).bind fun directory =>
  (cutDirectory word.length directory).bind fun directory =>
  (str directory 0).bind fun dir =>
  (strcpy (List.replicate 128 0) 0 word).bind fun path =>
  (strcat path 0 (wildcard (word.drop dir.length))).bind fun path =>
  (str path 0).map fun pattern => (start, dir, pattern)

/-- The part of `do_complete` that goes through the matches, and then replaces the word. -/
def replaceWord (b : Bytes) (charcount : ℕ) (show' : Bool) (start : ℕ) (dir : Str)
    (files : List Ffblk) : Option Completed :=
  let makelower := charcount ≠ 0 && (b[charcount - 1]?.map islower).getD false
  (matchLoop makelower show' files newCompleting).bind fun x =>
    if show' then some ⟨true, b, x.shown⟩
    else
      (strcpy b start dir).bind fun b =>
      (str x.maxmatch 0).bind fun m =>
      (strcat b start m).map fun b => ⟨x.perfectmatch, b, []⟩

/-- `do_complete`, with the files that are found for a pattern. -/
def doComplete (lfncomplete : Bool) (find : Str → List Ffblk) (b : Bytes) (charcount : ℕ)
    (show' : Bool) : Option Completed :=
  (splitWord b charcount).bind fun (start, dir, pattern) =>
    (findMatches lfncomplete find pattern).bind fun
      | none => some ⟨false, b, []⟩
      | some files => replaceWord b charcount show' start dir files

/-! ## What completing should do -/

/-- The last word of a line, and what is in front of it. -/
def beforeWord (line : Str) : Str := upToLast isBlank line
def lastWord (line : Str) : Str := afterLast isBlank line

/-- The directory part of a word. -/
def wordDirectory (word : Str) : Str := upToLast endsDirectory word

/-- The pattern that is searched for. -/
def completionPattern (line : Str) : Str :=
  lastWord line ++ wildcard (afterLast endsDirectory (lastWord line))

/-- The last character of the line is a small letter. -/
def endsLower (line : Str) : Bool := (line.getLast?.map islower).getD false

/-- A name in the case of the last character. -/
def casedName (makelower : Bool) (file : Ffblk) : Str :=
  if makelower then file.ffName.map tolower else file.ffName

/-- A name, ended by a backslash for a directory and a blank for a file. -/
def endedName (makelower : Bool) (file : Ffblk) : Str :=
  casedName makelower file ++ [if file.ffAttrib &&& faDirec ≠ 0 then 92 else 32]

/-- The matches other than `.` and `..`. -/
def realMatches (files : List Ffblk) : List Ffblk := files.filter (!isDots ·.ffName)

/-- The characters of an 8.3 name. -/
def Plain (s : Str) : Prop := ∀ c ∈ s, c ≠ 0 ∧ c ≠ 32 ∧ c ≠ 92

/-- A directory listing: the names are at most twelve characters long, and none stands twice. -/
structure Listing (files : List Ffblk) : Prop where
  length_le : ∀ f ∈ files, f.ffName.length ≤ 12
  plain : ∀ f ∈ files, Plain f.ffName
  distinct : files.Pairwise fun f g => f.ffName.map tolower ≠ g.ffName.map tolower

/-- The last word has become its directory followed by the longest common prefix of the names. -/
def Completes (line : Str) (files : List Ffblk) (b : Bytes) : Prop :=
  ∃ p, LongestCommonPrefix (files.map (endedName (endsLower line))) p ∧
    Holds b 0 (beforeWord line ++ wordDirectory (lastWord line) ++ p)

/-- What the matches have to be like, for a line of `maxlen` bytes. -/
structure Completable (line : Str) (maxlen : ℕ) (files : List Ffblk) : Prop where
  /-- `maxmatch` has room for the first name. -/
  first : ∀ f, files.head? = some f → f.ffName.length ≤ 11
  /-- The line has room for all that the names have in common. -/
  room : files ≠ [] → ∀ p, (∀ f ∈ files, p <+: endedName (endsLower line) f) →
    (beforeWord line ++ wordDirectory (lastWord line) ++ p).length < maxlen
  /-- The only match is not a directory with a further attribute. -/
  attrib : ∀ f, files = [f] → f.ffAttrib &&& faDirec ≠ 0 → f.ffAttrib = faDirec

/-! ## The last word -/

variable {b b' d d' : Bytes} {line word s : Str} {files : List Ffblk} {file : Ffblk}
  {lfncomplete makelower show' : Bool} {find : Str → List Ffblk} {n : ℕ}

theorem findFront_concat : ∀ (s : Str) (c : UInt8), s ++ [c] <+: b →
    findFront b s.length = some (upToLast isBlank (s ++ [c])).length := by
  intro s
  induction s using List.reverseRecOn with
  | nil =>
    rintro c ⟨rest, rfl⟩
    rcases hc : isBlank c with _ | _
    · rw [upToLast_concat_of_neg hc]
      simp [findFront, hc]
    · rw [upToLast_concat_of_pos hc]
      simp [findFront, hc]
  | append_singleton s e ih =>
    intro c hpre
    have hlen : (s ++ [e]).length = s.length + 1 := List.length_append
    have hget : b[s.length + 1]? = some c := by
      obtain ⟨rest, rfl⟩ := hpre
      rw [← hlen, List.append_assoc, List.getElem?_append_right (Nat.le_refl _), Nat.sub_self]
      rfl
    rw [hlen, findFront, hget]
    rcases hc : isBlank c with _ | _
    · rw [upToLast_concat_of_neg hc]
      simp only [hc, Bool.false_eq_true, if_false]
      exact ih e ((List.prefix_append _ _).trans hpre)
    · rw [upToLast_concat_of_pos hc]
      simp [hc]

theorem findFront_eq (h : Holds b 0 line) :
    findFront b (line.length - 1) = some (beforeWord line).length := by
  have hpre : line ++ [0] <+: b := h.1
  rcases List.eq_nil_or_concat line with rfl | ⟨s, c, rfl⟩
  · obtain ⟨rest, rfl⟩ := hpre
    rfl
  · rw [List.concat_eq_append] at *
    rw [List.length_append, List.length_singleton, Nat.add_sub_cancel]
    exact findFront_concat s c ((List.prefix_append _ _).trans hpre)

/-- The name is cut off the directory. -/
theorem cutDirectory_spec : ∀ (s : Str) {d : Bytes}, Holds d 0 s →
    ∃ d', cutDirectory s.length d = some d' ∧ Holds d' 0 (wordDirectory s) := by
  intro s
  induction s using List.reverseRecOn with
  | nil => exact fun h => ⟨_, rfl, h⟩
  | append_singleton s c ih =>
    intro d h
    have hget : d[s.length]? = some c := by
      have := h.get (j := s.length) (by simp)
      simpa using this
    rw [List.length_append, List.length_singleton, cutDirectory, hget]
    by_cases hc : endsDirectory c = true
    · rw [wordDirectory, upToLast_concat_of_pos hc]
      exact ⟨d, by simp only [hc, if_true], h⟩
    · rw [Bool.not_eq_true] at hc
      obtain ⟨d', hd', -⟩ := store_restore hget 0
      obtain ⟨d₂, hcut, hholds⟩ := ih (h.cut (by rwa [Nat.zero_add]))
      refine ⟨d₂, ?_, ?_⟩
      · simp only [hc, hd', Option.bind_some]
        exact hcut
      · rw [wordDirectory, upToLast_concat_of_neg hc]
        exact hholds

theorem before_append_word (line : Str) : beforeWord line ++ lastWord line = line :=
  upToLast_append_afterLast _ _

theorem directory_append_name (word : Str) :
    wordDirectory word ++ afterLast endsDirectory word = word :=
  upToLast_append_afterLast _ _

theorem holds_word (h : Holds b 0 line) : Holds b (beforeWord line).length (lastWord line) := by
  rw [← before_append_word line] at h
  simpa using h.tail

theorem splitWord_eq (h : Holds b 0 line) :
    splitWord b line.length = if (completionPattern line).length < 128 then
      some ((beforeWord line).length, wordDirectory (lastWord line), completionPattern line)
    else none := by
  have hword := holds_word h
  have hnul : (0 : UInt8) ∉ wildcard (afterLast endsDirectory (lastWord line)) := by
    rw [wildcard]
    split <;> decide
  have hlen : (completionPattern line).length = (lastWord line).length +
      (wildcard (afterLast endsDirectory (lastWord line))).length := List.length_append
  rw [splitWord, findFront_eq h]
  simp only [Option.bind_some, hword.str]
  rcases hcopy : strcpy (List.replicate 128 0) 0 (lastWord line) with _ | d
  · have hlong : ¬ 0 + (lastWord line).length < (List.replicate 128 (0 : UInt8)).length := by
      rw [← strcpy_isSome, hcopy]
      decide
    rw [List.length_replicate] at hlong
    rw [if_neg (by omega)]
    rfl
  · have hholds := holds_strcpy hcopy hword.2
    have hlenD : d.length = 128 := by
      rw [length_strcpy hcopy, List.length_replicate]
    obtain ⟨d', hcut, hd'⟩ := cutDirectory_spec _ hholds
    simp only [Option.bind_some, hcut, hd'.str, wordDirectory, drop_upToLast]
    have hfits := hholds.strcat_isSome (s := wildcard (afterLast endsDirectory (lastWord line)))
    rw [hlenD] at hfits
    split
    · rename_i hlt
      obtain ⟨path, hpath⟩ := Option.isSome_iff_exists.mp (hfits.mpr (by omega))
      rw [hpath]
      simp only [Option.bind_some, (hholds.strcat hpath hnul).str, Option.map_some]
      rfl
    · have hfull : strcat d 0 (wildcard (afterLast endsDirectory (lastWord line))) = none := by
        rw [← Option.not_isSome_iff_eq_none, hfits]
        omega
      rw [hfull]
      rfl

/-! ## Showing the matches -/

/-- The name fits in `fname` when it is shown. -/
def Showable (file : Ffblk) : Prop := file.ffAttrib = faDirec → file.ffName.length ≤ 11

theorem showMatch_none {x : Completing} (hlen : x.fname.length = 14) (hbad : ¬ Showable file) :
    showMatch file x = none := by
  rw [Showable, Classical.not_imp] at hbad
  have hlong : strcpy x.fname 0 (91 :: file.ffName ++ [93]) = none := by
    rw [← Option.not_isSome_iff_eq_none, strcpy_isSome, hlen]
    simp only [List.cons_append, List.length_cons, List.length_append, List.length_nil]
    omega
  rw [showMatch, if_pos hbad.1, hlong]
  rfl

theorem showMatch_some {x : Completing} (hlen : x.fname.length = 14)
    (hname : file.ffName.length ≤ 12) (hnul : 0 ∉ file.ffName) (hok : Showable file) :
    ∃ x', showMatch file x = some x' ∧ x'.fname.length = 14 := by
  generalize hs : (if file.ffAttrib = faDirec then 91 :: file.ffName ++ [93] else file.ffName) = s
  have hfits : 0 + s.length < x.fname.length ∧ 0 ∉ s := by
    rw [hlen, ← hs]
    split
    · rename_i hdir
      have hshort := hok hdir
      simp only [List.cons_append, List.length_cons, List.length_append, List.length_nil]
      exact ⟨by omega, by simp [hnul]⟩
    · exact ⟨by omega, hnul⟩
  obtain ⟨b, hb⟩ := Option.isSome_iff_exists.mp (strcpy_isSome.mpr hfits.1)
  refine ⟨{ x with fname := b, shown := x.shown ++ [s] }, ?_, (length_strcpy hb).trans hlen⟩
  rw [showMatch, hs, hb, Option.bind_some, (holds_strcpy hb hfits.2).str]
  rfl

theorem showLoop_isSome (makelower : Bool) : ∀ {files : List Ffblk} {x : Completing}, x.fname.length = 14 →
    (∀ f ∈ files, f.ffName.length ≤ 12 ∧ 0 ∉ f.ffName) →
    ((matchLoop makelower true files x).isSome ↔ ∀ f ∈ realMatches files, Showable f) := by
  intro files
  induction files with
  | nil => simp [matchLoop, realMatches]
  | cons file files ih =>
    intro x hlen hnames
    have hrest : ∀ f ∈ files, f.ffName.length ≤ 12 ∧ 0 ∉ f.ffName :=
      fun f hf => hnames f (List.mem_cons_of_mem _ hf)
    rw [matchLoop, realMatches, List.filter_cons]
    rcases hdots : isDots file.ffName with _ | _
    · simp only [Bool.false_eq_true, if_false, if_true, Bool.not_false, List.forall_mem_cons]
      by_cases hok : Showable file
      · obtain ⟨hname, hnul⟩ := hnames file List.mem_cons_self
        obtain ⟨x', hx', hlen'⟩ := showMatch_some hlen hname hnul hok
        rw [hx', Option.bind_some, ih hlen' hrest]
        exact ⟨fun h => ⟨hok, h⟩, fun h => h.2⟩
      · rw [showMatch_none hlen hok]
        exact ⟨fun h => absurd h (by simp), fun h => absurd h.1 hok⟩
    · exact ih hlen hrest

/-! ## The longest common prefix -/

/-- A name as it stands in `fname`. -/
def matchedName (makelower : Bool) (file : Ffblk) : Str :=
  casedName makelower file ++ [if file.ffAttrib = faDirec then 92 else 32]

theorem Plain.lower (h : Plain s) : Plain (s.map tolower) := by
  intro c hc
  obtain ⟨e, he, rfl⟩ := List.mem_map.mp hc
  have hne := h e he
  rw [tolower]
  split
  · rename_i hupper
    refine ⟨?_, ?_, ?_⟩ <;> rintro heq <;> have := congrArg UInt8.toNat heq <;>
      simp [UInt8.toNat_add] at this <;> omega
  · exact hne

theorem plain_casedName (h : Plain file.ffName) : Plain (casedName makelower file) := by
  rw [casedName]
  split
  · exact h.lower
  · exact h

theorem length_casedName : (casedName makelower file).length = file.ffName.length := by
  rw [casedName]
  split
  · exact List.length_map _
  · rfl

/-- A name with the character that ends it. -/
def EndedName (n : Str) : Prop := ∃ s c, n = s ++ [c] ∧ Plain s ∧ (c = 92 ∨ c = 32)

theorem ended_matchedName (h : Plain file.ffName) : EndedName (matchedName makelower file) := by
  refine ⟨_, _, rfl, plain_casedName h, ?_⟩
  split
  · exact Or.inl rfl
  · exact Or.inr rfl

theorem EndedName.nul_not_mem (h : EndedName s) : 0 ∉ s := by
  obtain ⟨n, c, rfl, hplain, hc⟩ := h
  intro hmem
  rcases List.mem_append.mp hmem with hn | hlast
  · exact (hplain 0 hn).1 rfl
  · rw [List.mem_singleton] at hlast
    rcases hc with rfl | rfl <;> exact absurd hlast (by decide)

/-- No name begins with another one. -/
theorem EndedName.eq_of_starts {t : Str} (hs : EndedName s) (ht : EndedName t) (h : s <+: t) : s = t := by
  obtain ⟨m, c, rfl, -, hc⟩ := hs
  obtain ⟨n, d, rfl, hplain, -⟩ := ht
  rcases List.prefix_concat_iff.mp h with heq | hshort
  · exact heq
  · have hmem := hplain c (hshort.subset (List.mem_append_right m (List.mem_singleton_self c)))
    rcases hc with rfl | rfl
    · exact absurd rfl hmem.2.2
    · exact absurd rfl hmem.2.1

/-- The comparison stops where the strings differ, or where one of them ends. -/
theorem cutMismatch_spec {m f : Bytes} : ∀ {s t q : Str} {fuel : ℕ}, Holds m 0 (q ++ s) →
    Holds f 0 (q ++ t) → s.length < fuel →
    ((s <+: t ∨ t <+: s) ∧ cutMismatch f fuel q.length m = some (false, m)) ∨
    ∃ r c d x y m', c ≠ d ∧ s = r ++ c :: x ∧ t = r ++ d :: y ∧
      cutMismatch f fuel q.length m = some (true, m') ∧ Holds m' 0 (q ++ r) ∧
      m'.length = m.length := by
  intro s
  induction s with
  | nil =>
    intro t q fuel hm hf hfuel
    obtain ⟨fuel, rfl⟩ := Nat.exists_eq_add_one_of_ne_zero (Nat.ne_zero_of_lt hfuel)
    rw [List.append_nil] at hm
    have hget : m[q.length]? = some 0 := by simpa using hm.get_nul
    refine Or.inl ⟨Or.inl List.nil_prefix, ?_⟩
    simp only [cutMismatch, hget, if_true]
  | cons c s ih =>
    intro t q fuel hm hf hfuel
    obtain ⟨fuel, rfl⟩ := Nat.exists_eq_add_one_of_ne_zero (Nat.ne_zero_of_lt hfuel)
    have hget : m[q.length]? = some c := by
      simpa using hm.get (j := q.length) (by simp)
    have hc : c ≠ 0 := by
      rintro rfl
      exact hm.2 (by simp)
    cases t with
    | nil =>
      rw [List.append_nil] at hf
      have hend : f[q.length]? = some 0 := by simpa using hf.get_nul
      refine Or.inl ⟨Or.inr List.nil_prefix, ?_⟩
      simp only [cutMismatch, hget, hc, if_false, hend, if_true]
    | cons d t =>
      have hgetf : f[q.length]? = some d := by
        simpa using hf.get (j := q.length) (by simp)
      have hd : d ≠ 0 := by
        rintro rfl
        exact hf.2 (by simp)
      by_cases hcd : c = d
      · subst hcd
        have hstep : cutMismatch f (fuel + 1) q.length m = cutMismatch f fuel (q ++ [c]).length m := by
          simp only [cutMismatch, hget, hc, if_false, hgetf, ne_eq, not_true,
            List.length_append, List.length_singleton]
        rw [hstep]
        have hrest := @ih t (q ++ [c]) fuel (by simpa using hm) (by simpa using hf)
          (Nat.lt_of_succ_lt_succ hfuel)
        rcases hrest with ⟨hpre, heq⟩ | ⟨r, c', d', x, y, m', hne, rfl, rfl, heq, hm', hlen⟩
        · exact Or.inl ⟨hpre.imp (List.prefix_cons_inj c).mpr (List.prefix_cons_inj c).mpr, heq⟩
        · exact Or.inr ⟨c :: r, c', d', x, y, m', hne, rfl, rfl, heq, by simpa using hm', hlen⟩
      · obtain ⟨m', hm', -⟩ := store_restore hget 0
        refine Or.inr ⟨[], c, d, s, t, m', hcd, rfl, rfl, ?_, ?_, length_write hm'⟩
        · simp only [cutMismatch, hget, hc, if_false, hgetf, hd, ne_eq, hcd, not_false_eq_true,
            if_true, hm', Option.map_some]
        · rw [List.append_nil]
          exact hm.cut (by rwa [Nat.zero_add])

/-- `maxmatch` is the longest common prefix of the names, and not empty unless they have been found
to differ. -/
structure Matching (names : List Str) (x : Completing) : Prop where
  fname_length : x.fname.length = 14
  maxmatch_length : x.maxmatch.length = 13
  holds : ∃ p, Holds x.maxmatch 0 p ∧ LongestCommonPrefix names p ∧
    (p = [] → x.perfectmatch = false)

theorem compareMatch_eq {x : Completing} {p : Str} (hp : Holds x.maxmatch 0 p)
    (hflag : p = [] → x.perfectmatch = false) :
    compareMatch x = (cutMismatch x.fname x.maxmatch.length 0 x.maxmatch).map fun r =>
      { x with maxmatch := r.2, perfectmatch := x.perfectmatch && !r.1 } := by
  obtain ⟨rest, hrest⟩ := hp.drop_eq
  rw [List.drop_zero] at hrest
  rw [compareMatch]
  cases p with
  | nil => simp [hrest, hflag rfl]
  | cons c p =>
    have hc : c ≠ 0 := by
      rintro rfl
      exact hp.2 List.mem_cons_self
    simp [hrest, hc]

/-- One more name. -/
theorem Matching.compare {names : List Str} {x : Completing} (h : Matching names x) (hne : names ≠ [])
    (hended : ∀ m ∈ names, EndedName m) (hs : EndedName s) (hf : Holds x.fname 0 s) :
    ∃ x', compareMatch x = some x' ∧ Matching (names ++ [s]) x' := by
  obtain ⟨p, hp, hlcp, hflag⟩ := h.holds
  have hlt := hp.length_lt
  rw [Nat.zero_add] at hlt
  rw [compareMatch_eq hp hflag]
  rcases cutMismatch_spec (q := []) hp hf hlt with ⟨hpre, heq⟩ | ⟨r, c, d, y, z, m, hcd, rfl, rfl, heq, hm, hlen⟩
  · -- The name cannot be shorter, as then it would be the front of another one.
    have hfront : p <+: s := by
      rcases hpre with hfront | hback
      · exact hfront
      · obtain ⟨m, hmem⟩ := List.exists_mem_of_ne_nil names hne
        have hpm := hlcp.common m hmem
        rw [hs.eq_of_starts (hended m hmem) (hback.trans hpm)]
        exact hpm
    rw [List.length_nil] at heq
    refine ⟨{ x with perfectmatch := x.perfectmatch && !false }, by rw [heq]; rfl, h.1, h.2,
      p, hp, hlcp.keep hfront, fun hnil => ?_⟩
    simp [hflag hnil]
  · rw [List.length_nil] at heq
    refine ⟨{ x with maxmatch := m, perfectmatch := x.perfectmatch && !true }, by rw [heq]; rfl, h.1,
      hlen.trans h.2, r, hm, hlcp.cut hcd, fun _ => ?_⟩
    simp

/-- What the arrays are like in front of the first match. -/
structure Unmatched (x : Completing) : Prop where
  fname_length : x.fname.length = 14
  maxmatch_length : x.maxmatch.length = 13
  empty : x.maxmatch[0]? = some 0
  perfect : x.perfectmatch = true

/-- `fname` is filled. -/
theorem takeMatch_eq (makelower : Bool) {x : Completing} (hlen : x.fname.length = 14) (hname : file.ffName.length ≤ 12)
    (hplain : Plain file.ffName) : ∃ fname, fname.length = 14 ∧
      Holds fname 0 (matchedName makelower file) ∧
      takeMatch makelower file x = compareMatch { x with fname := fname } := by
  have hnul : 0 ∉ file.ffName := fun hmem => (hplain 0 hmem).1 rfl
  obtain ⟨b, hb⟩ := Option.isSome_iff_exists.mp
    ((strcpy_isSome (b := x.fname) (i := 0) (s := file.ffName)).mpr (by omega))
  have hholds := holds_strcpy hb hnul
  have hlenb : b.length = 14 := (length_strcpy hb).trans hlen
  obtain ⟨b', hb', hlen', hcased⟩ : ∃ b', (if makelower then strlwr b else some b) = some b' ∧
      b'.length = 14 ∧ Holds b' 0 (casedName makelower file) := by
    cases makelower with
    | false => exact ⟨b, rfl, hlenb, hholds⟩
    | true =>
      have hend : Holds b (0 + (file.ffName.map tolower).length) [] := by
        have htail := Holds.tail (s := file.ffName) (t := []) (by rwa [List.append_nil])
        rwa [List.length_map]
      obtain ⟨b', hb'⟩ := Option.isSome_iff_exists.mp
        ((write_isSome (b := b) (i := 0) (s := file.ffName.map tolower)).mpr (by
          rw [List.length_map]
          omega))
      refine ⟨b', ?_, (length_write hb').trans hlenb, ?_⟩
      · rw [if_pos rfl, strlwr, hholds.str]
        exact hb'
      · have hput := hend.prepend hb' fun hmem => (hplain.lower 0 hmem).1 rfl
        rwa [List.append_nil] at hput
  obtain ⟨fname, hfname⟩ := Option.isSome_iff_exists.mp
    ((hcased.strcat_isSome (s := [if file.ffAttrib = faDirec then 92 else 32])).mpr (by
      rw [length_casedName, List.length_singleton]
      omega))
  have hterm : (0 : UInt8) ∉ [if file.ffAttrib = faDirec then (92 : UInt8) else 32] := by
    split <;> decide
  refine ⟨fname, ?_, hcased.strcat hfname hterm, ?_⟩
  · have heq := hcased.strcat_eq (s := [if file.ffAttrib = faDirec then 92 else 32])
    rw [heq] at hfname
    exact (length_strcpy hfname).trans hlen'
  · simp only [takeMatch, hb, hb', hfname, Option.bind_some]

/-- The first match has room in `maxmatch`. -/
theorem Unmatched.take (makelower : Bool) {x : Completing} (h : Unmatched x) (hname : file.ffName.length ≤ 11)
    (hplain : Plain file.ffName) :
    ∃ x', takeMatch makelower file x = some x' ∧ Matching [matchedName makelower file] x' := by
  obtain ⟨fname, hlen, hholds, heq⟩ := takeMatch_eq makelower h.1 (Nat.le_succ_of_le hname) hplain
  obtain ⟨m, hm⟩ := Option.isSome_iff_exists.mp
    ((strcpy_isSome (b := x.maxmatch) (i := 0) (s := matchedName makelower file)).mpr (by
      rw [matchedName, List.length_append, length_casedName, List.length_singleton, h.2]
      omega))
  refine ⟨{ x with fname := fname, maxmatch := m }, ?_, hlen, (length_strcpy hm).trans h.2, _,
    holds_strcpy hm (ended_matchedName hplain).nul_not_mem, .singleton _, fun hnil => ?_⟩
  · rw [heq, compareMatch, h.empty]
    simp [h.perfect, hholds.str, hm]
  · simp [matchedName] at hnil

theorem Unmatched.take_none (makelower : Bool) {x : Completing} (h : Unmatched x) (hname : file.ffName.length = 12)
    (hplain : Plain file.ffName) : takeMatch makelower file x = none := by
  obtain ⟨fname, hlen, hholds, heq⟩ := takeMatch_eq makelower h.1 (Nat.le_of_eq hname) hplain
  have hfull : strcpy x.maxmatch 0 (matchedName makelower file) = none := by
    rw [← Option.not_isSome_iff_eq_none, strcpy_isSome, matchedName, List.length_append,
      length_casedName, List.length_singleton, h.2]
    omega
  rw [heq, compareMatch, h.empty]
  simp [h.perfect, hholds.str, hfull]

/-- A later match. -/
theorem Matching.take (makelower : Bool) {names : List Str} {x : Completing} (h : Matching names x) (hne : names ≠ [])
    (hended : ∀ m ∈ names, EndedName m) (hname : file.ffName.length ≤ 12) (hplain : Plain file.ffName) :
    ∃ x', takeMatch makelower file x = some x' ∧
      Matching (names ++ [matchedName makelower file]) x' := by
  obtain ⟨fname, hlen, hholds, heq⟩ := takeMatch_eq makelower h.1 hname hplain
  have hx : Matching names { x with fname := fname } := ⟨hlen, h.2, h.3⟩
  rw [heq]
  exact hx.compare hne hended (ended_matchedName hplain) hholds

/-- The rest of the matches. -/
theorem Matching.loop (makelower : Bool) : ∀ {files : List Ffblk} {names : List Str} {x : Completing},
    Matching names x → names ≠ [] → (∀ m ∈ names, EndedName m) →
    (∀ f ∈ files, f.ffName.length ≤ 12 ∧ Plain f.ffName) →
    ∃ x', matchLoop makelower false files x = some x' ∧
      Matching (names ++ (realMatches files).map (matchedName makelower)) x' := by
  intro files
  induction files with
  | nil => exact fun h _ _ _ => ⟨_, rfl, by simpa [realMatches] using h⟩
  | cons file files ih =>
    intro names x h hne hended hfiles
    obtain ⟨hname, hplain⟩ := hfiles file List.mem_cons_self
    have hrest : ∀ f ∈ files, f.ffName.length ≤ 12 ∧ Plain f.ffName :=
      fun f hf => hfiles f (List.mem_cons_of_mem _ hf)
    rw [matchLoop, realMatches, List.filter_cons]
    rcases hdots : isDots file.ffName with _ | _
    · obtain ⟨x', hx', h'⟩ := h.take makelower hne hended hname hplain
      obtain ⟨x₂, hx₂, h₂⟩ := ih h' (by simp) (fun m hm => by
        rcases List.mem_append.mp hm with hold | hnew
        · exact hended m hold
        · rw [List.mem_singleton.mp hnew]
          exact ended_matchedName hplain) hrest
      refine ⟨x₂, ?_, ?_⟩
      · simp only [Bool.false_eq_true, if_false, hx', Option.bind_some, hx₂]
      · simpa [realMatches] using h₂
    · exact ih h hne hended hrest

/-- The loop, in front of the first match. -/
theorem Unmatched.loop (makelower : Bool) : ∀ {files : List Ffblk} {x : Completing}, Unmatched x →
    (∀ f ∈ files, f.ffName.length ≤ 12 ∧ Plain f.ffName) →
    match realMatches files with
    | [] => matchLoop makelower false files x = some x
    | f :: _ =>
      if f.ffName.length ≤ 11 then
        ∃ x', matchLoop makelower false files x = some x' ∧
          Matching ((realMatches files).map (matchedName makelower)) x'
      else matchLoop makelower false files x = none := by
  intro files
  induction files with
  | nil => exact fun _ _ => rfl
  | cons file files ih =>
    intro x h hfiles
    obtain ⟨hname, hplain⟩ := hfiles file List.mem_cons_self
    have hrest : ∀ f ∈ files, f.ffName.length ≤ 12 ∧ Plain f.ffName :=
      fun f hf => hfiles f (List.mem_cons_of_mem _ hf)
    rcases hdots : isDots file.ffName with _ | _
    · have hreal : realMatches (file :: files) = file :: realMatches files := by
        rw [realMatches, List.filter_cons, if_pos (by simp [hdots]), realMatches]
      rw [hreal, matchLoop]
      simp only [hdots, Bool.false_eq_true, if_false]
      split
      · rename_i hshort
        obtain ⟨x', hx', h'⟩ := h.take makelower hshort hplain
        obtain ⟨x₂, hx₂, h₂⟩ := h'.loop makelower (by simp) (fun m hm => by
          rw [List.mem_singleton.mp hm]
          exact ended_matchedName hplain) hrest
        exact ⟨x₂, by rw [hx', Option.bind_some, hx₂], h₂⟩
      · rw [h.take_none makelower (by omega) hplain]
        rfl
    · have hreal : realMatches (file :: files) = realMatches files := by
        rw [realMatches, List.filter_cons, if_neg (by simp [hdots]), realMatches]
      rw [hreal, matchLoop]
      simp only [hdots, if_true]
      exact ih h hrest

/-! ## The ends of the names -/

theorem Listing.names (h : Listing files) : ∀ f ∈ files, f.ffName.length ≤ 12 ∧ Plain f.ffName :=
  fun f hf => ⟨h.length_le f hf, h.plain f hf⟩

theorem Listing.real (h : Listing files) : Listing (realMatches files) where
  length_le f hf := h.length_le f (List.mem_of_mem_filter hf)
  plain f hf := h.plain f (List.mem_of_mem_filter hf)
  distinct := h.distinct.sublist List.filter_sublist

theorem casedName_ne {f g : Ffblk} (h : f.ffName.map tolower ≠ g.ffName.map tolower) :
    casedName makelower f ≠ casedName makelower g := by
  rw [casedName, casedName]
  split
  · exact h
  · exact fun heq => h (congrArg (List.map tolower) heq)

theorem matchedName_eq_endedName : matchedName makelower file = endedName makelower file ↔
    (file.ffAttrib &&& faDirec ≠ 0 → file.ffAttrib = faDirec) := by
  rw [matchedName, endedName, List.append_cancel_left_eq, List.cons.injEq]
  by_cases hdir : file.ffAttrib = faDirec
  · have hbit : file.ffAttrib &&& faDirec ≠ 0 := by
      rw [hdir]
      decide
    rw [if_pos hdir, if_pos hbit]
    exact ⟨fun _ _ => hdir, fun _ => ⟨rfl, rfl⟩⟩
  · by_cases hbit : file.ffAttrib &&& faDirec = 0 <;> simp [hdir, hbit]

/-- The ends of two or more names that are all different do not matter. -/
theorem common_ended_iff (makelower : Bool) {f g : Ffblk} (h : Listing (f :: g :: files)) (last : Ffblk → UInt8)
    (hlast : ∀ f, last f = 92 ∨ last f = 32) (q : Str) :
    (∀ n ∈ (f :: g :: files).map (fun e => casedName makelower e ++ [last e]), q <+: n) ↔
      ∀ e ∈ f :: g :: files, q <+: casedName makelower e := by
  have hended : ∀ e ∈ f :: g :: files, EndedName (casedName makelower e ++ [last e]) :=
    fun e he => ⟨_, _, rfl, plain_casedName (h.plain e he), hlast e⟩
  have hother : ∀ e ∈ f :: g :: files, ∃ e' ∈ f :: g :: files,
      casedName makelower e ≠ casedName makelower e' := by
    intro e he
    have hpair := List.pairwise_cons.mp h.distinct
    rcases List.mem_cons.mp he with rfl | htail
    · exact ⟨g, by simp, casedName_ne (hpair.1 g List.mem_cons_self)⟩
    · exact ⟨f, List.mem_cons_self, (casedName_ne (hpair.1 e htail)).symm⟩
  constructor
  · intro hall e he
    rcases List.prefix_concat_iff.mp (hall _ (List.mem_map_of_mem he)) with rfl | hshort
    · obtain ⟨e', he', hne⟩ := hother e he
      have heq := (hended e he).eq_of_starts (hended e' he') (hall _ (List.mem_map_of_mem he'))
      exact absurd (List.append_inj_left' heq rfl) hne
    · exact hshort
  · intro hall n hn
    obtain ⟨e, he, rfl⟩ := List.mem_map.mp hn
    exact (hall e he).trans (List.prefix_append _ _)

/-- So the longest common prefix is the same for the right ends. -/
theorem longest_ended_iff {f g : Ffblk} (h : Listing (f :: g :: files)) :
    LongestCommonPrefix ((f :: g :: files).map (matchedName makelower)) s ↔
      LongestCommonPrefix ((f :: g :: files).map (endedName makelower)) s := by
  refine longestCommonPrefix_congr fun q => ?_
  have hmatched := common_ended_iff makelower h
    (fun e => if e.ffAttrib = faDirec then 92 else 32) (fun e => by split <;> simp) q
  have hended := common_ended_iff makelower h
    (fun e => if e.ffAttrib &&& faDirec ≠ 0 then 92 else 32) (fun e => by split <;> simp) q
  exact hmatched.trans hended.symm

/-- What has matched is what the names have in common, unless the only match is a directory with a
further attribute. -/
theorem matched_longest_iff (h : Listing files) (hne : files ≠ [])
    (hs : LongestCommonPrefix (files.map (matchedName makelower)) s) :
    LongestCommonPrefix (files.map (endedName makelower)) s ↔
      ∀ f, files = [f] → f.ffAttrib &&& faDirec ≠ 0 → f.ffAttrib = faDirec := by
  match files with
  | [] => exact absurd rfl hne
  | [f] =>
    have heq : s = matchedName makelower f := hs.unique (.singleton _)
    subst heq
    rw [show (∀ g, [f] = [g] → g.ffAttrib &&& faDirec ≠ 0 → g.ffAttrib = faDirec) ↔
      (f.ffAttrib &&& faDirec ≠ 0 → f.ffAttrib = faDirec) by simp, ← matchedName_eq_endedName]
    refine ⟨fun hlong => hlong.unique (.singleton _), fun heq => ?_⟩
    rw [heq]
    exact .singleton _
  | f :: g :: rest =>
    rw [← longest_ended_iff h]
    exact ⟨fun _ e he => by simp at he, fun _ => hs⟩

theorem longest_fits_iff (h : Listing files) (hne : files ≠ [])
    (hs : LongestCommonPrefix (files.map (matchedName makelower)) s) (front : Str) (maxlen : ℕ) :
    (∀ p, (∀ f ∈ files, p <+: endedName makelower f) → (front ++ p).length < maxlen) ↔
      (front ++ s).length < maxlen := by
  match files with
  | [] => exact absurd rfl hne
  | [f] =>
    have hlen : s.length = (endedName makelower f).length := by
      rw [hs.unique (.singleton _), matchedName, endedName, List.length_append, List.length_append]
      rfl
    simp only [List.mem_singleton, forall_eq, List.length_append, hlen]
    refine ⟨fun hall => hall _ List.prefix_rfl, fun hlt p hp => ?_⟩
    have hle := hp.length_le
    omega
  | f :: g :: rest =>
    rw [longest_ended_iff h] at hs
    refine ⟨fun hall => hall s fun e he => hs.common _ (List.mem_map_of_mem he), fun hlt p hp => ?_⟩
    have hpre : p <+: s := hs.longest p fun n hn => by
      obtain ⟨e, he, rfl⟩ := List.mem_map.mp hn
      exact hp e he
    have hle := hpre.length_le
    rw [List.length_append] at hlt ⊢
    omega

/-! ## The line -/

theorem endsLower_eq (h : Holds b 0 line) :
    (line.length ≠ 0 && (b[line.length - 1]?.map islower).getD false) = endsLower line := by
  rcases List.eq_nil_or_concat line with rfl | ⟨s, c, rfl⟩
  · rfl
  · rw [List.concat_eq_append] at *
    have hget := h.get (j := s.length) (by simp)
    rw [Nat.zero_add] at hget
    simp [endsLower, hget]

/-- The word is replaced. -/
theorem replaceWord_eq (h : Holds b 0 line) (hfiles : Listing files)
    (hne : realMatches files ≠ []) (hfirst : ∀ f, (realMatches files).head? = some f →
      f.ffName.length ≤ 11) :
    ∃ p, LongestCommonPrefix ((realMatches files).map (matchedName (endsLower line))) p ∧
      if (beforeWord line ++ wordDirectory (lastWord line) ++ p).length < b.length then
        ∃ r, replaceWord b line.length false (beforeWord line).length (wordDirectory (lastWord line))
          files = some r ∧ r.line.length = b.length ∧
            Holds r.line 0 (beforeWord line ++ wordDirectory (lastWord line) ++ p)
      else replaceWord b line.length false (beforeWord line).length (wordDirectory (lastWord line))
        files = none := by
  have hnew : Unmatched newCompleting := ⟨rfl, rfl, rfl, rfl⟩
  have hloop := hnew.loop (endsLower line) hfiles.names
  obtain ⟨f, rest, hreal⟩ := List.exists_cons_of_ne_nil hne
  rw [hreal] at hloop hfirst ⊢
  simp only [if_pos (hfirst f rfl)] at hloop
  obtain ⟨x, hx, hmatching⟩ := hloop
  obtain ⟨p, hp, hlong, -⟩ := hmatching.holds
  refine ⟨p, hlong, ?_⟩
  have hword := holds_word h
  rw [← directory_append_name (lastWord line)] at hword
  have hlt := hword.length_lt
  rw [List.length_append] at hlt
  obtain ⟨b₁, hb₁⟩ := Option.isSome_iff_exists.mp
    ((strcpy_isSome (b := b) (i := (beforeWord line).length)
      (s := wordDirectory (lastWord line))).mpr (by omega))
  have hdir := holds_strcpy hb₁ fun hmem => hword.2 (List.mem_append_left _ hmem)
  have hfits := hdir.strcat_isSome (s := p)
  rw [length_strcpy hb₁] at hfits
  have heq : replaceWord b line.length false (beforeWord line).length
      (wordDirectory (lastWord line)) files =
      (strcat b₁ (beforeWord line).length p).map fun b => ⟨x.perfectmatch, b, []⟩ := by
    simp only [replaceWord, endsLower_eq h, hx, hb₁, hp.str, Option.bind_some, Bool.false_eq_true,
      if_false]
  rw [heq]
  have hlen : (beforeWord line ++ wordDirectory (lastWord line) ++ p).length =
      (beforeWord line).length + (wordDirectory (lastWord line)).length + p.length := by
    simp only [List.length_append]
  rw [hlen]
  split
  · rename_i hroom
    obtain ⟨b₂, hb₂⟩ := Option.isSome_iff_exists.mp (hfits.mpr hroom)
    refine ⟨⟨x.perfectmatch, b₂, []⟩, by rw [hb₂]; rfl,
      (hdir.length_strcat hb₂).trans (length_strcpy hb₁), ?_⟩
    have hend := hdir.strcat hb₂ hp.2
    rw [← before_append_word line] at h
    have htake : b₂.take (beforeWord line).length = beforeWord line := by
      rw [hdir.take_strcat hb₂, take_write hb₁, h.take]
    rw [List.append_assoc]
    exact hend.front htake fun hmem => h.2 (List.mem_append_left _ hmem)
  · rename_i hroom
    rw [Option.not_isSome_iff_eq_none.mp (mt hfits.mp hroom)]
    rfl

/-- Nothing but the directory is written. -/
theorem replaceWord_empty (h : Holds b 0 line) (hfiles : Listing files)
    (hnone : realMatches files = []) :
    ∃ r, replaceWord b line.length false (beforeWord line).length (wordDirectory (lastWord line))
      files = some r ∧ r.line.length = b.length ∧
        Holds r.line 0 (beforeWord line ++ wordDirectory (lastWord line)) := by
  have hnew : Unmatched newCompleting := ⟨rfl, rfl, rfl, rfl⟩
  have hloop := hnew.loop (endsLower line) hfiles.names
  rw [hnone] at hloop
  have hword := holds_word h
  rw [← directory_append_name (lastWord line)] at hword
  have hlt := hword.length_lt
  rw [List.length_append] at hlt
  obtain ⟨b₁, hb₁⟩ := Option.isSome_iff_exists.mp
    ((strcpy_isSome (b := b) (i := (beforeWord line).length)
      (s := wordDirectory (lastWord line))).mpr (by omega))
  have hdir := holds_strcpy hb₁ fun hmem => hword.2 (List.mem_append_left _ hmem)
  have hempty : str newCompleting.maxmatch 0 = some [] := by decide
  obtain ⟨b₂, hb₂⟩ := Option.isSome_iff_exists.mp ((hdir.strcat_isSome (s := [])).mpr (by
    rw [length_strcpy hb₁, List.length_nil]
    omega))
  refine ⟨⟨newCompleting.perfectmatch, b₂, []⟩, ?_,
    (hdir.length_strcat hb₂).trans (length_strcpy hb₁), ?_⟩
  · simp only [replaceWord, endsLower_eq h, hloop, hb₁, hempty, hb₂, Option.bind_some,
      Bool.false_eq_true, if_false, Option.map_some]
  · have hend := hdir.strcat hb₂ List.not_mem_nil
    rw [List.append_nil] at hend
    rw [← before_append_word line] at h
    have htake : b₂.take (beforeWord line).length = beforeWord line := by
      rw [hdir.take_strcat hb₂, take_write hb₁, h.take]
    exact hend.front htake fun hmem => h.2 (List.mem_append_left _ hmem)

/-- The line with its last word completed. -/
def completion (line : Str) (files : List Ffblk) : Str :=
  beforeWord line ++ wordDirectory (lastWord line) ++
    longestPrefix ((realMatches files).map (matchedName (endsLower line)))

theorem replaceWord_spec (h : Holds b 0 line) (hfiles : Listing files)
    (hfirst : ∀ f, (realMatches files).head? = some f → f.ffName.length ≤ 11)
    (hroom : (completion line files).length < b.length) :
    ∃ r, replaceWord b line.length false (beforeWord line).length (wordDirectory (lastWord line))
      files = some r ∧ r.line.length = b.length ∧ Holds r.line 0 (completion line files) := by
  by_cases hne : realMatches files = []
  · rw [completion, hne, List.map_nil, longestPrefix, List.append_nil]
    exact replaceWord_empty h hfiles hne
  · obtain ⟨p, hlong, hcase⟩ := replaceWord_eq h hfiles hne hfirst
    have heq : longestPrefix ((realMatches files).map (matchedName (endsLower line))) = p :=
      (longestPrefix_spec fun hnil => hne (List.map_eq_nil_iff.mp hnil)).unique hlong
    rw [completion, heq] at hroom ⊢
    rwa [if_pos hroom] at hcase

/-- When there are matches, the word is replaced by what it should be if they are completable. -/
theorem replaceWord_iff (h : Holds b 0 line) (hfiles : Listing files)
    (hne : realMatches files ≠ []) :
    (∃ r, replaceWord b line.length false (beforeWord line).length (wordDirectory (lastWord line))
      files = some r ∧ Completes line (realMatches files) r.line) ↔
      Completable line b.length (realMatches files) := by
  by_cases hfirst : ∀ f, (realMatches files).head? = some f → f.ffName.length ≤ 11
  · obtain ⟨p, hlong, hcase⟩ := replaceWord_eq h hfiles hne hfirst
    have hroom := longest_fits_iff hfiles.real hne hlong
      (beforeWord line ++ wordDirectory (lastWord line)) b.length
    have hends := matched_longest_iff hfiles.real hne hlong
    split at hcase
    · rename_i hlt
      obtain ⟨r, hr, -, hholds⟩ := hcase
      have hcompletes : Completes line (realMatches files) r.line ↔
          LongestCommonPrefix ((realMatches files).map (endedName (endsLower line))) p := by
        refine ⟨fun ⟨q, hq, hq'⟩ => ?_, fun hp => ⟨p, hp, hholds⟩⟩
        rwa [← List.append_cancel_left (hq'.unique hholds)]
      simp only [hr, Option.some.injEq, exists_eq_left', hcompletes, hends]
      exact ⟨fun hattrib => ⟨hfirst, fun _ => hroom.mpr hlt, hattrib⟩, fun hc => hc.attrib⟩
    · rename_i hlt
      rw [hcase]
      exact ⟨fun ⟨_, hr, _⟩ => absurd hr (by simp), fun hc => absurd (hroom.mp (hc.room hne)) hlt⟩
  · refine ⟨fun ⟨r, hr, _⟩ => ?_, fun hc => absurd hc.first hfirst⟩
    have hnew : Unmatched newCompleting := ⟨rfl, rfl, rfl, rfl⟩
    have hloop := hnew.loop (endsLower line) hfiles.names
    obtain ⟨f, rest, hreal⟩ := List.exists_cons_of_ne_nil hne
    rw [hreal] at hloop hfirst
    simp only [List.head?_cons, Option.some.injEq, forall_eq'] at hfirst
    simp only [if_neg hfirst] at hloop
    rw [replaceWord, endsLower_eq h] at hr
    simp [hloop] at hr

theorem completable_nil (line : Str) (maxlen : ℕ) : Completable line maxlen [] :=
  ⟨fun _ hf => absurd hf (by simp), fun hne => absurd rfl hne, fun _ hf => absurd hf (by simp)⟩

theorem replaceWord_show (h : Holds b 0 line) (hfiles : Listing files) :
    (replaceWord b line.length true (beforeWord line).length (wordDirectory (lastWord line))
      files).isSome ↔ ∀ f ∈ realMatches files, Showable f := by
  have hloop := @showLoop_isSome (endsLower line) files newCompleting
    rfl fun f hf => ⟨hfiles.length_le f hf, fun hmem => (hfiles.plain f hf 0 hmem).1 rfl⟩
  rw [← hloop, replaceWord, endsLower_eq h]
  cases matchLoop (endsLower line) true files newCompleting <;> simp

theorem findMatches_eq (lfncomplete : Bool) (find : Str → List Ffblk) (path : Str) :
    findMatches lfncomplete find path =
      if lfncomplete then if find path = [] then none else some none
      else if find path = [] then some none else some (some (find path)) := by
  rw [findMatches.eq_def]
  generalize find path = files
  cases lfncomplete <;> cases files <;> rfl

theorem doComplete_eq (h : Holds b 0 line) (hpattern : (completionPattern line).length < 128) :
    doComplete lfncomplete find b line.length show' =
      (findMatches lfncomplete find (completionPattern line)).bind fun
        | none => some ⟨false, b, []⟩
        | some files => replaceWord b line.length show' (beforeWord line).length
          (wordDirectory (lastWord line)) files := by
  rw [doComplete, splitWord_eq h, if_pos hpattern]
  rfl

/-- The line is left as it is when the matches are shown. -/
theorem replaceWord_line {charcount start : ℕ} {dir : Str} {r : Completed}
    (h : replaceWord b charcount true start dir files = some r) : r.line = b := by
  obtain ⟨x, -, hx⟩ := Option.bind_eq_some_iff.mp h
  rw [if_pos rfl, Option.some.injEq] at hx
  rw [← hx]

/-- **When a file name is completed.**  The pattern has to be shorter than the array `path`.  When
the matches are shown, a directory is to have eleven characters at most.  When the word is
completed, so is the first match, the line has to have room for what the names have in common, and
the only match is not to be a directory with a further attribute.  With `lfncomplete` something has
to be found, and nothing is completed then. -/
theorem doComplete_iff (h : Holds b 0 line) (hfound : find (completionPattern line) = files)
    (hfiles : Listing files) :
    (∃ r, doComplete lfncomplete find b line.length show' = some r ∧
      (show' = false → realMatches files ≠ [] → Completes line (realMatches files) r.line)) ↔
    (completionPattern line).length < 128 ∧
      if lfncomplete then files ≠ [] ∧ (show' = false → realMatches files ≠ [] →
        LongestCommonPrefix ((realMatches files).map (endedName (endsLower line)))
          (afterLast endsDirectory (lastWord line)))
      else if show' then ∀ f ∈ realMatches files, Showable f
      else Completable line b.length (realMatches files) := by
  rw [doComplete, splitWord_eq h]
  split
  · rename_i hpattern
    have hkept : realMatches files ≠ [] → (Completes line (realMatches files) b ↔
        LongestCommonPrefix ((realMatches files).map (endedName (endsLower line)))
          (afterLast endsDirectory (lastWord line))) := by
      intro _
      have hline : beforeWord line ++ wordDirectory (lastWord line) ++
          afterLast endsDirectory (lastWord line) = line := by
        rw [List.append_assoc, directory_append_name, before_append_word]
      refine ⟨fun ⟨q, hq, hq'⟩ => ?_, fun hp => ⟨_, hp, by rwa [hline]⟩⟩
      rwa [← List.append_cancel_left ((hq'.unique h).trans hline.symm)]
    simp only [Option.bind_some, hpattern, true_and, findMatches_eq, hfound]
    cases lfncomplete with
    | true =>
      simp only [if_true]
      by_cases hnone : files = []
      · simp [hnone]
      · simp only [hnone, if_false, Option.bind_some, Option.some.injEq, exists_eq_left', ne_eq,
          not_false_eq_true, true_and]
        exact ⟨fun hc hs hr => (hkept hr).mp (hc hs hr), fun hc hs hr => (hkept hr).mpr (hc hs hr)⟩
    | false =>
      simp only [Bool.false_eq_true, if_false]
      by_cases hnone : files = []
      · have hreal : realMatches files = [] := by
          rw [hnone]
          rfl
        refine iff_of_true ⟨_, by rw [if_pos hnone]; rfl, fun _ hr => absurd hreal hr⟩ ?_
        rw [hreal]
        split
        · exact fun _ hf => absurd hf (by simp)
        · exact completable_nil line b.length
      · simp only [hnone, if_false, Option.bind_some]
        cases show' with
        | true =>
          simp only [Bool.true_eq_false, false_implies, and_true, if_true]
          rw [← replaceWord_show h hfiles, Option.isSome_iff_exists]
        | false =>
          simp only [Bool.false_eq_true, if_false, true_implies]
          by_cases hreal : realMatches files = []
          · obtain ⟨r, hr, -⟩ := replaceWord_empty h hfiles hreal
            refine iff_of_true ⟨r, hr, fun hr' => absurd hreal hr'⟩ ?_
            rw [hreal]
            exact completable_nil line b.length
          · simp only [hreal, ne_eq, not_false_eq_true, true_implies]
            exact replaceWord_iff h hfiles hreal
  · rename_i hpattern
    exact ⟨fun ⟨r, hr, _⟩ => absurd hr (by simp), fun hc => absurd hc.1 hpattern⟩

/-- The files `ABC` and `ABD`. -/
def abcAbd : List Ffblk := [⟨[65, 66, 67], 0x20⟩, ⟨[65, 66, 68], 0x20⟩]

/-- The line `A` becomes `AB`. -/
theorem doComplete_iff_ab :
    (∃ r, doComplete false (fun _ => abcAbd) [65, 0, 0, 0, 0, 0] 1 false = some r ∧
      Completes [65] (realMatches abcAbd) r.line) ∧
    (doComplete false (fun _ => abcAbd) [65, 0, 0, 0, 0, 0] 1 false).map (·.line) =
      some [65, 66, 0, 0, 0, 0] := by
  have hfiles : Listing abcAbd :=
    ⟨by decide, by simp [Plain, abcAbd], List.pairwise_pair.mpr (by decide)⟩
  have hline : Holds [65, 0, 0, 0, 0, 0] 0 [65] := ⟨⟨[0, 0, 0, 0], rfl⟩, by decide⟩
  have hreal : realMatches abcAbd = abcAbd := rfl
  have hne : realMatches abcAbd ≠ [] := by
    rw [hreal]
    exact List.cons_ne_nil _ _
  have hc : Completable [65] 6 (realMatches abcAbd) := by
    refine ⟨by decide, fun _ p hp => ?_, ?_⟩
    · have hlen := (hp _ List.mem_cons_self).length_le
      rw [List.append_assoc, List.length_append, List.length_append]
      exact Nat.lt_of_le_of_lt (Nat.add_le_add_left (Nat.add_le_add_left hlen _) _) (by decide)
    · rw [hreal]
      rintro f hf hdir
      exact absurd (List.cons.inj hf).2 (List.cons_ne_nil _ _)
  obtain ⟨r, hr, hcompletes⟩ := (@doComplete_iff _ _ _ false false
    (fun _ => abcAbd) hline rfl hfiles).mpr ⟨by decide, hc⟩
  exact ⟨⟨r, hr, hcompletes rfl hne⟩, by decide +kernel⟩

/-- The first match is `ABCDEFGH.TXT`. -/
theorem longest_first_name : ∃ b line files, Holds b 0 line ∧ line.length + 2 ≤ b.length ∧
    Listing files ∧ doComplete false (fun _ => files) b line.length false = none :=
  ⟨65 :: List.replicate 20 0, [65], [⟨[65, 66, 67, 68, 69, 70, 71, 72, 46, 84, 88, 84], 0x20⟩],
    ⟨⟨List.replicate 19 0, rfl⟩, by decide⟩, by decide,
    ⟨by decide, by simp [Plain], List.pairwise_singleton _ _⟩, by decide +kernel⟩

end Shell
end BurdahDos
