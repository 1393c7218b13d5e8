import BurdahDos.Dir.Find
import BurdahDos.Fcbs.Defs
import BurdahDos.Path.Canonical
import Mathlib

/-!
# Names in an FCB

`FcbParseFname` and `GetNameField`, which make the 11 bytes of a name out of text.  The way back is
`ConvertName83ToNameSZ`, "unfortunately, blanks are allowed in filenames", so that it works "from
the last blank backward".  The parser does not: to it a blank is the end of a field.

`firstWords` is what a name is after both, by `parse_text`.  `overlay_eq_iff` says for which
patterns and names the difference does not show.
-/

set_option autoImplicit false

namespace BurdahDos
namespace Fcbs

open File (Name)
open Dir (blank dot convertName83ToNameSZ convertNameSZToName83 convertLoop)
open BurdahDos.Path (Str Kernel Plain Component star quest colon)

/-! ## The code -/

/-- `PARSE_SKIP_LEAD_SEP` -/
def parseSkipLeadSep : UInt8 := 0x01
/-- `PARSE_DFLT_DRIVE` -/
def parseDfltDrive : UInt8 := 0x02
/-- `PARSE_BLNK_FNAME` -/
def parseBlnkFname : UInt8 := 0x04
/-- `PARSE_BLNK_FEXT` -/
def parseBlnkFext : UInt8 := 0x08

/-- `PARSE_RET_NOWILD` -/
def parseRetNowild : UInt8 := 0
/-- `PARSE_RET_WILD` -/
def parseRetWild : UInt8 := 1
/-- `PARSE_RET_BADDRIVE` -/
def parseRetBaddrive : UInt8 := 0xff

/-- `TestCmnSeps`: one of `:;,=+`, a blank or a tab. -/
def testCmnSeps (c : UInt8) : Bool := [0x3a, 0x3b, 0x2c, 0x3d, 0x2b, 0x20, 0x09].contains c

/-- `TestFieldSeps`: a control character, a blank or one of `/\"[]<>|.:;,=+`. -/
def testFieldSeps (c : UInt8) : Bool :=
  decide (c ≤ blank) || [0x2f, 0x5c, 0x22, 0x5b, 0x5d, 0x3c, 0x3e, 0x7c, 0x2e, 0x3a, 0x3b, 0x2c,
    0x3d, 0x2b].contains c

/-- `ParseSkipWh` -/
def parseSkipWh (s : Str) : Str := s.dropWhile fun c => c == blank || c == 0x09

/-- `GetNameField`: the field, whether it has wildcards, and what is left of the text. -/
def getNameField (up : UInt8 → UInt8) : ℕ → Str → List UInt8 × Bool × Str
  | 0, s => ([], false, s)
  | n + 1, [] => (List.replicate (n + 1) blank, false, [])
  | n + 1, c :: s =>
    if testFieldSeps c then (List.replicate (n + 1) blank, false, c :: s)
    else if c = star then (List.replicate (n + 1) quest, true, s)
    else
      let r := getNameField up n s
      (up c :: r.1, c == quest || r.2.1, r.2.2)

/-- A name from the bytes of its two fields. -/
def toName (bytes : List UInt8) : Name := Vector.ofFn fun i => bytes.getD i blank

/-- `FcbParseFname`: what it leaves in `wTestMode`, what is left of the text, and the FCB. -/
def fcbParseFname (k : Kernel) (wTestMode : UInt8) (lpFileName : Str) (f : Fcb) :
    UInt8 × Str × Fcb :=
  let s :=
    if wTestMode &&& parseSkipLeadSep ≠ 0 then lpFileName.dropWhile testCmnSeps else lpFileName
  let s := parseSkipWh s
  let hasDrive := s.head?.any (fun c => !testFieldSeps c) && s.tail.head? == some colon
  let drive := k.upFChar (s.headD 0) - 0x41
  let wRetCodeDrive := hasDrive && (k.getCds drive.toNat).isNone
  let drv :=
    if hasDrive then (drive + 1).toNat
    else if wTestMode &&& parseDfltDrive = 0 then 0 else f.drive
  let s := if hasDrive then s.drop 2 else s
  let fname :=
    if wTestMode &&& parseBlnkFname = 0 then List.replicate 8 blank else f.name.toList.take 8
  let fext :=
    if wTestMode &&& parseBlnkFext = 0 then List.replicate 3 blank else f.name.toList.drop 8
  let f := { f with drive := drv, cublock := 0, recsiz := 0 }
  -- special cases: '.' and '..'
  if s.head? = some dot then
    if s.tail.head? = some dot then
      (parseRetNowild, s.drop 2, { f with name := toName ((fname.set 0 dot).set 1 dot ++ fext) })
    else (parseRetNowild, s.drop 1, { f with name := toName (fname.set 0 dot ++ fext) })
  else
    let n := getNameField k.upFChar 8 s
    let e :=
      if n.2.2.head? = some dot then getNameField k.upFChar 3 n.2.2.tail else (fext, false, n.2.2)
    (if wRetCodeDrive then parseRetBaddrive
      else if n.2.1 || e.2.1 then parseRetWild else parseRetNowild,
      e.2.2, { f with name := toName (n.1 ++ e.1) })

/-- `FcbRename`, "expand wildcards in dest": the pattern from the new name. -/
def pattern (up : UInt8 → UInt8) (renNewName : Name) : Name :=
  toName ((getNameField up 8 (renNewName.toList.take 8)).1 ++
    (getNameField up 3 (renNewName.toList.drop 8)).1)

/-- "Overlay the pattern, skipping '?'". -/
def overlay (buf name : Name) : Name :=
  Vector.ofFn fun i => if buf.get i ≠ quest then buf.get i else name.get i

/-! ## What the names should be -/

/-- A field of a new name in upper case, with question marks from a star on. -/
def expandField (up : UInt8 → UInt8) : List UInt8 → List UInt8
  | [] => []
  | c :: s => if c = star then List.replicate (s.length + 1) quest else up c :: expandField up s

/-- A new name in upper case, its stars expanded. -/
def expanded (up : UInt8 → UInt8) (renNewName : Name) : Name :=
  toName (expandField up (renNewName.toList.take 8) ++ expandField up (renNewName.toList.drop 8))

/-- The name that an entry should get: the new name, and where that has a question mark its old
name. -/
def newName (up : UInt8 → UInt8) (renNewName name : Name) : Name :=
  overlay (expanded up renNewName) name

/-- A name that a call can put into a directory: `truename` accepts its characters and makes no
others of them.  It may have blanks anywhere. -/
def Storable (up : UInt8 → UInt8) (name : Name) : Prop :=
  ∀ c ∈ name.toList, Plain c ∧ c ≠ quest ∧ up c = c

instance (up : UInt8 → UInt8) (name : Name) : Decidable (Storable up name) :=
  inferInstanceAs (Decidable (∀ c ∈ name.toList, Plain c ∧ c ≠ quest ∧ up c = c))

/-! ## What they are -/

/-- A field without its blanks at the end. -/
def trimmed (field : List UInt8) : List UInt8 := field.rdropWhile (· == blank)

/-- The first word of a name and, if there is no other, the first word of its extension, which is
none if there is a blank in front of it. -/
def firstWords (name : Name) : Name :=
  let s := (trimmed (name.toList.take 8)).dropWhile (· == blank)
  let word := s.takeWhile (· != blank)
  toName (word ++ List.replicate (8 - word.length) blank ++
    if word = s then (trimmed (name.toList.drop 8)).takeWhile (· != blank) else [])

/-- Whether position `i` of a field is at a separator or behind one, and no star is in front of
it. -/
def cutField (field : List UInt8) (i : ℕ) : Bool :=
  ((field.takeWhile (· != star)).take (i + 1)).any testFieldSeps

/-- The same for a new name. -/
def cut (renNewName : Name) (i : ℕ) : Bool :=
  if i < 8 then cutField (renNewName.toList.take 8) i
  else cutField (renNewName.toList.drop 8) (i - 8)

/-- A new name and an entry's name for which it makes no difference that separators end the fields:
behind one in the new name there should be just blanks, and at its question marks the old name is
that of its first words. -/
def Preserves (up : UInt8 → UInt8) (renNewName name : Name) : Prop :=
  ∀ i : Fin 11, if cut renNewName i then (newName up renNewName name).get i = blank
    else (expanded up renNewName).get i = quest → (firstWords name).get i = name.get i

variable {up : UInt8 → UInt8} {renNewName name : Name}

/-! ## The new name -/

@[simp] theorem toName_getElem (bytes : List UInt8) (i : ℕ) (hi : i < 11) :
    (toName bytes)[i] = bytes.getD i blank := by
  simp [toName]

theorem overlay_getElem (buf name : Name) (i : ℕ) (hi : i < 11) :
    (overlay buf name)[i] = if buf[i] ≠ quest then buf[i] else name[i] := by
  simp only [overlay, Vector.getElem_ofFn]
  rfl

theorem testFieldSeps_star : testFieldSeps star = false := by decide

@[simp] theorem length_getNameField (up : UInt8 → UInt8) (n : ℕ) (s : Str) :
    (getNameField up n s).1.length = n := by
  induction n generalizing s with
  | zero => rfl
  | succ n ih =>
    cases s with
    | nil => simp [getNameField]
    | cons c s =>
      rw [getNameField]
      split_ifs
      · simp
      · simp
      · simp [ih]

@[simp] theorem length_expandField (up : UInt8 → UInt8) (s : List UInt8) :
    (expandField up s).length = s.length := by
  induction s with
  | nil => rfl
  | cons c s ih =>
    rw [expandField]
    split_ifs <;> simp [ih]

theorem getD_replicate (n i : ℕ) (c : UInt8) :
    (List.replicate n c).getD i blank = if i < n then c else blank := by
  rw [List.getD_eq_getElem?_getD, List.getElem?_replicate]
  split_ifs <;> rfl

/-- What `GetNameField` makes of a field of a new name. -/
theorem getNameField_getD (up : UInt8 → UInt8) (s : List UInt8) (i : ℕ) :
    (getNameField up s.length s).1.getD i blank =
      if cutField s i then blank else (expandField up s).getD i blank := by
  induction s generalizing i with
  | nil => simp [getNameField, expandField, cutField]
  | cons c s ih =>
    rw [List.length_cons, getNameField]
    by_cases hsep : testFieldSeps c = true
    · have hstar : (c != star) = true := by
        rw [bne_iff_ne]
        rintro rfl
        exact absurd hsep (by rw [testFieldSeps_star]; decide)
      rw [if_pos hsep, if_pos (by simp [cutField, hstar, hsep]), getD_replicate,
        ite_self]
    · rw [if_neg hsep]
      by_cases hstar : c = star
      · rw [if_pos hstar, if_neg (by simp [cutField, hstar]), expandField,
          if_pos hstar]
      · have hne : (c != star) = true := bne_iff_ne.mpr hstar
        rw [if_neg hstar, expandField, if_neg hstar]
        cases i with
        | zero => simp [cutField, hne, hsep]
        | succ i =>
          have hcut : cutField (c :: s) (i + 1) = cutField s i := by
            simp [cutField, hne, hsep]
          rw [hcut, List.getD_cons_succ, List.getD_cons_succ, ih]

/-- A byte of a name from two fields. -/
theorem getD_fields {a b : List UInt8} (ha : a.length = 8) (i : ℕ) :
    (a ++ b).getD i blank = if i < 8 then a.getD i blank else b.getD (i - 8) blank := by
  split_ifs with hi
  · exact List.getD_append _ _ _ _ (by omega)
  · rw [List.getD_append_right _ _ _ _ (by omega), ha]

theorem pattern_getElem (up : UInt8 → UInt8) (renNewName : Name) (i : ℕ) (hi : i < 11) :
    (pattern up renNewName)[i] =
      if cut renNewName i then blank else (expanded up renNewName)[i] := by
  have h8 : (renNewName.toList.take 8).length = 8 := by simp
  have h3 : (renNewName.toList.drop 8).length = 3 := by simp
  have hname := getNameField_getD up (renNewName.toList.take 8) i
  have hext := getNameField_getD up (renNewName.toList.drop 8) (i - 8)
  rw [h8] at hname
  rw [h3] at hext
  rw [pattern, expanded, toName_getElem, toName_getElem, getD_fields (length_getNameField ..),
    getD_fields ((length_expandField ..).trans h8), cut, hname, hext]
  split_ifs <;> rfl

/-- **The overlaid name is the one it should be** exactly if the separators make no difference. -/
theorem overlay_eq_iff (up : UInt8 → UInt8) (renNewName name : Name) :
    overlay (pattern up renNewName) (firstWords name) = newName up renNewName name ↔
      Preserves up renNewName name := by
  have hbyte : ∀ i : Fin 11, (overlay (pattern up renNewName) (firstWords name))[i] =
      (newName up renNewName name)[i] ↔ if cut renNewName i then
        (newName up renNewName name)[i] = blank
      else (expanded up renNewName)[i] = quest → (firstWords name)[i] = name[i] := by
    rintro ⟨i, hi⟩
    simp only [Fin.getElem_fin]
    rw [overlay_getElem, pattern_getElem]
    by_cases hcut : cut renNewName i = true
    · rw [if_pos hcut, if_pos hcut, if_pos (by decide)]
      exact eq_comm
    · rw [if_neg hcut, if_neg hcut, newName, overlay_getElem]
      by_cases hq : (expanded up renNewName)[i] = quest
      · rw [if_neg (not_not.mpr hq), if_neg (not_not.mpr hq)]
        exact ⟨fun h _ => h, fun h => h hq⟩
      · rw [if_pos hq, if_pos hq]
        exact iff_of_true rfl fun h => absurd h hq
  rw [Vector.ext_iff]
  exact ⟨fun h i => (hbyte i).mp (h i i.isLt), fun h i hi => (hbyte ⟨i, hi⟩).mpr (h ⟨i, hi⟩)⟩

/-! ## The text, and back -/

theorem toName_append_blanks (bytes : List UInt8) (n : ℕ) :
    toName (bytes ++ List.replicate n blank) = toName bytes := by
  ext i hi
  rw [toName_getElem, toName_getElem]
  rcases Nat.lt_or_ge i bytes.length with h | h
  · rw [List.getD_append _ _ _ _ h]
  · rw [List.getD_append_right _ _ _ _ h, getD_replicate, ite_self, List.getD_eq_default _ _ h]

/-- A character of a name ends a field only if it is a blank. -/
theorem testFieldSeps_plain {c : UInt8} (h : Plain c) (hne : c ≠ blank) :
    testFieldSeps c = false := by
  obtain ⟨hdir, hsep, hdot, -⟩ := h
  simp only [Path.dirChar, Path.dirChars, Path.isSep, Bool.and_eq_true, decide_eq_true_eq,
    Bool.not_eq_true', List.contains_eq_mem, decide_eq_false_iff_not, List.mem_cons, not_or,
    Bool.or_eq_false_iff, beq_eq_false_iff_ne] at hdir hsep
  have hlt : ¬ c ≤ blank := fun hle => hne (UInt8.le_antisymm hle hdir.1)
  simp only [testFieldSeps, List.contains_eq_mem, List.mem_cons, Bool.or_eq_false_iff,
    decide_eq_false_iff_not, not_or]
  have hne' : c ≠ 0x5c := hsep.2
  have hdot' : c ≠ 0x2e := hdot
  have hslash : c ≠ 0x2f := hsep.1
  tauto

theorem trimmed_subset (field : List UInt8) : trimmed field ⊆ field :=
  (List.rdropWhile_prefix _ _).subset

theorem length_trimmed_le (field : List UInt8) : (trimmed field).length ≤ field.length :=
  (List.rdropWhile_prefix _ _).length_le

/-- `ConvertName83ToNameSZ` on a name without dots. -/
theorem text_eq {name : Name} (h : Dir.firstOf name ≠ dot) : convertName83ToNameSZ name =
    trimmed (name.toList.take 8) ++ Path.dotted (trimmed (name.toList.drop 8)) := by
  rw [convertName83ToNameSZ, Path.dotted]
  simp only [h, false_or]
  rfl

/-- `GetNameField` takes a word. -/
theorem getNameField_word (up : UInt8 → UInt8) {w : List UInt8} (n : ℕ) {t : Str}
    (hw : ∀ c ∈ w, testFieldSeps c = false ∧ c ≠ star ∧ c ≠ quest ∧ up c = c)
    (ht : ∀ c ∈ t.head?, testFieldSeps c = true) :
    getNameField up (w.length + n) (w ++ t) = (w ++ List.replicate n blank, false, t) := by
  induction w with
  | nil =>
    cases n with
    | zero => simp [getNameField]
    | succ n =>
      cases t with
      | nil => simp [getNameField]
      | cons c t => simp [getNameField, ht c rfl]
  | cons c w ih =>
    obtain ⟨hsep, hstar, hquest, hup⟩ := hw c List.mem_cons_self
    rw [List.length_cons, Nat.add_right_comm, List.cons_append, getNameField,
      if_neg (by simp [hsep]), if_neg hstar, ih fun d hd => hw d (List.mem_cons_of_mem c hd)]
    simp [hup, hquest]

theorem Storable.word (h : Storable up name) {w : List UInt8} (hw : w ⊆ name.toList)
    (hblank : ∀ c ∈ w, c ≠ blank) :
    ∀ c ∈ w, testFieldSeps c = false ∧ c ≠ star ∧ c ≠ quest ∧ up c = c := by
  intro c hc
  obtain ⟨hplain, hquest, hup⟩ := h c (hw hc)
  exact ⟨testFieldSeps_plain hplain (hblank c hc), hplain.not_star, hquest, hup⟩

theorem Storable.zero_ne_dot (h : Storable up name) : Dir.firstOf name ≠ dot :=
  (h name[0] (by simp)).1.not_dot

theorem mem_dotted {b : List UInt8} {c : UInt8} (h : c ∈ Path.dotted b) : c = dot ∨ c ∈ b := by
  rw [Path.dotted] at h
  split at h
  · cases h
  · exact List.mem_cons.mp h

theorem not_blank_of_mem_takeWhile {s : List UInt8} {c : UInt8}
    (h : c ∈ s.takeWhile (· != blank)) : c ≠ blank :=
  bne_iff_ne.mp (List.mem_takeWhile_imp (p := (· != blank)) h)

/-- The extension as it is parsed. -/
theorem parse_ext (h : Storable up name) :
    ∃ n, (getNameField up 3 (trimmed (name.toList.drop 8))).1 =
      (trimmed (name.toList.drop 8)).takeWhile (· != blank) ++ List.replicate n blank := by
  have hsub : trimmed (name.toList.drop 8) ⊆ name.toList :=
    List.Subset.trans (trimmed_subset _) (List.drop_subset _ _)
  have hle : (trimmed (name.toList.drop 8)).length ≤ 3 :=
    (length_trimmed_le _).trans (by simp)
  generalize trimmed (name.toList.drop 8) = b at hsub hle ⊢
  have hword : b.takeWhile (· != blank) ⊆ name.toList :=
    List.Subset.trans (List.takeWhile_subset _) hsub
  have hlen := (List.takeWhile_prefix (l := b) (· != blank)).length_le
  have hget := getNameField_word up (3 - (b.takeWhile (· != blank)).length)
    (h.word hword fun c => not_blank_of_mem_takeWhile) (t := b.dropWhile (· != blank)) ?_
  · rw [List.takeWhile_append_dropWhile, Nat.add_sub_cancel' (by omega)] at hget
    exact ⟨_, by rw [hget]⟩
  · intro c hc
    have hblank := List.head?_dropWhile_not (· != blank) b
    rw [Option.mem_def.mp hc] at hblank
    have : c = blank := by simpa using hblank
    rw [this]
    decide

/-- `FcbParseFname` on text without a drive, and that does not begin with a dot. -/
theorem fcbParseFname_name (k : Kernel) {text s : Str} (f : Fcb) (hskip : parseSkipWh text = s)
    (hcolon : s.tail.head? ≠ some colon) (hdot : s.head? ≠ some dot) :
    (fcbParseFname k 0 text f).2.2.name = toName ((getNameField k.upFChar 8 s).1 ++
      if (getNameField k.upFChar 8 s).2.2.head? = some dot then
        (getNameField k.upFChar 3 (getNameField k.upFChar 8 s).2.2.tail).1
      else List.replicate 3 blank) := by
  have hdrive : (s.tail.head? == some colon) = false := by simpa using hcolon
  have h1 : ¬ (0 &&& parseSkipLeadSep : UInt8) ≠ 0 := by decide
  have h8 : (0 &&& parseBlnkFext : UInt8) = 0 := by decide
  rw [fcbParseFname]
  dsimp only
  rw [if_neg h1, hskip, hdrive, Bool.and_false, if_neg Bool.false_ne_true, if_neg hdot, if_pos h8]
  split_ifs <;> rfl

/-- In a name there is no white space but blanks. -/
theorem parseSkipWh_plain {l : List UInt8} (h : ∀ c ∈ l, Plain c) (t : Str)
    (hne : l.dropWhile (· == blank) ≠ []) :
    parseSkipWh (l ++ t) = l.dropWhile (· == blank) ++ t := by
  induction l with
  | nil => exact absurd rfl hne
  | cons c l ih =>
    rw [parseSkipWh, List.cons_append, List.dropWhile_cons, List.dropWhile_cons]
    have htab : (c == 0x09) = false := by
      rw [beq_eq_false_iff_ne]
      rintro rfl
      exact absurd (h 0x09 List.mem_cons_self) (by decide)
    rw [htab, Bool.or_false]
    by_cases hc : (c == blank) = true
    · rw [if_pos hc, if_pos hc]
      rw [List.dropWhile_cons, if_pos hc] at hne
      exact ih (fun d hd => h d (List.mem_cons_of_mem c hd)) hne
    · rw [if_neg hc, if_neg hc]
      rfl

/-- **`FcbParseFname` on the text of a name** takes its first words, unless it is just an
extension. -/
theorem parse_text (k : Kernel) (h : Storable k.upFChar name)
    (hname : trimmed (name.toList.take 8) = [] → trimmed (name.toList.drop 8) = []) (f : Fcb) :
    (fcbParseFname k 0 (convertName83ToNameSZ name) f).2.2.name = firstWords name := by
  obtain ⟨m, hext⟩ := parse_ext h
  have hplain : ∀ {l : List UInt8}, l ⊆ name.toList → ∀ c ∈ l, Plain c := fun hl c hc =>
    (h c (hl hc)).1
  rw [text_eq h.zero_ne_dot, firstWords]
  have hsub : trimmed (name.toList.take 8) ⊆ name.toList :=
    List.Subset.trans (trimmed_subset _) (List.take_subset _ _)
  have hsub' : trimmed (name.toList.drop 8) ⊆ name.toList :=
    List.Subset.trans (trimmed_subset _) (List.drop_subset _ _)
  have hle : (trimmed (name.toList.take 8)).length ≤ 8 := (length_trimmed_le _).trans (by simp)
  have hdrop : (trimmed (name.toList.take 8)).dropWhile (· == blank) = [] →
      trimmed (name.toList.take 8) = [] := fun hnil => by
    by_contra hne
    exact List.rdropWhile_last_not (· == blank) _ hne
      (List.dropWhile_eq_nil_iff.mp hnil _ (List.getLast_mem hne))
  generalize trimmed (name.toList.take 8) = a at hname hsub hle hdrop ⊢
  generalize trimmed (name.toList.drop 8) = b at hname hsub' hext ⊢
  have hskip : parseSkipWh (a ++ Path.dotted b) = a.dropWhile (· == blank) ++ Path.dotted b := by
    by_cases hnil : a = []
    · rw [hnil, hname hnil]
      rfl
    · exact parseSkipWh_plain (hplain hsub) _ fun h => hnil (hdrop h)
  have hsub₂ : a.dropWhile (· == blank) ⊆ name.toList :=
    List.Subset.trans (List.dropWhile_subset _) hsub
  have hle₂ : (a.dropWhile (· == blank)).length ≤ 8 :=
    (List.dropWhile_sublist _).length_le.trans hle
  have hempty : a.dropWhile (· == blank) = [] → b = [] := fun h => hname (hdrop h)
  generalize a.dropWhile (· == blank) = s at hskip hsub₂ hle₂ hempty ⊢
  have hword := List.takeWhile_append_dropWhile (p := (· != blank)) (l := s)
  have hnext : ∀ c ∈ (s.dropWhile (· != blank)).head?, c = blank := fun c hc => by
    have hnot := List.head?_dropWhile_not (· != blank) s
    rw [Option.mem_def.mp hc] at hnot
    simpa using hnot
  have hfield := getNameField_word k.upFChar (8 - (s.takeWhile (· != blank)).length)
    (h.word (List.Subset.trans (List.takeWhile_subset _) hsub₂) fun c => not_blank_of_mem_takeWhile)
    (t := s.dropWhile (· != blank) ++ Path.dotted b) ?_
  · rw [← List.append_assoc, hword,
      Nat.add_sub_cancel' ((List.takeWhile_prefix _).length_le.trans hle₂)] at hfield
    rw [fcbParseFname_name k f hskip, hfield]
    · dsimp only
      -- is there a second word?
      cases hrest : s.dropWhile (· != blank) with
      | cons c u =>
        have hc : c = blank := hnext c (by rw [hrest]; rfl)
        have hne : s.takeWhile (· != blank) ≠ s := fun he => by
          rw [hrest, he] at hword
          simp at hword
        rw [if_neg hne, List.cons_append, List.head?_cons, if_neg (by rw [hc]; decide),
          toName_append_blanks, List.append_nil]
      | nil =>
        rw [hrest, List.append_nil] at hword
        rw [if_pos hword, List.nil_append]
        by_cases hb : b = []
        · rw [hb, Path.dotted, if_pos rfl, if_neg (by decide), toName_append_blanks,
            List.takeWhile_nil, List.append_nil]
        · rw [Path.dotted, if_neg hb, List.head?_cons,
            if_pos (show some Path.dot = some dot from rfl), List.tail_cons, hext,
            ← List.append_assoc, toName_append_blanks]
    · intro hcolon
      have hmem : colon ∈ s ++ Path.dotted b :=
        List.mem_of_mem_tail (List.mem_of_mem_head? hcolon)
      rcases List.mem_append.mp hmem with hs | hd
      · exact absurd (hplain hsub₂ _ hs) (by decide)
      · rcases mem_dotted hd with hd | hb
        · exact absurd hd (by decide)
        · exact absurd (hplain hsub' _ hb) (by decide)
    · cases s with
      | nil =>
        rw [hempty rfl]
        decide
      | cons c s =>
        rw [List.cons_append, List.head?_cons]
        exact fun he => (hplain hsub₂ c List.mem_cons_self).not_dot (Option.some.inj he)
  · intro c hc
    cases hrest : s.dropWhile (· != blank) with
    | cons d u =>
      rw [hrest] at hc
      have hd : d = blank := hnext d (by rw [hrest]; rfl)
      obtain rfl : d = c := Option.some.inj hc
      rw [hd]
      decide
    | nil =>
      rw [hrest, List.nil_append, Path.dotted] at hc
      split at hc
      · cases hc
      · obtain rfl : Path.dot = c := Option.some.inj hc
        decide

/-! ## The overlaid name -/

theorem plain_of_testFieldSeps {c : UInt8} (h : testFieldSeps c = false) (hstar : c ≠ star) :
    Plain c := by
  simp only [testFieldSeps, List.contains_eq_mem, List.mem_cons, Bool.or_eq_false_iff,
    decide_eq_false_iff_not, not_or] at h
  obtain ⟨hle, h⟩ := h
  have hge : Path.space ≤ c := UInt8.le_of_lt (UInt8.not_le.mp hle)
  refine ⟨?_, ?_, fun hd => ?_, hstar⟩
  · simp only [Path.dirChar, Path.dirChars, hge, List.contains_eq_mem, List.mem_cons, decide_true,
      Bool.true_and, Bool.not_eq_true', decide_eq_false_iff_not, not_or]
    tauto
  · simp only [Path.isSep, Bool.or_eq_false_iff, beq_eq_false_iff_ne]
    exact ⟨h.1, h.2.1⟩
  · have : c ≠ 0x2e := by tauto
    exact this hd

theorem getNameField_mem (hup : Path.UpcaseOk up) (hblank : up blank = blank) (n : ℕ) (s : Str) :
    ∀ c ∈ (getNameField up n s).1, c = quest ∨ Plain c ∧ up c = c := by
  induction n generalizing s with
  | zero => exact fun c hc => (nomatch hc)
  | succ n ih =>
    have hblanks : ∀ c ∈ List.replicate (n + 1) blank, c = quest ∨ Plain c ∧ up c = c := by
      intro c hc
      rw [List.eq_of_mem_replicate hc]
      exact Or.inr ⟨by decide, hblank⟩
    cases s with
    | nil => exact hblanks
    | cons d s =>
      rw [getNameField]
      by_cases hsep : testFieldSeps d = true
      · rw [if_pos hsep]
        exact hblanks
      · rw [if_neg hsep]
        by_cases hstar : d = star
        · rw [if_pos hstar]
          exact fun c hc => Or.inl (List.eq_of_mem_replicate hc)
        · rw [if_neg hstar]
          intro c hc
          rcases List.mem_cons.mp hc with rfl | hc
          · have hplain := plain_of_testFieldSeps (by simpa using hsep) hstar
            exact Or.inr ⟨hup.plain _ hplain, hup.idem _⟩
          · exact ih s c hc

theorem mem_toName {bytes : List UInt8} {c : UInt8} (h : c ∈ (toName bytes).toList) :
    c = blank ∨ c ∈ bytes := by
  obtain ⟨i, hi, rfl⟩ := Vector.getElem_of_mem (Vector.mem_toList_iff.mp h)
  rw [toName_getElem]
  rcases Nat.lt_or_ge i bytes.length with hlt | hge
  · rw [List.getD_eq_getElem _ _ hlt]
    exact Or.inr (List.getElem_mem hlt)
  · exact Or.inl (List.getD_eq_default _ _ hge)

theorem mem_firstWords {c : UInt8} (h : c ∈ (firstWords name).toList) :
    c = blank ∨ c ∈ name.toList := by
  rw [firstWords] at h
  refine (mem_toName h).elim Or.inl fun h => ?_
  rcases List.mem_append.mp h with h | h
  · rcases List.mem_append.mp h with h | h
    · exact Or.inr (List.mem_of_mem_take (trimmed_subset _
        ((List.dropWhile_sublist _).mem ((List.takeWhile_prefix _).mem h))))
    · exact Or.inl (List.eq_of_mem_replicate h)
  · split at h
    · exact Or.inr (List.mem_of_mem_drop (trimmed_subset _ ((List.takeWhile_prefix _).mem h)))
    · cases h

/-- The overlaid name can be put into a directory. -/
theorem Storable.overlay (hup : Path.UpcaseOk up) (hblank : up blank = blank)
    (h : Storable up name) (renNewName : Name) :
    Storable up (overlay (pattern up renNewName) (firstWords name)) := by
  intro c hc
  obtain ⟨i, hi, rfl⟩ := Vector.getElem_of_mem (Vector.mem_toList_iff.mp hc)
  rw [overlay_getElem]
  split
  · rename_i hne
    have hmem : (pattern up renNewName)[i] ∈ (pattern up renNewName).toList := by simp
    refine (mem_toName hmem).elim (fun hb => ?_) fun hf => ?_
    · rw [hb]
      exact ⟨by decide, by decide, hblank⟩
    · have hor := (List.mem_append.mp hf).elim (getNameField_mem hup hblank 8 _ _)
        (getNameField_mem hup hblank 3 _ _)
      obtain ⟨hplain, hfix⟩ := hor.resolve_left hne
      exact ⟨hplain, hne, hfix⟩
  · have hmem : (firstWords name)[i] ∈ (firstWords name).toList := by simp
    rcases mem_firstWords hmem with hb | hn
    · rw [hb]
      exact ⟨by decide, by decide, hblank⟩
    · exact h _ hn

/-! ## Names as components of a path -/

/-- A character of a name, and not of what is around names in a path. -/
def Literal (c : UInt8) : Prop := c ≠ 0 ∧ c ≠ dot ∧ c ≠ Dir.backslash

instance : DecidablePred Literal := fun c =>
  inferInstanceAs (Decidable (c ≠ 0 ∧ c ≠ dot ∧ c ≠ Dir.backslash))

theorem literal_plain {c : UInt8} (h : Plain c) : Literal c := by
  obtain ⟨hdir, hsep, hdot, -⟩ := h
  refine ⟨?_, hdot, ?_⟩
  · rintro rfl
    exact absurd hdir (by decide)
  · rintro rfl
    exact absurd hsep (by decide)

/-- The characters of a field go where `ConvertNameSZToName83` is. -/
theorem convertLoop_field {a : List UInt8} (ha : ∀ c ∈ a, Literal c) (nm : Name) (i : ℕ) (t : Str)
    (hi : i + a.length ≤ 11) :
    ∃ nm', convertLoop i nm (a ++ t) = convertLoop (i + a.length) nm' t ∧
      ∀ (j : ℕ) (hj : j < 11),
        nm'[j] = if i ≤ j ∧ j < i + a.length then a.getD (j - i) blank else nm[j] := by
  induction a generalizing nm i with
  | nil => exact ⟨nm, rfl, fun j hj => by rw [if_neg (by simp)]⟩
  | cons c a ih =>
    rw [List.length_cons] at hi
    obtain ⟨-, hdot, hback⟩ := ha c List.mem_cons_self
    obtain ⟨nm', hloop, hnm'⟩ := ih (fun d hd => ha d (List.mem_cons_of_mem c hd))
      (nm.setIfInBounds i c) (i + 1) (by omega)
    refine ⟨nm', ?_, fun j hj => ?_⟩
    · rw [List.cons_append, convertLoop, if_neg (by omega), if_neg hdot, if_pos hback, hloop,
        List.length_cons]
      congr 1
      omega
    · rw [hnm' j hj, Vector.getElem_setIfInBounds]
      rcases Nat.lt_trichotomy j i with h | rfl | h
      · rw [if_neg (by omega), if_neg (by omega), if_neg (by omega)]
      · rw [if_neg (by omega), if_pos rfl, if_pos (by simp), Nat.sub_self, List.getD_cons_zero]
      · rw [if_neg (show i ≠ j by omega), List.length_cons]
        have heq : j - i = (j - (i + 1)) + 1 := by omega
        rw [heq, List.getD_cons_succ]
        exact if_congr (by omega) rfl rfl

theorem trimmed_getD (field : List UInt8) (i : ℕ) :
    (trimmed field).getD i blank = field.getD i blank := by
  have hfield : trimmed field ++ field.rtakeWhile (· == blank) = field :=
    List.rdropWhile_append_rtakeWhile
  conv_rhs => rw [← hfield]
  rcases Nat.lt_or_ge i (trimmed field).length with h | h
  · rw [List.getD_append _ _ _ _ h]
  · rw [List.getD_append_right _ _ _ _ h, List.getD_eq_default _ _ h]
    rcases Nat.lt_or_ge (i - (trimmed field).length) (field.rtakeWhile (· == blank)).length
      with hlt | hge
    · rw [List.getD_eq_getElem _ _ hlt]
      have hmem := List.mem_rtakeWhile_imp (List.getElem_mem hlt)
      exact (beq_iff_eq.mp hmem).symm
    · rw [List.getD_eq_default _ _ hge]

theorem getD_toList (name : Name) {i : ℕ} (hi : i < 11) : name.toList.getD i blank = name[i] := by
  rw [List.getD_eq_getElem _ _ (by simpa using hi)]
  simp

theorem Storable.plain (h : Storable up name) :
    (∀ c ∈ trimmed (name.toList.take 8), Plain c) ∧ ∀ c ∈ trimmed (name.toList.drop 8), Plain c :=
  ⟨fun c hc => (h c (List.mem_of_mem_take (trimmed_subset _ hc))).1,
    fun c hc => (h c (List.mem_of_mem_drop (trimmed_subset _ hc))).1⟩

/-- **The text of a name is converted back to the name.** -/
theorem convert_text (h : ∀ c ∈ name.toList, Literal c) :
    convertNameSZToName83 (convertName83ToNameSZ name) = (name, []) := by
  have hplain : ∀ c ∈ trimmed (name.toList.take 8), Literal c :=
    fun c hc => h c (List.mem_of_mem_take (trimmed_subset _ hc))
  have hplain' : ∀ c ∈ trimmed (name.toList.drop 8), Literal c :=
    fun c hc => h c (List.mem_of_mem_drop (trimmed_subset _ hc))
  have ha : (trimmed (name.toList.take 8)).length ≤ 8 := (length_trimmed_le _).trans (by simp)
  have hb : (trimmed (name.toList.drop 8)).length ≤ 3 := (length_trimmed_le _).trans (by simp)
  have hgeta : ∀ j < 8, (trimmed (name.toList.take 8)).getD j blank = name.toList.getD j blank :=
    fun j hj => by
      rw [trimmed_getD, List.getD_eq_getElem?_getD, List.getElem?_take_of_lt hj,
        ← List.getD_eq_getElem?_getD]
  have hgetb : ∀ j, (trimmed (name.toList.drop 8)).getD j blank = name.toList.getD (8 + j) blank :=
    fun j => by
      rw [trimmed_getD, List.getD_eq_getElem?_getD, List.getElem?_drop,
        ← List.getD_eq_getElem?_getD]
  rw [text_eq (h _ (by simp)).2.1, convertNameSZToName83]
  generalize trimmed (name.toList.take 8) = a at hplain ha hgeta ⊢
  generalize trimmed (name.toList.drop 8) = b at hplain' hb hgetb ⊢
  obtain ⟨nm, hloop, hnm⟩ := convertLoop_field hplain (Vector.replicate 11 blank) 0 (Path.dotted b)
    (by omega)
  -- what is behind the end of a field is blank
  have hname : ∀ j < 8, (hj : j < 11) → nm[j] = name[j] := fun j h8 hj => by
    rw [hnm j hj, ← getD_toList name hj, ← hgeta j h8]
    split_ifs with hlt
    · rw [Nat.sub_zero]
    · rw [List.getD_eq_default _ _ (by omega)]
      simp
  have hrest : ∀ j, 8 ≤ j → (hj : j < 11) → nm[j] = blank := fun j h8 hj => by
    rw [hnm j hj, if_neg (by omega)]
    simp
  rw [hloop, Path.dotted]
  split_ifs with hnil
  · rw [convertLoop]
    refine Prod.ext (Vector.ext fun j hj => ?_) rfl
    dsimp only
    rcases Nat.lt_or_ge j 8 with h8 | h8
    · exact hname j h8 hj
    · have hget := hgetb (j - 8)
      rw [Nat.add_sub_cancel' h8, getD_toList name hj, hnil, List.getD_nil] at hget
      rw [hrest j h8 hj, hget]
  · rw [convertLoop, if_neg (by omega), if_pos (show Path.dot = dot from rfl)]
    obtain ⟨nm', hloop', hnm'⟩ := convertLoop_field hplain' nm 8 [] (by omega)
    rw [List.append_nil] at hloop'
    rw [hloop', convertLoop]
    refine Prod.ext (Vector.ext fun j hj => ?_) rfl
    dsimp only
    rw [hnm' j hj]
    rcases Nat.lt_or_ge j 8 with h8 | h8
    · rw [if_neg (by omega)]
      exact hname j h8 hj
    · have hget := hgetb (j - 8)
      rw [Nat.add_sub_cancel' h8] at hget
      rw [← getD_toList name hj, ← hget]
      split_ifs with hlt
      · rfl
      · rw [hrest j h8 hj, List.getD_eq_default _ _ (by omega)]

theorem Storable.literal (h : Storable up name) : ∀ c ∈ name.toList, Literal c :=
  fun c hc => literal_plain (h c hc).1

theorem toName_toList {bytes : List UInt8} (h : bytes.length = 11) :
    (toName bytes).toList = bytes := by
  refine List.ext_getElem (by simp [h]) fun i hi _ => ?_
  rw [Vector.getElem_toList, toName_getElem, List.getD_eq_getElem]

/-- Blanks behind a field that does not end in one. -/
theorem trimmed_pad {a : List UInt8} (ha : a.getLast? ≠ some blank) (n : ℕ) :
    trimmed (a ++ List.replicate n blank) = a := by
  induction n with
  | zero =>
    rw [List.replicate_zero, List.append_nil]
    refine List.rdropWhile_eq_self_iff.mpr fun hne hlast => ha ?_
    rw [List.getLast?_eq_getLast_of_ne_nil hne, beq_iff_eq.mp hlast]
  | succ n ih =>
    rw [List.replicate_succ', ← List.append_assoc, trimmed, List.rdropWhile_concat_pos _ _ _ rfl]
    exact ih

/-- **A component of a path is the text of the name that it is converted to.** -/
theorem text_convert {a b : List UInt8} (ha : a.length ≤ 8) (hb : b.length ≤ 3)
    (hliteral : ∀ c ∈ a ++ b, Literal c) (hlasta : a.getLast? ≠ some blank)
    (hlastb : b.getLast? ≠ some blank) :
    convertName83ToNameSZ (convertNameSZToName83 (a ++ Path.dotted b)).1 = a ++ Path.dotted b := by
  have hblank : Literal blank := by decide
  set field := a ++ List.replicate (8 - a.length) blank with hfield
  have hlength : field.length = 8 := by
    rw [hfield, List.length_append, List.length_replicate]
    omega
  set name := toName (field ++ (b ++ List.replicate (3 - b.length) blank)) with hname
  have hbytes : name.toList = field ++ (b ++ List.replicate (3 - b.length) blank) := by
    refine toName_toList ?_
    simp only [List.length_append, List.length_replicate, hlength]
    omega
  have hall : ∀ c ∈ name.toList, Literal c := by
    intro c hc
    rw [hbytes, hfield] at hc
    simp only [List.mem_append, List.mem_replicate] at hc hliteral
    rcases hc with (hc | ⟨-, rfl⟩) | hc | ⟨-, rfl⟩
    · exact hliteral c (.inl hc)
    · exact hblank
    · exact hliteral c (.inr hc)
    · exact hblank
  have htext : convertName83ToNameSZ name = a ++ Path.dotted b := by
    rw [text_eq (hall _ (by simp)).2.1, hbytes, List.take_left' hlength, List.drop_left' hlength,
      trimmed_pad hlasta, trimmed_pad hlastb]
  rw [← htext, convert_text hall]

/-- **`ConvertName83ToNameSZ` and `ConvertNameSZToName83` are inverse**, on names and on
components. -/
theorem convert_inverse :
    (∀ name : Name, (∀ c ∈ name.toList, c ≠ 0 ∧ c ≠ dot ∧ c ≠ Dir.backslash) →
      (convertNameSZToName83 (convertName83ToNameSZ name)).1 = name) ∧
    ∀ a b : List UInt8, a.length ≤ 8 → b.length ≤ 3 →
      (∀ c ∈ a ++ b, c ≠ 0 ∧ c ≠ dot ∧ c ≠ Dir.backslash) →
      a.getLast? ≠ some blank → b.getLast? ≠ some blank →
      convertName83ToNameSZ (convertNameSZToName83 (a ++ Path.dotted b)).1 =
        a ++ Path.dotted b :=
  ⟨fun _ h => congrArg Prod.fst (convert_text h),
    fun _ _ ha hb hliteral hlasta hlastb => text_convert ha hb hliteral hlasta hlastb⟩

set_option maxRecDepth 4000 in
/-- A name with a blank in each field, and one in front. -/
theorem convert_inverse_blanks :
    (convertNameSZToName83 (convertName83ToNameSZ (toName [32, 65, 32, 66, 32, 32, 32, 32, 67, 32,
      68]))).1 = toName [32, 65, 32, 66, 32, 32, 32, 32, 67, 32, 68] ∧
    convertName83ToNameSZ (convertNameSZToName83 ([65, 32, 66] ++ Path.dotted [32, 67])).1 =
      [65, 32, 66] ++ Path.dotted [32, 67] :=
  ⟨convert_inverse.1 _ (by decide), convert_inverse.2 _ _ (by decide) (by decide) (by decide)
    (by decide) (by decide)⟩

/-- A name with something in its name field, as a component of a path. -/
def Storable.component (h : Storable up name) (hne : trimmed (name.toList.take 8) ≠ []) :
    Component where
  name := trimmed (name.toList.take 8)
  ext := trimmed (name.toList.drop 8)
  name_ne := hne
  name_le := (length_trimmed_le _).trans (by simp [Path.fnameSize])
  ext_le := (length_trimmed_le _).trans (by simp [Path.fextSize])
  plain := fun c hc => (List.mem_append.mp hc).elim (h.plain.1 c) (h.plain.2 c)

theorem Storable.bytes_component (h : Storable up name)
    (hne : trimmed (name.toList.take 8) ≠ []) :
    (h.component hne).bytes = convertName83ToNameSZ name := (text_eq h.zero_ne_dot).symm

/-- The text of a name is in upper case. -/
theorem Storable.text_upper (h : Storable up name) (hdot : up dot = dot) :
    (convertName83ToNameSZ name).map up = convertName83ToNameSZ name := by
  have hfix : ∀ c ∈ convertName83ToNameSZ name, up c = c := fun c hc => by
    rw [text_eq h.zero_ne_dot] at hc
    rcases List.mem_append.mp hc with hc | hc
    · exact (h c (List.mem_of_mem_take (trimmed_subset _ hc))).2.2
    · rcases mem_dotted hc with rfl | hc
      · exact hdot
      · exact (h c (List.mem_of_mem_drop (trimmed_subset _ hc))).2.2
  exact (List.map_congr_left hfix).trans (List.map_id' _)

/-- A name without text is blank. -/
theorem eq_blank_iff : name = Vector.replicate 11 blank ↔
    trimmed (name.toList.take 8) = [] ∧ trimmed (name.toList.drop 8) = [] := by
  constructor
  · rintro rfl
    decide
  · rintro ⟨h1, h2⟩
    have hall : ∀ c ∈ name.toList, c = blank := fun c hc => by
      rw [← List.take_append_drop 8 name.toList] at hc
      rcases List.mem_append.mp hc with hc | hc
      · exact beq_iff_eq.mp (List.rdropWhile_eq_nil_iff.mp h1 c hc)
      · exact beq_iff_eq.mp (List.rdropWhile_eq_nil_iff.mp h2 c hc)
    ext i hi
    rw [hall name[i] (by simp)]
    simp

end Fcbs
end BurdahDos
