import BurdahDos.Shell.Which
import BurdahDos.Lib.Words
import Mathlib

/-!
# Wildcards in a destination

`fillFnam` and `fillComp` of `portal/lib/fillcomp.c`, and `myfnsplit` and `myfnmerge` of
`portal/cmd/ren.c`, built for long file names.  `fillFnam_fills` says what a pattern becomes for
the name of a source file: its drive and directory stay, and its name and its extension are filled
from the fields of the source.
-/

set_option autoImplicit false

namespace BurdahDos
namespace Shell
namespace Fillcomp

open CString Words

/-! ## The functions -/

/-- `MAXFILE`, `MAXEXT` and `MAXDRIVE` -/
def maxFile : ℕ := 255
def maxExt : ℕ := 255
def maxDrive : ℕ := 3

/-- The parts that a path is taken apart into. -/
structure Fields where
  drv : Str
  dir : Str
  name : Str
  ext : Str

/-- The position of the last dot in front of `p`, unless a backslash comes first. -/
def findDot (path : Str) : ℕ → Option ℕ
  | 0 => none
  | p + 1 =>
    if path[p]? = some 92 then none
    else if path[p]? = some 46 then some p
    else findDot path p

/-- The start of the name that ends at `p`. -/
def findName (path : Str) : ℕ → ℕ
  | 0 => 0
  | p + 1 => if path[p]? = some 92 then p + 1 else findName path p

/-- `myfnsplit`: the parts, with or without the drive. -/
def myfnsplit (path : Str) (drv : Bool) : Fields :=
  let n := if path[1]? = some 58 ∧ drv then 2 else 0
  let rest := path.drop n
  let end' := (rest.takeWhile (· != 58)).length
  let dot := (findDot rest end').getD end'
  let p := findName rest dot
  ⟨path.take n, rest.take p, (rest.take dot).drop p, rest.drop dot⟩

/-- The parts in a buffer: the extension, the name and, if it is asked for, the directory. -/
def Fields.pack (f : Fields) (dir : Bool) : Bytes :=
  f.ext ++ 0 :: (f.name ++ 0 :: if dir then f.dir ++ [0] else [])

/-- `myfnmerge` -/
def myfnmerge (path : Bytes) (drive dir fname ext : Str) : Option Bytes :=
  (if drive ≠ [] then strcpy path 0 drive else store path 0 0).bind fun path =>
  (if dir ≠ [] then
      (strcat path 0 dir).bind fun path =>
        if dir.getLast? ≠ some 92 then strcat path 0 [92] else some path
    else some path).bind fun path =>
  if fname ≠ [] then
    (strcat path 0 fname).bind fun path => if ext ≠ [] then strcat path 0 ext else some path
  else some path

/-- The bytes that `memcpy` reads: a string, and what is in memory behind it. -/
def bytesOf (src : Str) (behind : ℕ → UInt8) (len : ℕ) : Bytes :=
  (src ++ 0 :: (List.range len).map behind).take len

/-- The loop of `fillComp`, with `len - 1` turns left. -/
def fillLoop (behind : ℕ → UInt8) : ℕ → Bytes → ℕ → Str → Str → Option Bytes
  | 0, dst, s, _, _ => store dst s 0
  | _ + 1, dst, s, [], _ => (store dst s 0).bind (store · s 0)
  | n + 1, dst, s, c :: pattern, src =>
    (store dst s c).bind fun dst =>
      if c = 63 then
        match src with
        | [] => fillLoop behind n dst s pattern []
        | d :: src => (store dst s d).bind fun dst => fillLoop behind n dst (s + 1) pattern src
      else if c = 42 then
        (write dst s (bytesOf src behind (n + 1))).bind (store · (s + (n + 1)) 0)
      else fillLoop behind n dst (s + 1) pattern src.tail

/-- `fillComp` -/
def fillComp (behind : ℕ → UInt8) (dst : Bytes) (pattern src : Str) (len : ℕ) : Option Bytes :=
  fillLoop behind (len - 1) dst 0 pattern src

/-- A pattern without wildcards. -/
def NoWildcard (s : Str) : Prop := 63 ∉ s ∧ 42 ∉ s

instance (s : Str) : Decidable (NoWildcard s) := inferInstanceAs (Decidable (63 ∉ s ∧ 42 ∉ s))

/-- `fillFnam`.  The fields of the pattern are in `buf`, and those of the source in `dest`. -/
def fillFnam (behind : ℕ → UInt8) (dest : Bytes) (pattern fnam : Str) : Option Bytes :=
  let f := myfnsplit pattern true
  let h := myfnsplit fnam false
  (if NoWildcard pattern then strcpy dest 0 pattern else some dest).bind fun dest =>
  (write (List.replicate maxPath 0) 0 (f.pack true)).bind fun buf =>
  (strcpy (List.replicate maxDrive 0) 0 f.drv).bind fun dr =>
  (write dest 0 (h.pack false)).bind fun dest =>
  (str buf (f.ext.length + 1)).bind fun fn =>
  (str dest (h.ext.length + 1)).bind fun pfn =>
  (fillComp behind (List.replicate maxFile 0) fn pfn maxFile).bind fun dfn =>
  (str buf 0).bind fun ex =>
  (str dest 0).bind fun pex =>
  (fillComp behind (List.replicate maxExt 0) ex pex maxExt).bind fun dex =>
  (str dr 0).bind fun dr =>
  (str buf (f.ext.length + 1 + f.name.length + 1)).bind fun pa =>
  (str dfn 0).bind fun dfn =>
  (str dex 0).bind fun dex =>
    myfnmerge dest dr pa dfn dex

/-! ## What a pattern should become -/

/-- The drive of a path, and what is behind it. -/
def driveOf (path : Str) : Str := if path[1]? = some 58 then path.take 2 else []
def behindDrive (path : Str) : Str := path.drop (driveOf path).length

/-- A path is looked at up to a colon. -/
def upToColon (rest : Str) : Str := rest.takeWhile (· != 58)

def isBackslash (c : UInt8) : Bool := c == 92
def isDot (c : UInt8) : Bool := c == 46

/-- The directory, up to the last backslash, and the file name. -/
def dirOf (rest : Str) : Str := upToLast isBackslash (upToColon rest)
def fileOf (rest : Str) : Str := afterLast isBackslash (upToColon rest)

/-- The name, in front of the last dot, and the extension. -/
def nameOf (rest : Str) : Str :=
  if 46 ∈ fileOf rest then (upToLast isDot (fileOf rest)).dropLast else fileOf rest
def extOf (rest : Str) : Str := rest.drop ((dirOf rest).length + (nameOf rest).length)

/-- The part of a field in front of a star, `n` characters at most. -/
def beforeStar (n : ℕ) (pattern : Str) : Str := (pattern.takeWhile (· != 42)).take n

/-- A field of `n` characters at most: a question mark becomes the character of the source at its
place, and a star the rest of the source from its place on. -/
def filled (n : ℕ) (pattern src : Str) : Str :=
  ((beforeStar n pattern).zipIdx.flatMap fun (c, i) => if c = 63 then src[i]?.toList else [c]) ++
    if 42 ∈ pattern then
      (src.drop (beforeStar n pattern).length).take (n - (beforeStar n pattern).length)
    else []

/-- The name and the extension that come out. -/
def newName (pattern fnam : Str) : Str :=
  filled (maxFile - 1) (nameOf (behindDrive pattern)) (nameOf fnam)
def newExt (pattern fnam : Str) : Str :=
  filled (maxExt - 1) (extOf (behindDrive pattern)) (extOf fnam)

/-- What comes out: without an extension if the name is empty. -/
def newFnam (pattern fnam : Str) : Str :=
  driveOf pattern ++ dirOf (behindDrive pattern) ++
    if newName pattern fnam = [] then [] else newName pattern fnam ++ newExt pattern fnam

/-- The names fit in the buffers, and what comes out fits in `size` bytes. -/
structure Fits (size : ℕ) (pattern fnam : Str) : Prop where
  copied : NoWildcard pattern → pattern.length < size
  fields : (behindDrive pattern).length + 3 ≤ maxPath
  source : fnam.length + 2 ≤ size
  result : (newFnam pattern fnam).length < size

/-! ## Taking a path apart -/

variable {path s t rest pattern fnam src : Str} {c : UInt8} {behind : ℕ → UInt8}

theorem getElem?_of_prefix (h : s ++ [c] <+: path) : path[s.length]? = some c := by
  obtain ⟨rest, rfl⟩ := h
  rw [List.append_assoc, List.getElem?_append_right (Nat.le_refl _), Nat.sub_self]
  rfl

theorem findDot_eq : ∀ {s : Str}, s <+: path →
    findDot path s.length = if 46 ∈ afterLast isBackslash s then
      some ((upToLast isBackslash s).length + (upToLast isDot (afterLast isBackslash s)).length - 1)
    else none := by
  intro s
  induction s using List.reverseRecOn with
  | nil => exact fun _ => rfl
  | append_singleton s c ih =>
    intro hpre
    rw [List.length_append, List.length_singleton, findDot, getElem?_of_prefix hpre]
    by_cases hback : c = 92
    · subst hback
      rw [if_pos rfl, afterLast_concat_of_pos rfl, if_neg List.not_mem_nil]
    · have hneg : isBackslash c = false := beq_eq_false_iff_ne.mpr hback
      rw [if_neg (by simpa using hback), afterLast_concat_of_neg hneg, upToLast_concat_of_neg hneg]
      by_cases hdot : c = 46
      · subst hdot
        have happ := congrArg List.length (upToLast_append_afterLast isBackslash s)
        rw [List.length_append] at happ
        rw [if_pos rfl, if_pos (by simp), upToLast_concat_of_pos rfl, List.length_append,
          List.length_singleton, ← Nat.add_assoc, Nat.add_sub_cancel, happ]
      · have hneg' : isDot c = false := beq_eq_false_iff_ne.mpr hdot
        rw [if_neg (by simpa using hdot), upToLast_concat_of_neg hneg',
          ih ((List.prefix_append _ _).trans hpre)]
        simp [Ne.symm hdot]

theorem findName_eq : ∀ {s : Str}, s <+: path →
    findName path s.length = (upToLast isBackslash s).length := by
  intro s
  induction s using List.reverseRecOn with
  | nil => exact fun _ => rfl
  | append_singleton s c ih =>
    intro hpre
    rw [List.length_append, List.length_singleton, findName, getElem?_of_prefix hpre]
    by_cases hback : c = 92
    · subst hback
      rw [if_pos rfl, upToLast_concat_of_pos rfl, List.length_append, List.length_singleton]
    · have hneg : isBackslash c = false := beq_eq_false_iff_ne.mpr hback
      rw [if_neg (by simpa using hback), upToLast_concat_of_neg hneg,
        ih ((List.prefix_append _ _).trans hpre)]

theorem dir_append_file (rest : Str) : dirOf rest ++ fileOf rest = upToColon rest :=
  upToLast_append_afterLast _ _

theorem nameOf_starts (rest : Str) : nameOf rest <+: fileOf rest := by
  rw [nameOf]
  split
  · refine (List.dropLast_prefix _).trans ?_
    conv_rhs => rw [← upToLast_append_afterLast isDot (fileOf rest)]
    exact List.prefix_append _ _
  · exact List.prefix_rfl

theorem dir_append_name_starts (rest : Str) : dirOf rest ++ nameOf rest <+: rest := by
  have hhead : upToColon rest <+: rest := List.takeWhile_prefix _
  refine List.IsPrefix.trans ?_ hhead
  rw [← dir_append_file rest, List.prefix_append_right_inj]
  exact nameOf_starts rest

theorem take_dir_name (rest : Str) :
    rest.take ((dirOf rest).length + (nameOf rest).length) = dirOf rest ++ nameOf rest := by
  rw [← List.length_append]
  exact (List.prefix_iff_eq_take.mp (dir_append_name_starts rest)).symm

/-- The parts make up the path. -/
theorem parts_append (rest : Str) : dirOf rest ++ nameOf rest ++ extOf rest = rest := by
  rw [extOf, ← take_dir_name, List.take_append_drop]

theorem dot_eq (rest : Str) : (findDot rest (upToColon rest).length).getD (upToColon rest).length =
    (dirOf rest).length + (nameOf rest).length := by
  have hfind := findDot_eq (show upToColon rest <+: rest from List.takeWhile_prefix _)
  rw [show afterLast isBackslash (upToColon rest) = fileOf rest from rfl,
    show upToLast isBackslash (upToColon rest) = dirOf rest from rfl] at hfind
  rw [hfind, nameOf]
  split
  · rename_i hdot
    obtain ⟨t, c, ht, -⟩ := upToLast_eq_concat ⟨46, hdot, show isDot 46 = true from rfl⟩
    rw [ht, List.dropLast_concat, List.length_append, List.length_singleton]
    rfl
  · rw [Option.getD_none, ← dir_append_file, List.length_append]

theorem myfnsplit_eq (path : Str) (drv : Bool) (n : ℕ)
    (hn : n = if path[1]? = some 58 ∧ drv then 2 else 0) :
    myfnsplit path drv = ⟨path.take n, dirOf (path.drop n), nameOf (path.drop n),
      extOf (path.drop n)⟩ := by
  have hname : findName (path.drop n)
      ((dirOf (path.drop n)).length + (nameOf (path.drop n)).length) =
      (dirOf (path.drop n)).length := by
    have hfind := findName_eq (dir_append_name_starts (path.drop n))
    rw [List.length_append] at hfind
    rw [hfind, upToLast_append]
    · exact congrArg List.length (upToLast_self _ _)
    · exact fun c hc => of_mem_afterLast ((nameOf_starts _).subset hc)
  have hdot := dot_eq (path.drop n)
  have hdir : (path.drop n).take (dirOf (path.drop n)).length = dirOf (path.drop n) :=
    (List.prefix_iff_eq_take.mp ((List.prefix_append _ _).trans (dir_append_name_starts _))).symm
  rw [upToColon] at hdot
  simp only [myfnsplit, ← hn, hdot, hname, hdir, take_dir_name, List.drop_left, extOf]

/-- The number of characters of the drive. -/
theorem driveOf_length (path : Str) :
    (driveOf path).length = if path[1]? = some 58 then 2 else 0 := by
  rw [driveOf]
  split
  · rename_i hcolon
    have hlt := (List.getElem?_eq_some_iff.mp hcolon).1
    rw [List.length_take]
    omega
  · rfl

theorem take_drive (path : Str) : path.take (driveOf path).length = driveOf path := by
  rw [driveOf_length, driveOf]
  split
  · rfl
  · rfl

theorem myfnsplit_pattern (path : Str) : myfnsplit path true =
    ⟨driveOf path, dirOf (behindDrive path), nameOf (behindDrive path),
      extOf (behindDrive path)⟩ := by
  rw [myfnsplit_eq path true (driveOf path).length (by simp [driveOf_length]), take_drive]
  rfl

theorem myfnsplit_source (path : Str) :
    myfnsplit path false = ⟨[], dirOf path, nameOf path, extOf path⟩ :=
  myfnsplit_eq path false 0 (by simp)

/-! ## Filling a field -/

/-- A field, character by character. -/
def fillRest : ℕ → Str → Str → Str
  | 0, _, _ => []
  | _ + 1, [], _ => []
  | n + 1, c :: pattern, src =>
    if c = 63 then src.head?.toList ++ fillRest n pattern src.tail
    else if c = 42 then src.take (n + 1)
    else c :: fillRest n pattern src.tail

theorem bytesOf_length (src : Str) (behind : ℕ → UInt8) (len : ℕ) :
    (bytesOf src behind len).length = len := by
  rw [bytesOf, List.length_take, List.length_append, List.length_cons, List.length_map,
    List.length_range]
  omega

/-- The string that is in the copied bytes, with a NUL behind them. -/
theorem bytesOf_starts (src : Str) (behind : ℕ → UInt8) (len : ℕ) :
    src.take len ++ [0] <+: bytesOf src behind len ++ [0] := by
  rw [bytesOf]
  rcases Nat.lt_or_ge src.length len with hlt | hle
  · obtain ⟨k, rfl⟩ := Nat.exists_eq_add_of_lt hlt
    rw [List.take_of_length_le (by omega), Nat.add_assoc, List.take_append, List.take_of_length_le
      (by omega), Nat.add_sub_cancel_left, List.take_succ_cons, List.append_assoc]
    rw [List.prefix_append_right_inj]
    exact ⟨_, rfl⟩
  · rw [List.take_append_of_le_length hle]

theorem holds_write_end {b b₁ b₂ : Bytes} {i : ℕ} {w : Bytes} (h₁ : write b i w = some b₁)
    (h₂ : store b₁ (i + w.length) 0 = some b₂) (ht : t ++ [0] <+: w ++ [0]) (hnul : 0 ∉ t) :
    Holds b₂ i t ∧ b₂.take i = b.take i := by
  have hend := take_end_write h₂
  rw [take_end_write h₁, List.length_singleton] at hend
  have hle := le_of_write h₁
  refine ⟨⟨?_, hnul⟩, ?_⟩
  · refine ht.trans ?_
    have hdrop := congrArg (List.drop i) hend
    rw [List.append_assoc, List.drop_left' (by rw [List.length_take]; omega), List.drop_take] at hdrop
    rw [← hdrop]
    exact List.take_prefix _ _
  · have htake := congrArg (List.take i) hend
    rwa [List.take_take, Nat.min_eq_left (by omega), List.append_assoc,
      List.take_left' (by rw [List.length_take]; omega)] at htake

theorem zero_not_mem_tail (h : 0 ∉ s) : 0 ∉ s.tail := fun hmem => h (List.mem_of_mem_tail hmem)

/-- The loop leaves what is in front of `s`, and puts the rest of the field there. -/
theorem fillLoop_spec (behind : ℕ → UInt8) : ∀ {n : ℕ} {pattern src : Str} {dst : Bytes} {i : ℕ},
    i + n < dst.length → 0 ∉ pattern → 0 ∉ src →
    ∃ dst', fillLoop behind n dst i pattern src = some dst' ∧ dst'.length = dst.length ∧
      dst'.take i = dst.take i ∧ Holds dst' i (fillRest n pattern src) := by
  have hstop : ∀ {dst : Bytes} {i : ℕ}, i < dst.length → ∃ dst', store dst i 0 = some dst' ∧
      dst'.length = dst.length ∧ dst'.take i = dst.take i ∧ Holds dst' i [] := by
    intro dst i hi
    obtain ⟨dst', hdst'⟩ := Option.isSome_iff_exists.mp
      ((strcpy_isSome (b := dst) (i := i) (s := [])).mpr hi)
    exact ⟨dst', hdst', length_strcpy hdst', take_write hdst', holds_strcpy hdst' List.not_mem_nil⟩
  intro n
  induction n with
  | zero =>
    intro pattern src dst i hi _ _
    rw [fillLoop, fillRest]
    exact hstop hi
  | succ n ih =>
    intro pattern src dst i hi hpattern hsrc
    cases pattern with
    | nil =>
      obtain ⟨d₁, h₁, hlen₁, htake₁, -⟩ := hstop (show i < dst.length by omega)
      obtain ⟨d₂, h₂, hlen₂, htake₂, hholds⟩ := hstop (show i < d₁.length by omega)
      refine ⟨d₂, ?_, hlen₂.trans hlen₁, htake₂.trans htake₁, hholds⟩
      rw [fillLoop, h₁, Option.bind_some, h₂]
    | cons c pattern =>
      have hp : 0 ∉ pattern := fun hmem => hpattern (List.mem_cons_of_mem _ hmem)
      obtain ⟨d₁, h₁⟩ := Option.isSome_iff_exists.mp
        ((write_isSome (b := dst) (i := i) (s := [c])).mpr (by
          rw [List.length_singleton]
          omega))
      have hlen₁ := length_write h₁
      -- A character is kept, and the loop goes on behind it.
      have hkeep : ∀ {x : UInt8} {d d₂ : Bytes} {r : Str}, write d i [x] = some d₂ →
          d.length = dst.length → d.take i = dst.take i → x ≠ 0 →
          (∃ dst', fillLoop behind n d₂ (i + 1) pattern src.tail = some dst' ∧
            dst'.length = d₂.length ∧ dst'.take (i + 1) = d₂.take (i + 1) ∧
              Holds dst' (i + 1) r) →
          ∃ dst', fillLoop behind n d₂ (i + 1) pattern src.tail = some dst' ∧
            dst'.length = dst.length ∧ dst'.take i = dst.take i ∧ Holds dst' i (x :: r) := by
        rintro x d d₂ r hx hlen htake hne ⟨dst', hloop, hlen', htake', hholds⟩
        refine ⟨dst', hloop, hlen'.trans ((length_write hx).trans hlen), ?_, hholds.cons ?_ hne⟩
        · have hfront := congrArg (List.take i) htake'
          rw [List.take_take, List.take_take, Nat.min_eq_left (Nat.le_succ i), take_write hx] at hfront
          exact hfront.trans htake
        · rw [← List.getElem?_take_of_lt (Nat.lt_succ_self i), htake',
            List.getElem?_take_of_lt (Nat.lt_succ_self i)]
          exact get_write_mid hx (j := 0) Nat.zero_lt_one
      rw [fillLoop, store, h₁, Option.bind_some, fillRest]
      by_cases hquest : c = 63
      · rw [if_pos hquest, if_pos hquest]
        cases src with
        | nil =>
          obtain ⟨dst', hloop, hlen', htake', hholds⟩ := @ih pattern [] d₁ i (by omega) hp hsrc
          exact ⟨dst', hloop, hlen'.trans hlen₁, htake'.trans (take_write h₁), hholds⟩
        | cons d src =>
          have hd : d ≠ 0 := fun hzero => hsrc (hzero ▸ List.mem_cons_self)
          obtain ⟨d₂, h₂⟩ := Option.isSome_iff_exists.mp
            ((write_isSome (b := d₁) (i := i) (s := [d])).mpr (by
              rw [List.length_singleton]
              omega))
          dsimp only
          rw [store, h₂, Option.bind_some]
          refine hkeep h₂ hlen₁ (take_write h₁) hd (ih ?_ hp (zero_not_mem_tail hsrc))
          rw [length_write h₂]
          omega
      · rw [if_neg hquest, if_neg hquest]
        by_cases hstar : c = 42
        · rw [if_pos hstar, if_pos hstar]
          obtain ⟨d₂, h₂⟩ := Option.isSome_iff_exists.mp
            ((write_isSome (b := d₁) (i := i) (s := bytesOf src behind (n + 1))).mpr (by
              rw [bytesOf_length]
              omega))
          have hlen₂ := length_write h₂
          obtain ⟨d₃, h₃⟩ := Option.isSome_iff_exists.mp
            ((write_isSome (b := d₂) (i := i + (n + 1)) (s := [0])).mpr (by
              rw [List.length_singleton]
              omega))
          obtain ⟨hholds, htake⟩ := holds_write_end h₂ (by rwa [bytesOf_length])
            (bytesOf_starts src behind (n + 1)) fun hmem => hsrc (List.mem_of_mem_take hmem)
          refine ⟨d₃, ?_, (length_write h₃).trans (hlen₂.trans hlen₁),
            htake.trans (take_write h₁), hholds⟩
          rw [h₂, Option.bind_some, store, h₃]
        · rw [if_neg hstar, if_neg hstar]
          have hc : c ≠ 0 := fun hzero => hpattern (hzero ▸ List.mem_cons_self)
          exact hkeep h₁ rfl rfl hc (ih (by omega) hp (zero_not_mem_tail hsrc))

/-! ## What a field becomes -/

theorem beforeStar_cons {n : ℕ} (hc : c ≠ 42) (pattern : Str) :
    beforeStar (n + 1) (c :: pattern) = c :: beforeStar n pattern := by
  rw [beforeStar, List.takeWhile_cons_of_pos (by simpa using hc), List.take_succ_cons]
  rfl

/-- The place of a character of the pattern is `k` further in the source. -/
theorem fillRest_drop : ∀ (n : ℕ) (pattern src : Str) (k : ℕ), fillRest n pattern (src.drop k) =
    (((beforeStar n pattern).zipIdx k).flatMap fun (c, i) =>
        if c = 63 then src[i]?.toList else [c]) ++
      if 42 ∈ pattern then (src.drop (k + (beforeStar n pattern).length)).take
        (n - (beforeStar n pattern).length) else [] := by
  intro n
  induction n with
  | zero =>
    intro pattern src k
    have hnil : beforeStar 0 pattern = [] := List.take_zero
    rw [fillRest, hnil]
    simp
  | succ n ih =>
    intro pattern src k
    cases pattern with
    | nil => simp [fillRest, beforeStar]
    | cons c pattern =>
      rw [fillRest]
      by_cases hstar : c = 42
      · subst hstar
        have hnil : beforeStar (n + 1) (42 :: pattern) = [] := by
          rw [beforeStar, List.takeWhile_cons_of_neg (by decide), List.take_nil]
        rw [if_neg (by decide), if_pos rfl, hnil, if_pos List.mem_cons_self]
        simp
      · have hrest := ih pattern src (k + 1)
        have hmem : 42 ∈ c :: pattern ↔ 42 ∈ pattern := by
          rw [List.mem_cons]
          exact or_iff_right (Ne.symm hstar)
        rw [beforeStar_cons hstar, List.zipIdx_cons, List.flatMap_cons, List.length_cons,
          Nat.add_sub_add_right, ← Nat.add_assoc, Nat.add_right_comm k, List.tail_drop]
        simp only [hmem]
        rw [List.append_assoc, ← hrest, List.head?_drop]
        split
        · rfl
        · rfl

theorem fillRest_eq (n : ℕ) (pattern src : Str) : fillRest n pattern src = filled n pattern src := by
  have hdrop := fillRest_drop n pattern src 0
  rw [List.drop_zero, Nat.zero_add] at hdrop
  exact hdrop

theorem mem_filled {n : ℕ} (h : c ∈ filled n pattern src) :
    c ∈ pattern.takeWhile (· != 42) ∧ c ≠ 63 ∨ c ∈ src := by
  rcases List.mem_append.mp h with hfront | hrest
  · obtain ⟨⟨d, i⟩, hmem, hd⟩ := List.mem_flatMap.mp hfront
    dsimp only at hd
    split at hd
    · exact Or.inr (List.mem_of_getElem? (Option.mem_toList.mp hd))
    · rename_i hne
      rw [List.mem_singleton.mp hd]
      exact Or.inl ⟨List.mem_of_mem_take (List.fst_mem_of_mem_zipIdx hmem), hne⟩
  · split at hrest
    · exact Or.inr (List.mem_of_mem_drop (List.mem_of_mem_take hrest))
    · exact absurd hrest List.not_mem_nil

/-- The wildcards of the pattern are gone. -/
theorem noWildcard_filled {n : ℕ} (hs : NoWildcard src) : NoWildcard (filled n pattern src) := by
  refine ⟨fun hquest => ?_, fun hstar => ?_⟩
  · rcases mem_filled hquest with hfront | hsrc
    · exact hfront.2 rfl
    · exact hs.1 hsrc
  · rcases mem_filled hstar with hfront | hsrc
    · exact absurd (List.mem_takeWhile_imp hfront.1) (by decide)
    · exact hs.2 hsrc

/-- A pattern without wildcards is kept. -/
theorem filled_of_noWildcard : ∀ {n : ℕ} {pattern : Str}, NoWildcard pattern → ∀ src : Str,
    filled n pattern src = pattern.take n := by
  intro n
  induction n with
  | zero => exact fun _ src => by rw [← fillRest_eq, fillRest, List.take_zero]
  | succ n ih =>
    intro pattern hp src
    cases pattern with
    | nil => rw [← fillRest_eq, fillRest, List.take_nil]
    | cons c pattern =>
      have hrest : NoWildcard pattern :=
        ⟨fun hmem => hp.1 (List.mem_cons_of_mem _ hmem),
          fun hmem => hp.2 (List.mem_cons_of_mem _ hmem)⟩
      have hquest : c ≠ 63 := fun heq => hp.1 (heq ▸ List.mem_cons_self)
      have hstar : c ≠ 42 := fun heq => hp.2 (heq ▸ List.mem_cons_self)
      rw [← fillRest_eq, fillRest, if_neg hquest, if_neg hstar, fillRest_eq, ih hrest,
        List.take_succ_cons]

/-! ## Putting the parts together -/

theorem strcat_spec {b : Bytes} (h : Holds b 0 s) (ht : 0 ∉ t) (hfits : (s ++ t).length < b.length) :
    ∃ b', strcat b 0 t = some b' ∧ Holds b' 0 (s ++ t) ∧ b'.length = b.length := by
  obtain ⟨b', hb'⟩ := Option.isSome_iff_exists.mp ((h.strcat_isSome (s := t)).mpr (by
    rw [List.length_append] at hfits
    omega))
  exact ⟨b', hb', h.strcat hb' ht, h.length_strcat hb'⟩

/-- The parts are merged; a directory has its backslash already. -/
theorem myfnmerge_spec {b : Bytes} {drive dir fname ext : Str}
    (hnul : 0 ∉ drive ∧ 0 ∉ dir ∧ 0 ∉ fname ∧ 0 ∉ ext) (hdir : dir ≠ [] → dir.getLast? = some 92)
    (hfits : (drive ++ dir ++ if fname = [] then [] else fname ++ ext).length < b.length) :
    ∃ b', myfnmerge b drive dir fname ext = some b' ∧
      Holds b' 0 (drive ++ dir ++ if fname = [] then [] else fname ++ ext) ∧
        b'.length = b.length := by
  obtain ⟨hdrive, hdir', hname, hext⟩ := hnul
  have hlen : (drive ++ dir).length < b.length := by
    rw [List.length_append] at hfits
    omega
  obtain ⟨b₁, hb₁, h₁, hlen₁⟩ : ∃ b₁, (if drive ≠ [] then strcpy b 0 drive else store b 0 0) =
      some b₁ ∧ Holds b₁ 0 drive ∧ b₁.length = b.length := by
    have hcopy : (if drive ≠ [] then strcpy b 0 drive else store b 0 0) = strcpy b 0 drive := by
      split
      · rfl
      · rename_i hnil
        rw [Decidable.not_not.mp hnil]
        rfl
    obtain ⟨b₁, hb₁⟩ := Option.isSome_iff_exists.mp
      ((strcpy_isSome (b := b) (i := 0) (s := drive)).mpr (by
        rw [List.length_append] at hlen
        omega))
    exact ⟨b₁, hcopy.trans hb₁, holds_strcpy hb₁ hdrive, length_strcpy hb₁⟩
  obtain ⟨b₂, hb₂, h₂, hlen₂⟩ : ∃ b₂, (if dir ≠ [] then (strcat b₁ 0 dir).bind fun path =>
      if dir.getLast? ≠ some 92 then strcat path 0 [92] else some path else some b₁) = some b₂ ∧
      Holds b₂ 0 (drive ++ dir) ∧ b₂.length = b.length := by
    by_cases hnil : dir = []
    · rw [if_neg (not_not_intro hnil), hnil, List.append_nil]
      exact ⟨b₁, rfl, h₁, hlen₁⟩
    · obtain ⟨b₂, hb₂, h₂, hlen₂⟩ := strcat_spec h₁ hdir' (by omega)
      refine ⟨b₂, ?_, h₂, hlen₂.trans hlen₁⟩
      rw [if_pos hnil, hb₂, Option.bind_some, if_neg (not_not_intro (hdir hnil))]
  rw [myfnmerge, hb₁, Option.bind_some, hb₂, Option.bind_some]
  by_cases hnil : fname = []
  · rw [if_neg (not_not_intro hnil), if_pos hnil, List.append_nil]
    exact ⟨b₂, rfl, h₂, hlen₂⟩
  · rw [if_neg hnil, ← List.append_assoc] at hfits
    rw [if_pos hnil, if_neg hnil, ← List.append_assoc]
    obtain ⟨b₃, hb₃, h₃, hlen₃⟩ := strcat_spec h₂ hname (by
      rw [List.length_append] at hfits
      omega)
    rw [hb₃, Option.bind_some]
    by_cases hnone : ext = []
    · rw [if_neg (not_not_intro hnone), hnone, List.append_nil]
      exact ⟨b₃, rfl, h₃, hlen₃.trans hlen₂⟩
    · obtain ⟨b₄, hb₄, h₄, hlen₄⟩ := strcat_spec h₃ hext (by omega)
      rw [if_pos hnone]
      exact ⟨b₄, hb₄, h₄, hlen₄.trans (hlen₃.trans hlen₂)⟩

/-- The parts are where the pointers say. -/
theorem pack_holds {b b' : Bytes} {f : Fields} {dir : Bool} (h : write b 0 (f.pack dir) = some b')
    (hnul : 0 ∉ f.dir ∧ 0 ∉ f.name ∧ 0 ∉ f.ext) :
    Holds b' 0 f.ext ∧ Holds b' (f.ext.length + 1) f.name ∧
      (dir = true → Holds b' (f.ext.length + 1 + f.name.length + 1) f.dir) := by
  obtain ⟨hdir, hname, hext⟩ := hnul
  obtain ⟨rest, hrest⟩ : ∃ rest, b' = f.pack dir ++ rest := ⟨_, eq_of_write h⟩
  rw [Fields.pack] at hrest
  refine ⟨?_, ?_, fun hd => ?_⟩
  · have hholds := holds_append [] ((f.name ++ 0 :: if dir then f.dir ++ [0] else []) ++ rest) hext
    rw [hrest]
    simpa using hholds
  · have hholds := holds_append (f.ext ++ [0]) ((if dir then f.dir ++ [0] else []) ++ rest) hname
    rw [hrest]
    simpa using hholds
  · have hholds := holds_append (f.ext ++ [0] ++ (f.name ++ [0])) rest hdir
    have hplace : (f.ext ++ [0] ++ (f.name ++ [0])).length =
        f.ext.length + 1 + f.name.length + 1 := by
      simp only [List.length_append, List.length_singleton]
      omega
    rw [hplace] at hholds
    rw [hrest, if_pos hd]
    simpa using hholds

theorem parts_nul (h : 0 ∉ rest) : 0 ∉ dirOf rest ∧ 0 ∉ nameOf rest ∧ 0 ∉ extOf rest := by
  rw [← parts_append rest] at h
  exact ⟨fun hmem => h (List.mem_append_left _ (List.mem_append_left _ hmem)),
    fun hmem => h (List.mem_append_left _ (List.mem_append_right _ hmem)),
    fun hmem => h (List.mem_append_right _ hmem)⟩

theorem parts_length (rest : Str) :
    (dirOf rest).length + (nameOf rest).length + (extOf rest).length = rest.length := by
  have hlen := congrArg List.length (parts_append rest)
  rwa [List.length_append, List.length_append] at hlen

theorem dirOf_last (h : dirOf rest ≠ []) : (dirOf rest).getLast? = some 92 := by
  have hmem : ∃ c ∈ upToColon rest, isBackslash c = true := by
    by_contra hno
    push Not at hno
    apply h
    have hnone := @upToLast_append _ isBackslash [] (upToColon rest) fun c hc => by simpa using hno c hc
    rwa [List.nil_append] at hnone
  obtain ⟨t, c, ht, hc⟩ := upToLast_eq_concat hmem
  rw [dirOf, ht, List.getLast?_concat, beq_iff_eq.mp hc]

/-- A field is filled in an array of its size. -/
theorem fillComp_spec {len : ℕ} (hlen : 0 < len) (hp : 0 ∉ pattern) (hs : 0 ∉ src) :
    ∃ dst, fillComp behind (List.replicate len 0) pattern src len = some dst ∧
      Holds dst 0 (filled (len - 1) pattern src) := by
  obtain ⟨dst, hdst, -, -, hholds⟩ := @fillLoop_spec behind (len - 1) pattern src
    (List.replicate len 0) 0 (by rw [List.length_replicate]; omega) hp hs
  rw [fillRest_eq] at hholds
  exact ⟨dst, hdst, hholds⟩

theorem fillFnam_eq {dest : Bytes} (hp : 0 ∉ pattern) (hf : 0 ∉ fnam)
    (hfits : Fits dest.length pattern fnam) :
    ∃ dest', fillFnam behind dest pattern fnam = some dest' ∧
      Holds dest' 0 (newFnam pattern fnam) ∧ dest'.length = dest.length := by
  have hrest : 0 ∉ behindDrive pattern := fun hmem => hp (List.mem_of_mem_drop hmem)
  have hdrive : 0 ∉ driveOf pattern := by
    rw [← take_drive]
    exact fun hmem => hp (List.mem_of_mem_take hmem)
  obtain ⟨hpdir, hpname, hpext⟩ := parts_nul hrest
  obtain ⟨hfdir, hfname, hfext⟩ := parts_nul hf
  have hplen := parts_length (behindDrive pattern)
  have hflen := parts_length fnam
  have hfields := hfits.fields
  have hsource := hfits.source
  obtain ⟨d₁, hd₁, hlen₁⟩ : ∃ d₁, (if NoWildcard pattern then strcpy dest 0 pattern
      else some dest) = some d₁ ∧ d₁.length = dest.length := by
    split
    · rename_i hplain
      obtain ⟨d₁, hd₁⟩ := Option.isSome_iff_exists.mp
        ((strcpy_isSome (b := dest) (i := 0) (s := pattern)).mpr (by
          rw [Nat.zero_add]
          exact hfits.copied hplain))
      exact ⟨d₁, hd₁, length_strcpy hd₁⟩
    · exact ⟨dest, rfl, rfl⟩
  rw [fillFnam, hd₁, Option.bind_some, myfnsplit_pattern, myfnsplit_source]
  generalize hF : Fields.mk (driveOf pattern) (dirOf (behindDrive pattern))
    (nameOf (behindDrive pattern)) (extOf (behindDrive pattern)) = f
  generalize hH : Fields.mk [] (dirOf fnam) (nameOf fnam) (extOf fnam) = h
  obtain ⟨buf, hbuf⟩ := Option.isSome_iff_exists.mp
    ((write_isSome (b := List.replicate maxPath 0) (i := 0) (s := f.pack true)).mpr (by
      subst hF
      simp only [Fields.pack, if_true, List.length_append, List.length_cons, List.length_nil,
        List.length_replicate]
      omega))
  obtain ⟨dr, hdr⟩ := Option.isSome_iff_exists.mp
    ((strcpy_isSome (b := List.replicate maxDrive 0) (i := 0) (s := f.drv)).mpr (by
      subst hF
      rw [List.length_replicate, driveOf_length]
      split <;> decide))
  obtain ⟨d₂, hd₂⟩ := Option.isSome_iff_exists.mp
    ((write_isSome (b := d₁) (i := 0) (s := h.pack false)).mpr (by
      subst hH
      simp only [Fields.pack, Bool.false_eq_true, if_false, List.length_append, List.length_cons,
        List.length_nil]
      omega))
  obtain ⟨hex, hfn, hpa⟩ := pack_holds hbuf (by subst hF; exact ⟨hpdir, hpname, hpext⟩)
  obtain ⟨hpex, hpfn, -⟩ := pack_holds hd₂ (by subst hH; exact ⟨hfdir, hfname, hfext⟩)
  obtain ⟨dfn, hdfn, hname⟩ := @fillComp_spec f.name h.name behind maxFile (by decide) hfn.2 hpfn.2
  obtain ⟨dex, hdex, hext⟩ := @fillComp_spec f.ext h.ext behind maxExt (by decide) hex.2 hpex.2
  have hlen₂ := length_write hd₂
  have hresult : newFnam pattern fnam = f.drv ++ f.dir ++
      if filled (maxFile - 1) f.name h.name = [] then []
      else filled (maxFile - 1) f.name h.name ++ filled (maxExt - 1) f.ext h.ext := by
    subst hF hH
    rfl
  have hsize := hfits.result
  rw [hresult] at hsize ⊢
  obtain ⟨dest', hmerge, hholds, hlen⟩ := @myfnmerge_spec d₂ f.drv f.dir
    (filled (maxFile - 1) f.name h.name) (filled (maxExt - 1) f.ext h.ext)
    ⟨by subst hF; exact hdrive, (hpa rfl).2, hname.2, hext.2⟩ (by subst hF; exact dirOf_last)
    (by omega)
  refine ⟨dest', ?_, hholds, hlen.trans (hlen₂.trans hlen₁)⟩
  simp only [hbuf, hdr, hd₂, hfn.str, hpfn.str, hdfn, hex.str, hpex.str, hdex,
    (holds_strcpy hdr (by subst hF; exact hdrive)).str, (hpa rfl).str, hname.str, hext.str,
    Option.bind_some]
  exact hmerge

theorem mem_of_mem_parts (h : c ∈ nameOf rest ∨ c ∈ extOf rest) : c ∈ rest := by
  rw [← parts_append rest]
  rcases h with hname | hext
  · exact List.mem_append_left _ (List.mem_append_right _ hname)
  · exact List.mem_append_right _ hext

theorem NoWildcard.parts (h : NoWildcard rest) :
    NoWildcard (nameOf rest) ∧ NoWildcard (extOf rest) :=
  ⟨⟨fun hmem => h.1 (mem_of_mem_parts (Or.inl hmem)),
      fun hmem => h.2 (mem_of_mem_parts (Or.inl hmem))⟩,
    fun hmem => h.1 (mem_of_mem_parts (Or.inr hmem)),
    fun hmem => h.2 (mem_of_mem_parts (Or.inr hmem))⟩

/-- A pattern without wildcards comes out as it is. -/
theorem newFnam_of_noWildcard (h : NoWildcard pattern)
    (hname : (nameOf (behindDrive pattern)).length < maxFile)
    (hext : (extOf (behindDrive pattern)).length < maxExt)
    (hempty : nameOf (behindDrive pattern) = [] → extOf (behindDrive pattern) = []) :
    newFnam pattern fnam = pattern := by
  have hrest : NoWildcard (behindDrive pattern) :=
    ⟨fun hmem => h.1 (List.mem_of_mem_drop hmem), fun hmem => h.2 (List.mem_of_mem_drop hmem)⟩
  have hnew : newName pattern fnam = nameOf (behindDrive pattern) := by
    rw [newName, filled_of_noWildcard hrest.parts.1, List.take_of_length_le (by omega)]
  have hnew' : newExt pattern fnam = extOf (behindDrive pattern) := by
    rw [newExt, filled_of_noWildcard hrest.parts.2, List.take_of_length_le (by omega)]
  have hparts : (if nameOf (behindDrive pattern) = [] then []
      else nameOf (behindDrive pattern) ++ extOf (behindDrive pattern)) =
      nameOf (behindDrive pattern) ++ extOf (behindDrive pattern) := by
    split
    · rename_i hnil
      rw [hnil, hempty hnil, List.append_nil]
    · rfl
  rw [newFnam, hnew, hnew', hparts, List.append_assoc, ← List.append_assoc (dirOf _), parts_append]
  conv_rhs => rw [← List.take_append_drop (driveOf pattern).length pattern, take_drive]
  rfl

/-- **What a pattern becomes.**  If the names and what comes out fit in the buffers, the result is
the drive and the directory of the pattern, and its name and extension with the wildcards replaced;
these have no wildcard, and a pattern without wildcards is not changed.  One that has an extension
but no name is left out: it is copied to the result, but then goes on through the rest of the
function like any other. -/
theorem fillFnam_fills (behind : ℕ → UInt8) {dest : Bytes} (hp : 0 ∉ pattern) (hf : 0 ∉ fnam)
    (hwild : NoWildcard fnam) (hfits : Fits dest.length pattern fnam)
    (hnamed : NoWildcard pattern →
      nameOf (behindDrive pattern) = [] → extOf (behindDrive pattern) = []) :
    (∃ dest', fillFnam behind dest pattern fnam = some dest' ∧
      Holds dest' 0 (newFnam pattern fnam)) ∧
    NoWildcard (newName pattern fnam) ∧ NoWildcard (newExt pattern fnam) ∧
    (NoWildcard pattern → (nameOf (behindDrive pattern)).length < maxFile →
      (extOf (behindDrive pattern)).length < maxExt → newFnam pattern fnam = pattern) := by
  obtain ⟨dest', hdest', hholds, -⟩ := fillFnam_eq hp hf hfits
  exact ⟨⟨dest', hdest', hholds⟩, noWildcard_filled hwild.parts.1, noWildcard_filled hwild.parts.2,
    fun h hname hext => newFnam_of_noWildcard h hname hext (hnamed h)⟩

/-- The pattern `?B.*` and the file `AC.T`. -/
theorem fillFnam_fills_ab : ∃ dest', fillFnam (fun _ => 0) (List.replicate 16 0) [63, 66, 46, 42]
    [65, 67, 46, 84] = some dest' ∧ Holds dest' 0 [65, 66, 46, 84] :=
  (@fillFnam_fills [63, 66, 46, 42] [65, 67, 46, 84] (fun _ => 0) (List.replicate 16 0) (by decide)
    (by decide) (by decide) ⟨by decide, by decide, by decide, by decide⟩ (by decide)).1

/-- The pattern `ABCDEFGHI?` and the file `X`: the name has nine characters.  The pattern `*.T` and
the file `.X`: without a name there is no extension either. -/
theorem long_field_kept :
    (fillFnam (fun _ => 0) (List.replicate 260 0) [65, 66, 67, 68, 69, 70, 71, 72, 73, 63] [88]).bind
      (str · 0) = some [65, 66, 67, 68, 69, 70, 71, 72, 73] ∧
    (fillFnam (fun _ => 0) (List.replicate 260 0) [42, 46, 84] [46, 88]).bind (str · 0) = some [] := by
  decide +kernel

end Fillcomp
end Shell
end BurdahDos
