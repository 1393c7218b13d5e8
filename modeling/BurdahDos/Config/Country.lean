import BurdahDos.Config.Environ
import Mathlib

/-!
# Loading COUNTRY.SYS

`LoadCountryInfo` of `kernel/config.c`, for a file that could be opened.  A read returns what there
is in the file, and a seek to 0xffffffff is what looks like an error.  An `int` has 16 bits.

Beside the outcome the model gives the accesses: what is stored, as an object with an offset and a
length, and which elements of `table` and `hdr` are read.  The objects have the size that they are
given in the function, the tables that of `nls_hc.asm`.
-/

set_option autoImplicit false

namespace BurdahDos
namespace Config

/-! ## What is accessed -/

/-- What the function stores into. -/
inductive Object where
  | header
  | entries
  | entry
  | count
  | hdr
  | subfData
  /-- `nlsPackageHardcoded.cntry` and `cp` -/
  | ids
  /-- `nlsPackageHardcoded.yeschar` and `nochar` -/
  | yesNo
  /-- `nlsPackageHardcoded.nlsExt`, from `size` on -/
  | country
  | upcase
  | fupcase
  | fnameTerm
  | coll
  | dbcs
  deriving DecidableEq

def Object.size : Object → ℕ
  | header => 23
  | entries => 2
  | entry => 14
  | count => 2
  | hdr => 72
  | subfData => 266
  | ids => 4
  | yesNo => 4
  | country => 30
  | upcase => 130
  | fupcase => 130
  | fnameTerm => 24
  | coll => 258
  | dbcs => 10

inductive Access where
  | store (o : Object) (offset length : ℕ)
  /-- An element of `table` is read. -/
  | table (i : ℕ)
  /-- An element of `hdr` is read. -/
  | hdr (i : ℕ)
  deriving DecidableEq

/-- The bytes are inside of the object; the element exists. -/
def Access.Inside : Access → Prop
  | store o offset length => offset + length ≤ o.size
  | table i => i < 9
  | hdr i => i < 9

/-! ## The file -/

/-- What `read` returns from a position. -/
def readAt (file : Str) (pos n : ℕ) : Str := (file.drop pos).take n

/-- A word of 16 bits. -/
def le16 (b : Str) (i : ℕ) : ℕ := (b.getD i 0).toNat + 256 * (b.getD (i + 1) 0).toNat

/-- A word of 32 bits. -/
def le32 (b : Str) (i : ℕ) : ℕ := le16 b i + 65536 * le16 b (i + 2)

/-- What `lseek` returns if it fails. -/
def seekError : ℕ := 0xffffffff

/-- "\377COUNTRY" -/
def countryName : Str := [255, 67, 79, 85, 78, 84, 82, 89]

/-- `struct entry`, without its length and what is reserved. -/
structure Entry where
  country : ℕ
  codepage : ℕ
  offset : ℕ

def entryOf (b : Str) : Entry := ⟨le16 b 2, le16 b 4, le32 b 10⟩

/-- `struct subf_hdr` -/
structure Subf where
  length : ℕ
  id : ℕ
  offset : ℕ

/-- `hdr[i]` -/
def subfOf (b : Str) (i : ℕ) : Subf := ⟨le16 b (8 * i), le16 b (8 * i + 2), le32 b (8 * i + 4)⟩

/-- "\377UCASE  " -/
def ucaseSig : Str := [255, 85, 67, 65, 83, 69, 32, 32]

/-- `table`, with the unused index -1 as `none`. -/
def table : List (Str × Option ℕ) :=
  [([255, 32, 32, 32, 32, 32, 32, 32], none), ([255, 67, 84, 89, 73, 78, 70, 79], some 5),
    (ucaseSig, some 0), ([255, 76, 67, 65, 83, 69, 32, 32], none),
    ([255, 70, 85, 67, 65, 83, 69, 32], some 1), ([255, 70, 67, 72, 65, 82, 32, 32], some 2),
    ([255, 67, 79, 76, 76, 65, 84, 69], some 3), ([255, 68, 66, 67, 83, 32, 32, 32], some 4),
    ([255, 89, 69, 83, 78, 79, 32, 32], none)]

/-- Where `nlsPackageHardcoded.nlsPointers` point. -/
def nlsPointers : List Object := [.upcase, .fupcase, .fnameTerm, .coll, .dbcs]

/-! ## Subfunctions -/

/-- The subfunction is not loaded. -/
def Subf.skipped (h : Subf) : Bool := h.id == 3 || ((h.id < 1 || 7 < h.id) && h.id != 35)

/-- `subf_tbl_ndx` -/
def Subf.index (h : Subf) : ℕ := if h.id = 35 then 8 else h.id

/-- The signature is not the one of the subfunction; that of UCASE is good for FUCASE. -/
def Subf.wrongSig (h : Subf) (sig : Str) : Bool :=
  sig != (table.getD h.index ([], none)).1 && (h.id != 4 || sig != (table.getD 2 ([], none)).1)

/-- `sizeof(struct CountrySpecificInfo)` -/
def infoSize : ℕ := 28

/-- Where the data of a subfunction go. -/
def Subf.target (h : Subf) : Object :=
  if h.id = 1 then .country
  else
    match (table.getD h.index ([], none)).2 with
    | some idx => nlsPointers.getD idx .yesNo
    | none => .yesNo

/-- What is stored of the data of a subfunction, of the given length. -/
def Subf.copies (h : Subf) (length : ℕ) : List Access :=
  if h.id = 1 then
    [.store .ids 0 4, .store .subfData 8 2, .store h.target 2 (min length infoSize),
      .store h.target 22 4]
  else
    .table h.index ::
      if h.id = 7 then
        if length = 0 then [.store .subfData 10 4, .store h.target 0 4]
        else [.store h.target 2 length, .store .subfData 10 2, .store h.target 0 2]
      else if h.id = 35 then [.store .yesNo 0 2, .store .yesNo 2 2]
      else [.store h.target 2 length]

/-- The subfunction headers of an entry, `none` if they cannot be read. -/
def readHeaders (file : Str) (e : Entry) : List Access × Option (List Subf) :=
  if e.offset = seekError then ([], none)
  else
    let word := readAt file e.offset 2
    let read := [.store .count 0 word.length]
    if word.length ≠ 2 then (read, none)
    -- a negative count is large as a `size_t`
    else if 9 < le16 word 0 then (read, none)
    else
      let b := readAt file (e.offset + 2) (8 * le16 word 0)
      let read := read ++ [.store .hdr 0 b.length]
      if b.length ≠ 8 * le16 word 0 then (read, none)
      else (read, some ((List.range (le16 word 0)).map (subfOf b)))

/-- The loop over the entries, up to the one that matches; `none` if there is no such entry, or one
in front of it that is not valid. -/
def entryLoop (file : Str) (ctryCode codePage : UInt16) : ℕ → ℕ → List Access × Option Entry
  | 0, _ => ([], none)
  | n + 1, pos =>
    let b := readAt file pos 14
    let read := [.store .entry 0 b.length]
    if b.length ≠ 14 ∨ le16 b 0 ≠ 12 then (read, none)
    else if (entryOf b).country ≠ ctryCode.toNat ∨
        ((entryOf b).codepage ≠ codePage.toNat ∧ codePage ≠ 0) then
      let (rest, e) := entryLoop file ctryCode codePage n (pos + 14)
      (read ++ rest, e)
    else (read, some (entryOf b))

/-- The entry of the country and code page. -/
def findEntry (file : Str) (ctryCode codePage : UInt16) : List Access × Option Entry :=
  let header := readAt file 0 23
  let read := [.store .header 0 header.length]
  if header.length ≠ 23 then (read, none)
  else if header.take 8 ≠ countryName then (read, none)
  else if le32 header 19 = seekError then (read, none)
  else
    let word := readAt file (le32 header 19) 2
    let read := read ++ [.store .entries 0 word.length]
    if word.length ≠ 2 then (read, none)
    else
      -- a negative number of entries is none
      let entries := if le16 word 0 < 32768 then le16 word 0 else 0
      let (rest, e) := entryLoop file ctryCode codePage entries (le32 header 19 + 2)
      (read ++ rest, e)

end Config
end BurdahDos
