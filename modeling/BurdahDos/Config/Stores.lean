import BurdahDos.Config.Country
import Mathlib

/-!
# Where the data of COUNTRY.SYS are stored

`LoadCountryInfo` looks at the number of headers before it reads them, and at the length of the
country information before it copies it, but at no other length.  What is longer than the buffer,
or than the table that it is for, is stored behind it.
-/

set_option autoImplicit false

namespace BurdahDos
namespace Config

/-! ## What fits -/

/-- The length that the data of a subfunction are said to have, and how much of it there is in the
file; `none` if the data are not read. -/
def Subf.data (h : Subf) (file : Str) : Option (ℕ × ℕ) :=
  let front := readAt file h.offset 10
  if h.length ≠ 6 ∨ h.skipped = true ∨ h.offset = seekError ∨ front.length ≠ 10 ∨
      h.wrongSig (front.take 8) = true then none
  else some (le16 front 8, (readAt file (h.offset + 10) (le16 front 8)).length)

/-- What the table of a subfunction has space for, and the buffer. -/
def Subf.room (h : Subf) : ℕ :=
  if h.id = 2 ∨ h.id = 4 then 128
  else if h.id = 5 then 22
  else if h.id = 7 then 8
  else 256

/-- The buffer has space for what there is of the data, and the table if it is all there. -/
def Subf.Fits (h : Subf) (file : Str) : Prop :=
  ∀ length there, h.data file = some (length, there) →
    there ≤ 256 ∧ (there = length → length ≤ h.room)

/-- The loop over the subfunctions goes on behind this one. -/
def Subf.Passes (h : Subf) (file : Str) : Prop :=
  h.length = 6 ∧ (h.skipped = true ∨ ∃ length, h.data file = some (length, length))

/-- The subfunction headers of the entry that matches. -/
def headersOf (file : Str) (ctryCode codePage : UInt16) : Option (List Subf) :=
  (findEntry file ctryCode codePage).2.bind fun e => (readHeaders file e).2

/-- The data fit of every subfunction that the loop gets to. -/
def Bounded (file : Str) (ctryCode codePage : UInt16) : Prop :=
  ∀ hs, headersOf file ctryCode codePage = some hs → ∀ before h after, hs = before ++ h :: after →
    (∀ p ∈ before, p.Passes file) → h.Fits file

/-- All accesses are inside. -/
def Safe (accesses : List Access) : Prop := ∀ a ∈ accesses, a.Inside

end Config
end BurdahDos
