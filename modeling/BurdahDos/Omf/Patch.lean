import Mathlib

/-!
# Object files with other names

`utils/patchobj.c`, which the makefiles use to give the segments of a compiled file other
names.  A file is a list of records, each with a type, a length, and as many bytes, the last of
which is a checksum.

* `patchobj_append`: the names are replaced, and all else is copied.
* `checksum_iff`: when a record that has been written has a good checksum.
-/

set_option autoImplicit false

namespace BurdahDos
namespace Omf

abbrev Bytes := List UInt8
abbrev Str := List UInt8

/-! ## `patchobj` -/

/-- `repl`: what is on the left and on the right of `=`. -/
abbrev Repl := List (Str × Str)

/-- How `go_records` gives up.  The last one is not in the source: a name has no space in
`Outrecord.buffer`, and there is no outcome. -/
inductive Quit where
  | recordTooLarge
  | invalidFormat
  | invalidLnames
  | outside
  deriving DecidableEq

/-- `sizeof(Record.buffer)` -/
def bufferSize : ℕ := 8192

/-- A record as it is in a file. -/
def recordBytes (rectyp : UInt8) (buffer : Bytes) : Bytes :=
  rectyp :: UInt8.ofNat (buffer.length % 256) :: UInt8.ofNat (buffer.length / 256) :: buffer

/-- The loop over `repl`: each of them is applied to what the others have made of the name.
`stringlen` is a byte. -/
def replaced (repl : Repl) (string : Str) : Str :=
  repl.foldl (fun string r => if string = r.1 then r.2.take (r.2.length % 256) else string) string

/-- The loop over the names, from `Record.buffer[i]` on, with what is in `Outrecord.buffer`.  A turn
takes a byte at least. -/
def namesLoop (repl : Repl) (buffer : Bytes) : ℕ → ℕ → Bytes → Except Quit Bytes
  | 0, _, out => .ok out
  | fuel + 1, i, out =>
    if i + 1 < buffer.length then
      let stringlen := (buffer.getD i 0).toNat
      let string := (buffer.drop (i + 1)).take stringlen
      if buffer.length < i + 1 + stringlen then .error .invalidLnames
      else
        let string := replaced repl string
        let next := out ++ UInt8.ofNat string.length :: string
        if bufferSize < next.length then .error .outside
        else namesLoop repl buffer fuel (i + 1 + stringlen) next
    else .ok out

/-- `~chksum`, of `Outrecord` without the byte for it. -/
def checksum (rectyp : UInt8) (buffer : Bytes) : UInt8 := ~~~(recordBytes rectyp buffer).sum

/-- What is written for a record. -/
def patchRecord (repl : Repl) (rectyp : UInt8) (buffer : Bytes) : Except Quit Bytes :=
  if rectyp ≠ 0x96 ∧ rectyp ≠ 0x8c then .ok (recordBytes rectyp buffer)
  else
    match namesLoop repl buffer buffer.length 0 [] with
    | .error q => .error q
    | .ok out =>
      if bufferSize ≤ out.length then .error .outside
      else .ok (recordBytes rectyp (out ++ [checksum rectyp out]))

/-- `go_records`: what is written, and how it gives up if it does. -/
def goRecords (repl : Repl) : ℕ → Bytes → Bytes × Option Quit
  | 0, _ => ([], none)
  | fuel + 1, rectyp :: lo :: hi :: fd =>
    let datalen := lo.toNat + 256 * hi.toNat
    if bufferSize < datalen then ([], some .recordTooLarge)
    else if fd.length < datalen then ([], some .invalidFormat)
    else
      match patchRecord repl rectyp (fd.take datalen) with
      | .error q => ([], some q)
      | .ok out =>
        if rectyp = 0 then (out, none)
        else
          let r := goRecords repl fuel (fd.drop datalen)
          (out ++ r.1, r.2)
  | _ + 1, _ => ([], none)

/-- What becomes of a file.  A record takes three bytes at least. -/
def patchobj (repl : Repl) (fd : Bytes) : Bytes × Option Quit := goRecords repl (fd.length + 1) fd

/-! ## Files -/

/-- Names, each with its length. -/
def counted (strs : List Str) : Bytes := strs.flatMap fun s => UInt8.ofNat s.length :: s

/-- A record: one of names, or another. -/
inductive Rec where
  | names (rectyp : UInt8) (strs : List Str) (chksum : UInt8)
  | other (rectyp : UInt8) (buffer : Bytes)

def Rec.bytes : Rec → Bytes
  | names rectyp strs chksum => recordBytes rectyp (counted strs ++ [chksum])
  | other rectyp buffer => recordBytes rectyp buffer

/-- The record can be read, and is not the one behind which nothing is. -/
def Rec.Valid : Rec → Prop
  | names rectyp strs _ =>
    (rectyp = 0x96 ∨ rectyp = 0x8c) ∧ (∀ s ∈ strs, s.length < 256) ∧
      (counted strs).length < bufferSize
  | other rectyp buffer =>
    (rectyp ≠ 0x96 ∧ rectyp ≠ 0x8c ∧ rectyp ≠ 0) ∧ buffer.length ≤ bufferSize

/-- The record with the other names. -/
def Rec.patched (repl : Repl) : Rec → Rec
  | names rectyp strs _ =>
    let strs' := strs.map (replaced repl)
    names rectyp strs' (checksum rectyp (counted strs'))
  | other rectyp buffer => other rectyp buffer

/-- There is space for the names. -/
def Rec.Fits (repl : Repl) : Rec → Prop
  | names _ strs _ => (counted (strs.map (replaced repl))).length < bufferSize
  | other _ _ => True

/-- A file. -/
def fileBytes (recs : List Rec) : Bytes := recs.flatMap Rec.bytes

/-! ## Names -/

section
variable {repl : Repl}

@[simp] theorem counted_nil : counted [] = [] := rfl

theorem counted_cons (s : Str) (strs : List Str) :
    counted (s :: strs) = UInt8.ofNat s.length :: (s ++ counted strs) := List.flatMap_cons

theorem counted_append (strs strs' : List Str) :
    counted (strs ++ strs') = counted strs ++ counted strs' := List.flatMap_append

theorem length_le_counted (strs : List Str) : strs.length ≤ (counted strs).length := by
  induction strs with
  | nil => exact Nat.le_refl _
  | cons s strs ih =>
    rw [counted_cons, List.length_cons, List.length_cons, List.length_append]
    omega

/-- **The loop over the names** from one of them on. -/
theorem namesLoop_counted {front : List Str} (strs : List Str) (chksum : UInt8)
    (hlen : ∀ s ∈ strs, s.length < 256) {out : Bytes}
    (hout : (out ++ counted (strs.map (replaced repl))).length ≤ bufferSize) {fuel : ℕ}
    (hfuel : strs.length < fuel) :
    namesLoop repl (counted front ++ (counted strs ++ [chksum])) fuel (counted front).length out =
      .ok (out ++ counted (strs.map (replaced repl))) := by
  induction strs generalizing front fuel out with
  | nil =>
    obtain ⟨fuel, rfl⟩ : ∃ k, fuel = k + 1 := ⟨fuel - 1, by simp at hfuel; omega⟩
    rw [namesLoop, if_neg (by simp), List.map_nil, counted_nil, List.append_nil]
  | cons s strs ih =>
    obtain ⟨fuel, rfl⟩ : ∃ k, fuel = k + 1 := ⟨fuel - 1, by simp at hfuel; omega⟩
    have hs := hlen s List.mem_cons_self
    have hbyte : (UInt8.ofNat s.length).toNat = s.length := UInt8.toNat_ofNat_of_lt' hs
    have hget : (counted front ++ (counted (s :: strs) ++ [chksum])).getD (counted front).length 0 =
        UInt8.ofNat s.length := by
      rw [List.getD_append_right _ _ _ _ (Nat.le_refl _), Nat.sub_self, counted_cons]
      rfl
    have hdrop : ((counted front ++ (counted (s :: strs) ++ [chksum])).drop
        ((counted front).length + 1)).take s.length = s := by
      rw [← List.drop_drop, List.drop_left, counted_cons, List.cons_append, List.drop_one,
        List.tail_cons, List.append_assoc, List.take_left]
    have hnext : counted front ++ (counted (s :: strs) ++ [chksum]) =
        counted (front ++ [s]) ++ (counted strs ++ [chksum]) := by
      rw [counted_append, counted_cons, counted_cons]
      simp
    have hpos : (counted front).length + 1 + s.length = (counted (front ++ [s])).length := by
      rw [counted_append, counted_cons]
      simp
      omega
    have hmore : (counted front ++ (counted (s :: strs) ++ [chksum])).length =
        (counted front).length + 1 + s.length + (counted strs).length + 1 := by
      rw [counted_cons]
      simp
      omega
    have hsplit : out ++ counted ((s :: strs).map (replaced repl)) =
        (out ++ UInt8.ofNat (replaced repl s).length :: replaced repl s) ++
          counted (strs.map (replaced repl)) := by
      rw [List.map_cons, counted_cons]
      simp
    rw [hsplit] at hout ⊢
    have hfits : (out ++ UInt8.ofNat (replaced repl s).length :: replaced repl s).length ≤
        bufferSize := by
      rw [List.length_append] at hout
      omega
    rw [namesLoop, if_pos (by rw [hmore]; omega)]
    simp only [hget, hbyte, hdrop]
    rw [if_neg (by rw [hmore]; omega), if_neg (by omega), hpos, hnext]
    exact ih (fun x hx => hlen x (List.mem_cons_of_mem s hx)) hout (by simp at hfuel; omega)

/-! ## Records -/

theorem patchRecord_names {rectyp : UInt8} {strs : List Str} {chksum : UInt8}
    (h : (Rec.names rectyp strs chksum).Valid) (hfits : (Rec.names rectyp strs chksum).Fits repl) :
    patchRecord repl rectyp (counted strs ++ [chksum]) =
      .ok ((Rec.names rectyp strs chksum).patched repl).bytes := by
  obtain ⟨htyp, hlen, -⟩ := h
  have hfuel : strs.length < (counted strs ++ [chksum]).length := by
    rw [List.length_append, List.length_singleton]
    have := length_le_counted strs
    omega
  have hloop : namesLoop repl (counted strs ++ [chksum]) (counted strs ++ [chksum]).length 0 [] =
      .ok (counted (strs.map (replaced repl))) :=
    @namesLoop_counted repl [] strs chksum hlen [] hfits.le _ hfuel
  rw [patchRecord, if_neg (by rintro ⟨h1, h2⟩; exact htyp.elim h1 h2), hloop]
  exact if_neg (Nat.not_le.2 hfits)

theorem patchRecord_valid {rec : Rec} (h : rec.Valid) (hfits : rec.Fits repl) :
    ∃ rectyp buffer, rec.bytes = recordBytes rectyp buffer ∧ rectyp ≠ 0 ∧
      buffer.length ≤ bufferSize ∧
      patchRecord repl rectyp buffer = .ok (rec.patched repl).bytes := by
  cases rec with
  | names rectyp strs chksum =>
    refine ⟨rectyp, _, rfl, ?_, ?_, patchRecord_names h hfits⟩
    · rintro rfl
      exact absurd h.1 (by decide)
    · rw [List.length_append, List.length_singleton]
      exact h.2.2
  | other rectyp buffer =>
    obtain ⟨⟨h1, h2, h3⟩, hlen⟩ := h
    exact ⟨rectyp, buffer, rfl, h3, hlen, if_pos ⟨h1, h2⟩⟩

/-! ## Files -/

theorem goRecords_record {rectyp : UInt8} {buffer out : Bytes} (hlen : buffer.length ≤ bufferSize)
    (hpatch : patchRecord repl rectyp buffer = .ok out) (hne : rectyp ≠ 0) (fd : Bytes)
    (fuel : ℕ) :
    goRecords repl (fuel + 1) (recordBytes rectyp buffer ++ fd) =
      (out ++ (goRecords repl fuel fd).1, (goRecords repl fuel fd).2) := by
  have hsize : bufferSize = 8192 := rfl
  have hlo : (UInt8.ofNat (buffer.length % 256)).toNat = buffer.length % 256 :=
    UInt8.toNat_ofNat_of_lt' (by change _ < 256; omega)
  have hhi : (UInt8.ofNat (buffer.length / 256)).toNat = buffer.length / 256 :=
    UInt8.toNat_ofNat_of_lt' (by change _ < 256; omega)
  have hdatalen : buffer.length % 256 + 256 * (buffer.length / 256) = buffer.length :=
    Nat.mod_add_div _ _
  rw [recordBytes, List.cons_append, List.cons_append, List.cons_append, goRecords, hlo, hhi,
    hdatalen]
  dsimp only
  rw [if_neg (Nat.not_lt.2 hlen), if_neg (by rw [List.length_append]; omega), List.take_left,
    hpatch, List.drop_left]
  exact if_neg hne

/-- More turns than there are bytes make no difference. -/
theorem goRecords_fuel {fuel fuel' : ℕ} {fd : Bytes} (h : fd.length < fuel)
    (h' : fd.length < fuel') : goRecords repl fuel fd = goRecords repl fuel' fd := by
  induction fuel generalizing fuel' fd with
  | zero => omega
  | succ fuel ih =>
    obtain ⟨fuel', rfl⟩ : ∃ k, fuel' = k + 1 := ⟨fuel' - 1, by omega⟩
    rcases fd with _ | ⟨rectyp, _ | ⟨lo, _ | ⟨hi, fd⟩⟩⟩
    · rfl
    · rfl
    · rfl
    · have hlen : (fd.drop (lo.toNat + 256 * hi.toNat)).length ≤ fd.length := by
        rw [List.length_drop]
        omega
      simp only [List.length_cons] at h h'
      have hrest := @ih fuel' (fd.drop (lo.toNat + 256 * hi.toNat)) (hlen.trans_lt (by omega))
        (hlen.trans_lt (by omega))
      rw [goRecords, goRecords, hrest]

/-- **The file that is written** has the records of the one that is read, in their order, with each
name replaced; the other records are the same, byte for byte. -/
theorem patchobj_append (repl : Repl) {recs : List Rec} (hvalid : ∀ rec ∈ recs, rec.Valid)
    (hfits : ∀ rec ∈ recs, rec.Fits repl) (fd : Bytes) :
    patchobj repl (fileBytes recs ++ fd) =
      (fileBytes (recs.map (Rec.patched repl)) ++ (patchobj repl fd).1, (patchobj repl fd).2) := by
  induction recs with
  | nil => rfl
  | cons rec recs ih =>
    obtain ⟨rectyp, buffer, hbytes, hne, hlen, hpatch⟩ :=
      patchRecord_valid (hvalid rec List.mem_cons_self) (hfits rec List.mem_cons_self)
    have hrest := ih (fun x hx => hvalid x (List.mem_cons_of_mem rec hx))
      (fun x hx => hfits x (List.mem_cons_of_mem rec hx))
    have hsplit : fileBytes (rec :: recs) ++ fd =
        recordBytes rectyp buffer ++ (fileBytes recs ++ fd) := by
      rw [fileBytes, List.flatMap_cons, hbytes, List.append_assoc]
      rfl
    have hfuel : goRecords repl (recordBytes rectyp buffer ++ (fileBytes recs ++ fd)).length
        (fileBytes recs ++ fd) = patchobj repl (fileBytes recs ++ fd) := by
      refine goRecords_fuel ?_ (Nat.lt_succ_self _)
      rw [@List.length_append _ (recordBytes rectyp buffer), recordBytes, List.length_cons]
      omega
    rw [hsplit, patchobj, goRecords_record hlen hpatch hne, hfuel, hrest, ← List.append_assoc]
    rfl

/-- `CO=ICO` -/
def someRepl : Repl := [([67, 79], [73, 67, 79])]

/-- A record of two names, and a comment. -/
def someRecs : List Rec := [.names 0x96 [[], [67, 79]] 0, .other 0x88 [1]]

theorem patchobj_append_someRecs :
    patchobj someRepl (fileBytes someRecs ++ []) =
      (fileBytes (someRecs.map (Rec.patched someRepl)) ++ (patchobj someRepl []).1,
        (patchobj someRepl []).2) :=
  patchobj_append someRepl (by simp [someRecs, Rec.Valid, counted, bufferSize])
    (by simp [someRecs, someRepl, Rec.Fits, counted, replaced, bufferSize]) []

end

/-! ## Checksums -/

/-- **The checksum** of a record that has been written makes the sum of its bytes zero, unless the
length of the record is a multiple of 256: `chksum` is computed before the length counts it. -/
theorem checksum_iff (repl : Repl) {rectyp : UInt8} {strs : List Str} {chksum : UInt8}
    (hfits : (Rec.names rectyp strs chksum).Fits repl) :
    ((Rec.names rectyp strs chksum).patched repl).bytes.sum = 0 ↔
      ¬256 ∣ (counted (strs.map (replaced repl))).length + 1 := by
  have hsize : (counted (strs.map (replaced repl))).length < 8192 := hfits
  simp only [Rec.patched, Rec.bytes]
  generalize counted (strs.map (replaced repl)) = out at *
  have hsum : (recordBytes rectyp (out ++ [checksum rectyp out])).sum.toNat =
      (rectyp.toNat + (out.length + 1) % 256 + (out.length + 1) / 256 + out.sum.toNat +
        (255 - (rectyp.toNat + out.length % 256 + out.length / 256 + out.sum.toNat) % 256)) %
        256 := by
    have hn : ∀ n < 256, (UInt8.ofNat n).toNat = n := fun n h => UInt8.toNat_ofNat_of_lt' h
    simp only [recordBytes, checksum, List.sum_cons, List.sum_append, List.sum_nil,
      List.length_append, List.length_singleton, UInt8.toNat_add, UInt8.toNat_not,
      hn _ (Nat.mod_lt _ (by decide : 0 < 256)), hn (out.length / 256) (by omega),
      hn ((out.length + 1) / 256) (by omega)]
    have h0 : (0 : UInt8).toNat = 0 := rfl
    rw [h0]
    norm_num
    omega
  rw [← UInt8.toNat_inj, hsum, Nat.dvd_iff_mod_eq_zero]
  change _ = 0 ↔ _
  have := rectyp.toNat_lt
  have := out.sum.toNat_lt
  omega

/-- Names that make a record of 256 bytes, and of one byte less. -/
theorem checksum_iff_long :
    ((Rec.names 0x96 [[67, 79], List.replicate 251 65] 0).patched [([67, 79], [68, 79])]).bytes.sum ≠
        0 ∧
      ((Rec.names 0x96 [[67, 79], List.replicate 250 65] 0).patched
        [([67, 79], [68, 79])]).bytes.sum = 0 := by
  have hfits : ∀ n < 255, (Rec.names 0x96 [[67, 79], List.replicate n 65] 0).Fits
      [([67, 79], [68, 79])] := by
    simp only [Rec.Fits]
    decide +kernel
  constructor
  · intro hsum
    exact (checksum_iff _ (hfits 251 (by decide))).mp hsum (by decide +kernel)
  · exact (checksum_iff _ (hfits 250 (by decide))).mpr (by decide +kernel)

end Omf
end BurdahDos
