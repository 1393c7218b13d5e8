import BurdahDos.Shell.Extension
import Mathlib

/-!
# What installable commands leave

Each handler keeps the texts within their lengths (`Kept`).

* `prepare_spec`: the handler is given the strings, with their lengths.
* `cleanup_spec`: what it leaves becomes strings again if and only if `Fits`: there is no CR in the
  line, and the length of the command is below 128.
* `docommand_iff`: this is so for all calls of a command line, if its first word has at most 254
  characters.
-/

set_option autoImplicit false

namespace BurdahDos
namespace Shell
namespace MuxAe

open CString

/-! ## Bytes -/

theorem write_inside {b : Bytes} {i : ℕ} {s : Str} (h : i + s.length ≤ b.length) :
    ∃ b', write b i s = some b' ∧ b'.length = b.length ∧
      ∀ j, b'[j]? = if i ≤ j ∧ j < i + s.length then s[j - i]? else b[j]? := by
  have hwrite := write_of_le h
  refine ⟨_, hwrite, length_write hwrite, fun j => ?_⟩
  rcases Nat.lt_or_ge j i with hlt | hge
  · rw [if_neg (by omega), get_write_of_lt hwrite hlt]
  · rcases Nat.lt_or_ge j (i + s.length) with hlt | hout
    · obtain ⟨k, rfl⟩ : ∃ k, j = i + k := ⟨j - i, by omega⟩
      rw [if_pos ⟨hge, hlt⟩, get_write_mid hwrite (by omega), Nat.add_sub_cancel_left]
    · rw [if_neg (by omega), get_write_of_le hwrite hout]

theorem store_inside {b : Bytes} {i : ℕ} (h : i < b.length) (c : UInt8) :
    ∃ b', store b i c = some b' ∧ b'.length = b.length ∧
      ∀ j, b'[j]? = if j = i then some c else b[j]? := by
  obtain ⟨b', hstore, hlen, hget⟩ := @write_inside b i [c] h
  refine ⟨b', hstore, hlen, fun j => ?_⟩
  rw [hget]
  by_cases hj : j = i
  · subst hj
    simp
  · rw [if_neg hj, if_neg (by simp; omega)]

theorem holds_iff {b : Bytes} {i : ℕ} {s : Str} :
    Holds b i s ↔ 0 ∉ s ∧ b[i + s.length]? = some 0 ∧ ∀ j < s.length, b[i + j]? = s[j]? := by
  constructor
  · intro h
    refine ⟨h.2, h.get_nul, fun j hj => ?_⟩
    rw [h.get hj.le, List.getElem?_append_left hj]
  · rintro ⟨hs, hnul, hget⟩
    refine ⟨?_, hs⟩
    rw [List.prefix_iff_getElem?]
    intro j hj
    rw [List.length_append, List.length_singleton] at hj
    rw [List.getElem?_drop]
    rcases Nat.lt_or_ge j s.length with hlt | hge
    · rw [hget j hlt, List.getElem_append_left hlt, List.getElem?_eq_getElem hlt]
    · obtain rfl : j = s.length := by omega
      rw [hnul]
      simp

theorem counted_get {b : Bytes} {i j : ℕ} (hj : j < lengthByte b i) :
    (counted b i)[j]? = b[i + j]? := by
  rw [counted, List.getElem?_take_of_lt hj, List.getElem?_drop]

theorem counted_length {b : Bytes} {i : ℕ} (h : i + lengthByte b i ≤ b.length) :
    (counted b i).length = lengthByte b i := by
  rw [counted, List.length_take, List.length_drop]
  omega

theorem counted_eq {b : Bytes} {i : ℕ} {s : Str} (hlen : b[i - 1]? = some (UInt8.ofNat s.length))
    (hs : s.length < 256) (hget : ∀ j < s.length, b[i + j]? = s[j]?) : counted b i = s := by
  have hbyte : lengthByte b i = s.length := by
    rw [lengthByte, List.getD_eq_getElem?_getD, hlen, Option.getD_some,
      UInt8.toNat_ofNat_of_lt' hs]
  apply List.ext_getElem?
  intro j
  rcases Nat.lt_or_ge j s.length with hlt | hge
  · rw [counted_get (by omega), hget j hlt]
  · rw [counted, hbyte, List.getElem?_eq_none hge, List.getElem?_eq_none]
    rw [List.length_take]
    omega

/-! ## The strings are prepared -/

/-- What the handler is given, and what it leaves: it knows the lengths that there is room for. -/
structure Kept (b : Bytes) : Prop where
  length_eq : b.length = blockSize
  max : b[argsAt - 2]? = some (UInt8.ofNat bufferSize)
  fence : b[argsAt + bufferSize]? = some 0
  command_nonul : 0 ∉ counted b comAt
  line_nonul : 0 ∉ counted b argsAt

/-- The strings in a block. -/
structure Strings (b : Bytes) (command text : Str) : Prop where
  length_eq : b.length = blockSize
  command : Holds b comAt command
  line : Holds b argsAt text
  line_le : text.length ≤ bufferSize

theorem prepare_spec {b : Bytes} {command text : Str} (h : Strings b command text) :
    ∃ b', prepare b = some b' ∧ Kept b' ∧ counted b' comAt = command ∧
      counted b' argsAt = text := by
  obtain ⟨hlength, hcommand, htext, hle⟩ := h
  have hlt := hcommand.length_lt
  obtain ⟨hcnul, -, hcget⟩ := holds_iff.1 hcommand
  obtain ⟨htnul, hend, htget⟩ := holds_iff.1 htext
  simp only [blockSize, bufferSize, comAt] at hlength hcommand hle hlt hcget
  simp only [argsAt] at htext htget hend
  simp only [prepare, comAt, argsAt, bufferSize]
  rw [hcommand.str, Option.bind_some, htext.str, Option.bind_some]
  obtain ⟨b₁, h₁, hl₁, hg₁⟩ := @store_inside b 259 (by omega) (UInt8.ofNat command.length)
  obtain ⟨b₂, h₂, hl₂, hg₂⟩ := @store_inside b₁ 1 (by omega) (UInt8.ofNat text.length)
  obtain ⟨b₃, h₃, hl₃, hg₃⟩ := @store_inside b₂ 258 (by omega) (UInt8.ofNat 255)
  obtain ⟨b₄, h₄, hl₄, hg₄⟩ := @store_inside b₃ 0 (by omega) (UInt8.ofNat 255)
  obtain ⟨b₅, h₅, hl₅, hg₅⟩ := @write_inside b₄ (260 + command.length)
    (List.replicate (255 - command.length) 32) (by simp; omega)
  -- the string at the end of the line is empty
  have hempty : Holds b₅ (2 + text.length) [] := by
    refine holds_iff.2 ⟨by simp, ?_, by simp⟩
    rw [List.length_nil, hg₅, if_neg (by omega), hg₄, if_neg (by omega), hg₃, if_neg (by omega),
      hg₂, if_neg (by omega), hg₁, if_neg (by omega)]
    exact hend
  obtain ⟨b₆, h₆, hl₆, hg₆⟩ := @write_inside b₅ (2 + text.length) [13, 0] (by simp; omega)
  obtain ⟨b₇, h₇, hl₇, hg₇⟩ := @store_inside b₆ 257 (by omega) 0
  have hcat : strcat b₅ (2 + text.length) [13] = some b₆ := by
    rw [hempty.strcat_eq]
    exact h₆
  have hlow : ∀ j < 2 + text.length, j ≠ 257 → b₇[j]? = b₄[j]? := fun j hj hne => by
    rw [hg₇, if_neg hne, hg₆, if_neg (by omega), hg₅, if_neg (by omega)]
  have hhigh : ∀ j, 258 < j → j < 260 + command.length → b₇[j]? = b₁[j]? := fun j hgt hj => by
    rw [hg₇, if_neg (by omega), hg₆, if_neg (by simp; omega), hg₅, if_neg (by omega), hg₄,
      if_neg (by omega), hg₃, if_neg (by omega), hg₂, if_neg (by omega)]
  have hc : counted b₇ 260 = command := by
    refine counted_eq ?_ (by omega) fun j hj => ?_
    · rw [hhigh _ (by omega) (by omega), hg₁, if_pos rfl]
    · rw [hhigh _ (by omega) (by omega), hg₁, if_neg (by omega), hcget j hj]
  have ht : counted b₇ 2 = text := by
    refine counted_eq ?_ (by omega) fun j hj => ?_
    · rw [hlow _ (by omega) (by omega), hg₄, if_neg (by omega), hg₃, if_neg (by omega), hg₂,
        if_pos rfl]
    · rw [hlow _ (by omega) (by omega), hg₄, if_neg (by omega), hg₃, if_neg (by omega), hg₂,
        if_neg (by omega), hg₁, if_neg (by omega), htget j hj]
  refine ⟨b₇, ?_, ⟨by simp only [blockSize, bufferSize]; omega, ?_, ?_, hc ▸ hcnul, ht ▸ htnul⟩, hc,
    ht⟩
  · rw [h₁, Option.bind_some, h₂, Option.bind_some, h₃, Option.bind_some, h₄, Option.bind_some, h₅,
      Option.bind_some, hcat, Option.bind_some, h₇]
  · rw [argsAt, hlow _ (by omega) (by omega), hg₄, if_pos rfl]
    rfl
  · rw [argsAt, bufferSize, hg₇, if_pos rfl]

/-! ## The texts are made strings again -/

/-- The command that is left, without the blanks at its end. -/
def trimmed (b : Bytes) : Str := (counted b comAt).rdropWhile isspace

/-- The texts become strings: the line has no CR, and the length of the command is below 128.  For a
longer command, the NUL is stored into the line, so that it has to be there already. -/
def Fits (b : Bytes) : Prop :=
  13 ∉ counted b argsAt ∧
    (lengthByte b comAt < 128 ∨
      Holds b comAt (counted b comAt) ∧ trimmed b = counted b comAt ∧
        lengthByte b argsAt ≤ lengthByte b comAt + 2)

theorem lengthByte_lt (b : Bytes) (i : ℕ) : lengthByte b i < 256 := (b.getD (i - 1) 0).toNat_lt

variable {b : Bytes}

theorem Kept.command_length (h : Kept b) : (counted b comAt).length = lengthByte b comAt := by
  have hlen := h.length_eq
  have hlt := lengthByte_lt b comAt
  simp only [blockSize, bufferSize] at hlen
  exact counted_length (by simp only [comAt, bufferSize] at *; omega)

theorem Kept.line_length (h : Kept b) : (counted b argsAt).length = lengthByte b argsAt := by
  have hlen := h.length_eq
  have hlt := lengthByte_lt b argsAt
  simp only [blockSize, bufferSize] at hlen
  exact counted_length (by simp only [argsAt] at *; omega)

theorem trimmed_isPrefix (b : Bytes) : trimmed b <+: counted b comAt := List.rdropWhile_prefix _ _

theorem trimmed_isPrefixngth (h : Kept b) : (trimmed b).length ≤ lengthByte b comAt :=
  h.command_length ▸ (trimmed_isPrefix b).length_le

/-- The NUL for the command is behind it, or in the line. -/
theorem commandEnd_cases (h : Kept b) :
    lengthByte b comAt < 128 ∧ commandEnd b = 260 + (trimmed b).length ∧ commandEnd b < 388 ∨
      128 ≤ lengthByte b comAt ∧ commandEnd b = lengthByte b comAt + 4 ∧ commandEnd b < 260 := by
  have htrim := trimmed_isPrefixngth h
  have hlt := lengthByte_lt b comAt
  rw [commandEnd]
  split
  next hshort => exact .inl ⟨hshort, rfl, by simp only [trimmed, comAt, bufferSize] at *; omega⟩
  next hlong => exact .inr (by simp only [comAt, bufferSize] at *; omega)

/-- Where the stores are: one for the command, and two for the line. -/
theorem cleanup_stores (h : Kept b) :
    ∃ b', cleanup b = cutLine b' ∧ b'.length = blockSize ∧
      ∀ j, b'[j]? = if j = 2 + lengthByte b argsAt ∨ j = 257 ∨ j = commandEnd b then some 0
        else b[j]? := by
  have hlen := h.length_eq
  have hend := commandEnd_cases h
  have hlt := lengthByte_lt b argsAt
  simp only [blockSize, bufferSize] at hlen
  obtain ⟨b₁, h₁, hl₁, hg₁⟩ := @store_inside b (commandEnd b) (by omega) 0
  have hmax : (b₁.getD (argsAt - 2) 0).toNat = 255 := by
    rw [List.getD_eq_getElem?_getD, hg₁, if_neg (by simp only [argsAt]; omega), h.max]
    rfl
  obtain ⟨b₂, h₂, hl₂, hg₂⟩ := @store_inside b₁ 257 (by omega) 0
  have hbyte : lengthByte b₂ argsAt = lengthByte b argsAt := by
    rw [lengthByte, lengthByte, List.getD_eq_getElem?_getD, List.getD_eq_getElem?_getD, hg₂,
      if_neg (by simp [argsAt]), hg₁, if_neg (by simp only [argsAt]; omega)]
  obtain ⟨b₃, h₃, hl₃, hg₃⟩ := @store_inside b₂ (2 + lengthByte b argsAt) (by omega) 0
  refine ⟨b₃, ?_, by simp only [blockSize, bufferSize]; omega, fun j => ?_⟩
  · have h₂' : store b₁ (argsAt + 255) 0 = some b₂ := h₂
    have h₃' : store b₂ (argsAt + lengthByte b argsAt) 0 = some b₃ := h₃
    rw [cleanup, h₁, Option.bind_some, hmax, h₂', Option.bind_some, hbyte, h₃', Option.bind_some]
  · rw [hg₃, hg₂, hg₁]
    by_cases hline : j = 2 + lengthByte b argsAt
    · rw [if_pos hline, if_pos (.inl hline)]
    · by_cases hfence : j = 257
      · rw [if_neg hline, if_pos hfence, if_pos (.inr (.inl hfence))]
      · by_cases hcommand : j = commandEnd b
        · rw [if_neg hline, if_neg hfence, if_pos hcommand, if_pos (.inr (.inr hcommand))]
        · rw [if_neg hline, if_neg hfence, if_neg hcommand, if_neg (by tauto)]

theorem cutLine_spec {s : Str} (h : Holds b argsAt s) :
    ∃ b', cutLine b = some b' ∧ b'.length = b.length ∧
      Holds b' argsAt (s.takeWhile (· != 13)) ∧ ∀ j, argsAt + s.length < j → b'[j]? = b[j]? := by
  rw [cutLine, h.str, Option.bind_some]
  split
  next hcr =>
    have hpre : s.takeWhile (· != 13) <+: s := List.takeWhile_prefix _
    have hle := hpre.length_le
    have hlt := h.length_lt
    obtain ⟨b', hstore, hlen, hget⟩ :=
      @store_inside b (argsAt + (s.takeWhile (· != 13)).length) (by omega) 0
    refine ⟨b', hstore, hlen, ?_, fun j hj => by rw [hget, if_neg (by omega)]⟩
    obtain ⟨hnul, -, hs⟩ := holds_iff.1 h
    refine holds_iff.2 ⟨fun hmem => hnul (hpre.subset hmem), by rw [hget, if_pos rfl], ?_⟩
    intro j hj
    rw [hget, if_neg (by omega), hs j (by omega)]
    exact (List.prefix_iff_getElem?.1 hpre j hj).trans (List.getElem?_eq_getElem hj).symm
  next hno =>
    have hall : s.takeWhile (· != 13) = s := List.takeWhile_eq_self_iff.2 fun c hc => by
      rw [bne_iff_ne]
      rintro rfl
      exact hno hc
    exact ⟨b, rfl, rfl, by rwa [hall], fun _ _ => rfl⟩

/-- The line ends at its length, or at the NUL for the command. -/
theorem holds_line {b' : Bytes} (h : Kept b)
    (hget : ∀ j, b'[j]? = if j = 2 + lengthByte b argsAt ∨ j = 257 ∨ j = commandEnd b then some 0
      else b[j]?) : Holds b' argsAt ((counted b argsAt).take (commandEnd b - 2)) := by
  have hlen := h.line_length
  have hlt := lengthByte_lt b argsAt
  have hend := commandEnd_cases h
  have hargs : argsAt = 2 := rfl
  refine holds_iff.2 ⟨fun hmem => h.line_nonul (List.mem_of_mem_take hmem), ?_, fun j hj => ?_⟩
  · rw [hget, if_pos]
    rw [List.length_take]
    omega
  · rw [List.length_take] at hj
    rw [hget, if_neg (by omega), List.getElem?_take_of_lt (by omega),
      counted_get (by omega)]

/-- The command ends behind its last character, unless the NUL went into the line. -/
theorem holds_command {b' : Bytes} (h : Kept b)
    (hget : ∀ j, 257 < j → b'[j]? = if j = commandEnd b then some 0 else b[j]?) :
    Holds b' comAt (trimmed b) ↔ lengthByte b comAt < 128 ∨
      Holds b comAt (counted b comAt) ∧ trimmed b = counted b comAt := by
  have hlen := h.command_length
  have hpre := trimmed_isPrefix b
  have htrim := trimmed_isPrefixngth h
  have hnul : 0 ∉ trimmed b := fun hmem => h.command_nonul (hpre.subset hmem)
  have hat : ∀ j, comAt + j = 260 + j := fun _ => rfl
  rcases commandEnd_cases h with ⟨hshort, hend, -⟩ | ⟨hlong, -, hend⟩
  · refine iff_of_true (holds_iff.2 ⟨hnul, ?_, fun j hj => ?_⟩) (.inl hshort)
    · rw [hat, hget _ (by omega), if_pos hend.symm]
    · rw [hat, hget _ (by omega), if_neg (by omega), ← hat, ← counted_get (by omega)]
      exact (List.prefix_iff_getElem?.1 hpre j hj).trans (List.getElem?_eq_getElem hj).symm
  · have hsame : ∀ s, Holds b' comAt s ↔ Holds b comAt s := fun s => by
      have hj : ∀ j, b'[comAt + j]? = b[comAt + j]? := fun j => by
        rw [hat, hget _ (by omega), if_neg (by omega)]
      rw [holds_iff, holds_iff]
      simp only [hj]
    rw [hsame, or_iff_right (by omega)]
    constructor
    · intro hheld
      have hwhole : (trimmed b).length = (counted b comAt).length := by
        by_contra hne
        have hzero := (holds_iff.1 hheld).2.1
        rw [← counted_get (by omega)] at hzero
        exact h.command_nonul (List.mem_of_getElem? hzero)
      have heq := hpre.eq_of_length hwhole
      exact ⟨heq ▸ hheld, heq⟩
    · rintro ⟨hheld, heq⟩
      rwa [heq]

/-- A line that is cut is the whole line. -/
theorem cut_eq_iff (s : Str) (n : ℕ) :
    (s.take n).takeWhile (· != 13) = s ↔ 13 ∉ s ∧ s.length ≤ n := by
  constructor
  · intro h
    have hpre : (s.take n).takeWhile (· != 13) <+: s.take n := List.takeWhile_prefix _
    have hle := hpre.length_le
    rw [h, List.length_take] at hle
    refine ⟨fun hmem => ?_, by omega⟩
    rw [← h] at hmem
    simpa using List.mem_takeWhile_imp hmem
  · rintro ⟨hcr, hle⟩
    rw [List.take_of_length_le hle, List.takeWhile_eq_self_iff]
    intro c hc
    rw [bne_iff_ne]
    rintro rfl
    exact hcr hc

/-- **The texts that the handler left become strings if and only if `Fits`.** -/
theorem cleanup_spec (h : Kept b) :
    ∃ b', cleanup b = some b' ∧ b'.length = blockSize ∧
      (Holds b' comAt (trimmed b) ∧ Holds b' argsAt (counted b argsAt) ↔ Fits b) := by
  obtain ⟨b₁, hcleanup, hlen, hget⟩ := cleanup_stores h
  have hline := holds_line h hget
  obtain ⟨b₂, hcutLine, hlen₂, hline₂, hsame⟩ := cutLine_spec hline
  have hlinelen := h.line_length
  have hlt := lengthByte_lt b argsAt
  have hhigh : ∀ j, 257 < j → b₂[j]? = if j = commandEnd b then some 0 else b[j]? := fun j hj => by
    have hbelow : 2 + ((counted b argsAt).take (commandEnd b - 2)).length < j := by
      rw [List.length_take]
      omega
    rw [hsame j hbelow, hget]
    simp only [show ¬ j = 2 + lengthByte b argsAt by omega, show ¬ j = 257 by omega, false_or]
  have hlineiff : Holds b₂ argsAt (counted b argsAt) ↔
      13 ∉ counted b argsAt ∧ lengthByte b argsAt ≤ commandEnd b - 2 := by
    rw [← hlinelen, ← cut_eq_iff]
    exact ⟨fun hheld => hline₂.unique hheld, fun heq => heq ▸ hline₂⟩
  refine ⟨b₂, hcleanup.trans hcutLine, hlen₂.trans hlen, ?_⟩
  rw [hlineiff, holds_command h hhigh, Fits]
  rcases commandEnd_cases h with ⟨hshort, hend, -⟩ | ⟨hlong, hend, -⟩
  · have hroom : lengthByte b argsAt ≤ commandEnd b - 2 := by omega
    tauto
  · have hroom : lengthByte b argsAt ≤ commandEnd b - 2 ↔
        lengthByte b argsAt ≤ lengthByte b comAt + 2 := by omega
    have hnot : ¬ lengthByte b comAt < 128 := by omega
    rw [hroom]
    tauto

/-! ## The calls -/

/-- The handler was given the strings, and the texts that it left are strings now. -/
structure Call.Right (c : Call) : Prop where
  given : counted c.before comAt = c.command ∧ counted c.before argsAt = c.line
  command : Holds c.result comAt (trimmed c.after)
  line : Holds c.result argsAt (counted c.after argsAt)

/-- The handlers keep the texts within their lengths. -/
def Env.Keeps (env : Env) : Prop := ∀ n b, Kept b → Kept (env.handler n b).2

theorem runExtension_spec {handler : Handler} (hkeeps : ∀ b, Kept b → Kept (handler b).2)
    {command text : Str} (h : Strings b command text) :
    ∃ call rc, runExtension handler b = .ret call rc ∧ (call.Right ↔ Fits call.after) ∧
      (call.Right → ∃ s t, Strings call.result s t) := by
  obtain ⟨before, hprepare, hbefore, hcommand, hline⟩ := prepare_spec h
  have hafter := hkeeps before hbefore
  obtain ⟨result, hcleanup, hlen, hiff⟩ := cleanup_spec hafter
  have hmax : (handler before).2.getD (argsAt - 2) 0 = UInt8.ofNat bufferSize := by
    rw [List.getD_eq_getElem?_getD, hafter.max, Option.getD_some]
  have hfence : (handler before).2.getD (argsAt + bufferSize) 0 = 0 := by
    rw [List.getD_eq_getElem?_getD, hafter.fence, Option.getD_some]
  refine ⟨⟨command, text, before, (handler before).2, result⟩,
    if (handler before).1 = 0xff then if lengthByte (handler before).2 comAt = 0 then 1 else 2
    else 0, ?_, ?_, ?_⟩
  · simp only [runExtension, h.command.str, h.line.str, hprepare, hmax, hfence, hcleanup,
      ne_eq, not_true_eq_false, or_self, if_false]
  · rw [← hiff]
    exact ⟨fun hright => ⟨hright.command, hright.line⟩,
      fun hheld => ⟨⟨hcommand, hline⟩, hheld.1, hheld.2⟩⟩
  · intro hright
    refine ⟨_, _, hlen, hright.command, hright.line, ?_⟩
    have hlt := lengthByte_lt (handler before).2 argsAt
    rw [hafter.line_length, bufferSize]
    omega

theorem callLoop_length (env : Env) (tries n : ℕ) (b : Bytes) :
    (callLoop env tries n b).calls.length ≤ tries := by
  induction tries generalizing n b with
  | zero => simp [callLoop]
  | succ tries ih =>
    rw [callLoop]
    split
    · simp
    · simp
    · split
      · simp
      · exact Nat.succ_le_succ (ih _ _)

/-- The calls of the loop are right if and only if all of the answers fit. -/
theorem callLoop_iff {env : Env} (hkeeps : env.Keeps) (tries n : ℕ) {command text : Str}
    (h : Strings b command text) :
    ((callLoop env tries n b).ending = .done ∧ ∀ c ∈ (callLoop env tries n b).calls, c.Right) ↔
      ∀ c ∈ (callLoop env tries n b).calls, Fits c.after := by
  induction tries generalizing n b command text with
  | zero => simp [callLoop]
  | succ tries ih =>
    obtain ⟨call, rc, hrun, hright, hstrings⟩ := runExtension_spec (hkeeps n) h
    simp only [callLoop, hrun]
    split
    next => simp [hright]
    next =>
      simp only [Calls.cons, List.forall_mem_cons, hright]
      by_cases hfits : Fits call.after
      · obtain ⟨s, t, hnext⟩ := hstrings (hright.2 hfits)
        rw [← ih (n + 1) hnext]
        tauto
      · tauto

/-! ## A command line -/

theorem holds_of_mem {b : Bytes} {i j : ℕ} (h : b[i + j]? = some 0) : ∃ s, Holds b i s := by
  have hmem : 0 ∈ b.drop i := List.mem_of_getElem? (by rw [List.getElem?_drop]; exact h)
  exact ⟨_, str_eq_some.1 (by rw [str, if_pos hmem])⟩

theorem Env.firstWord_length (env : Env) (line : Str) :
    (env.firstWord line).length ≤ line.length := (List.takeWhile_prefix _).length_le

/-- The first word is in `com`, less what is behind a NUL that `toupper` makes. -/
theorem copyWord_spec {env : Env} {line : Str} (hlen : b.length = blockSize)
    (hline : Holds b argsAt line) (hle : line.length ≤ bufferSize)
    (hword : (env.firstWord line).length ≤ 254) :
    ∃ b', env.copyWord line b = some b' ∧ ∃ command, Strings b' command line := by
  have hlow : argsAt + line.length < comAt := by
    simp only [argsAt, comAt, bufferSize] at *
    omega
  have hmap : ((env.firstWord line).map env.toupper).length ≤ 254 := by rwa [List.length_map]
  have hroom : comAt + ((env.firstWord line).map env.toupper).length + 1 ≤ b.length := by
    simp only [hlen, comAt, bufferSize, blockSize]
    omega
  simp only [Env.copyWord]
  split
  · obtain ⟨b₁, h₁, hl₁, -⟩ := @write_inside b comAt _ (Nat.le_of_succ_le hroom)
    obtain ⟨b₂, h₂, hl₂, hg₂⟩ := @store_inside b₁ comAt (by omega) 0
    obtain ⟨command, hcommand⟩ := @holds_of_mem b₂ comAt 0 (by rw [hg₂, Nat.add_zero, if_pos rfl])
    exact ⟨b₂, by rw [h₁, Option.bind_some, h₂], command, by omega, hcommand,
      (hline.below h₁ hlow).below h₂ hlow, hle⟩
  · obtain ⟨b₁, h₁, hl₁, hg₁⟩ := @write_inside b comAt
      ((env.firstWord line).map env.toupper ++ [0]) (by simpa [Nat.add_assoc] using hroom)
    obtain ⟨command, hcommand⟩ := @holds_of_mem b₁ comAt
      ((env.firstWord line).map env.toupper).length (by rw [hg₁, if_pos (by simp)]; simp)
    exact ⟨b₁, h₁, command, by omega, hcommand, hline.below h₁ hlow, hle⟩

/-- There is no room for the NUL behind a word of 255 characters. -/
theorem copyWord_none {env : Env} {line : Str} (hlen : b.length = blockSize)
    (hle : line.length ≤ bufferSize) (hword : 254 < (env.firstWord line).length) :
    env.copyWord line b = none := by
  have hfirst := env.firstWord_length line
  simp only [bufferSize] at hle
  have hwhole : line.length ≤ ((env.firstWord line).map env.toupper).length := by
    rw [List.length_map]
    omega
  rw [Env.copyWord, if_neg (by rw [List.getElem?_eq_none hwhole]; simp)]
  refine strcpy_eq_none.2 ?_
  rw [hlen, List.length_map]
  simp only [blockSize, comAt, bufferSize]
  omega

/-- **The calls of a command line are right if and only if its first word has at most 254 characters
and all of the answers fit.**  There are at most 32 of them in any case. -/
theorem docommand_iff (env : Env) (hkeeps : env.Keeps) (mem : Bytes) (hmem : mem.length = blockSize)
    (line : Str) (hline : 0 ∉ line) (hle : (ltrimcl line).length ≤ bufferSize) :
    (docommand env mem line).calls.length ≤ maxRepeatCall ∧
    (((docommand env mem line).ending = .done ∧
        ∀ c ∈ (docommand env mem line).calls, c.Right) ↔
      (env.firstWord (ltrimcl line)).length ≤ 254 ∧
        ∀ c ∈ (docommand env mem line).calls, Fits c.after) := by
  have hnul : 0 ∉ ltrimcl line := fun h => hline (List.dropWhile_subset _ h)
  have hroom : argsAt + (ltrimcl line).length < mem.length := by
    simp only [hmem, blockSize, argsAt, bufferSize] at *
    omega
  obtain ⟨b, hcopy⟩ := Option.isSome_iff_exists.1 (strcpy_isSome.2 hroom)
  have hlen : b.length = blockSize := (length_strcpy hcopy).trans hmem
  have hheld := holds_strcpy hcopy hnul
  simp only [docommand, if_neg (not_lt.2 hle), hcopy]
  by_cases hempty : ltrimcl line = []
  · simp [hempty, Env.firstWord]
  rw [if_neg hempty]
  by_cases hword : (env.firstWord (ltrimcl line)).length ≤ 254
  · obtain ⟨b', hcom, command, hstrings⟩ := copyWord_spec hlen hheld hle hword
    rw [hcom, and_iff_right hword]
    simp only
    split
    · simp
    · exact ⟨callLoop_length _ _ _ _, callLoop_iff hkeeps _ _ hstrings⟩
  · rw [copyWord_none hlen hle (by omega)]
    simp [hword]

/-- No command is installable, and none internal. -/
def noHandler : Env := ⟨fun _ b => (0, b), fun c => 65 ≤ c && c ≤ 90, id, fun _ => false⟩

/-- The command becomes `VER`, and the line starts with `X` and has one character. -/
def verX (b : Bytes) : Bytes :=
  (((((b.set 1 1).set 2 88).set 259 3).set 260 86).set 261 69).set 262 82

/-- The first command is another one, and that is to be looked up. -/
def aliasHandler : Env :=
  { noHandler with handler := fun n b => if n = 0 then (0xff, verX b) else (0, b) }

theorem Kept.verX (h : Kept b) : Kept (verX b) := by
  have hlen := h.length_eq
  simp only [blockSize, bufferSize] at hlen
  have hcommand : counted (MuxAe.verX b) comAt = [86, 69, 82] := by
    refine counted_eq ?_ (by decide) fun j hj => ?_
    · simp [MuxAe.verX, hlen, comAt, bufferSize]
    · have hcases : j = 0 ∨ j = 1 ∨ j = 2 := by
        simp only [List.length_cons, List.length_nil] at hj
        omega
      rcases hcases with rfl | rfl | rfl <;>
        simp [MuxAe.verX, hlen, comAt, bufferSize]
  have hline : counted (MuxAe.verX b) argsAt = [88] := by
    refine counted_eq ?_ (by decide) fun j hj => ?_
    · simp [MuxAe.verX, hlen, argsAt]
    · obtain rfl : j = 0 := Nat.lt_one_iff.mp hj
      simp [MuxAe.verX, hlen, argsAt]
  refine ⟨?_, ?_, ?_, ?_, ?_⟩
  · simp [MuxAe.verX, hlen, blockSize, bufferSize]
  · have hmax := h.max
    simpa [MuxAe.verX, List.getElem?_set, argsAt] using hmax
  · have hfence := h.fence
    simpa [MuxAe.verX, List.getElem?_set, argsAt, bufferSize] using hfence
  · rw [hcommand]
    decide
  · rw [hline]
    decide

/-- `DIR` becomes `VER` with the line `X`. -/
theorem docommand_iff_dir :
    let r := docommand aliasHandler (List.replicate blockSize 0) [68, 73, 82]
    (r.ending = .done ∧ ∀ c ∈ r.calls, c.Right) ∧
      r.calls.map (fun c => (c.command, c.line)) =
        [([68, 73, 82], [68, 73, 82]), ([86, 69, 82], [88])] := by
  have hkeeps : aliasHandler.Keeps := by
    intro n b h
    simp only [aliasHandler]
    split
    · exact h.verX
    · exact h
  have hshort : ∀ c ∈ (docommand aliasHandler (List.replicate blockSize 0) [68, 73, 82]).calls,
      13 ∉ counted c.after argsAt ∧ lengthByte c.after comAt < 128 := by
    decide +kernel
  refine ⟨?_, by decide +kernel⟩
  refine (docommand_iff aliasHandler hkeeps _ List.length_replicate [68, 73, 82] (by decide)
    (by decide)).2.mpr ⟨by decide, fun c hc => ?_⟩
  exact ⟨(hshort c hc).1, Or.inl (hshort c hc).2⟩

/-- A command of 128 characters is no string any more. -/
theorem docommand_long :
    (docommand noHandler (List.replicate blockSize 0) (List.replicate 128 65)).calls.map
      (fun c => (c.command, str c.result comAt)) = [(List.replicate 128 65, none)] := by
  decide +kernel

end MuxAe
end Shell
end BurdahDos
