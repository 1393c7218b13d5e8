import BurdahDos.Config.InPlace
import Mathlib

/-!
# The lines that DoConfig reads

A line that fits is in `szLine` up to a NUL, and what an earlier line has left behind that is not
noticed: `scan` and `argument` find in the buffer what they find in the line (`scan_nul`,
`argument_nul`).  `command_does` says all that the second pass does with a line.
-/

set_option autoImplicit false

namespace BurdahDos
namespace Config
namespace Chain

open CString

/-! ## Reading -/

/-- There is space in `szLine` for every byte of a file that is read, from an offset on, and none of
them is a Ctrl-Z. -/
def Fits : ℕ → Bytes → Prop
  | _, [] => True
  | n, c :: f =>
    n < lineSize - 3 ∧ c ≠ 26 ∧ Fits (if c = 10 then 0 else if c = 13 then n else n + 1) f

instance Fits.decidable : ∀ (n : ℕ) (f : Bytes), Decidable (Fits n f)
  | _, [] => .isTrue trivial
  | n, c :: f =>
    have : Decidable (Fits (if c = 10 then 0 else if c = 13 then n else n + 1) f) :=
      Fits.decidable _ f
    inferInstanceAs (Decidable (_ ∧ _ ∧ _))

/-- The line is in the buffer. -/
def Shows (szLine l : Bytes) : Prop :=
  szLine.length = lineSize ∧ ∃ z, szLine = kept l ++ 0 :: z

variable {l f buf t z : Bytes} {n : ℕ}

/-- The part of a line in front of `f` is read. -/
theorem readLine_append (hl : 10 ∉ l) (hfits : Fits n (l ++ f)) (hn : n ≤ lineSize - 3)
    (hbuf : buf.length = lineSize) :
    n + (kept l).length ≤ lineSize - 3 ∧ Fits (n + (kept l).length) f ∧
      ∃ buf', buf'.length = lineSize ∧
        buf'.take (n + (kept l).length) = buf.take n ++ kept l ∧
        readLine (l ++ f) buf n = readLine f buf' (n + (kept l).length) := by
  induction l generalizing n buf with
  | nil => exact ⟨hn, hfits, buf, hbuf, (List.append_nil _).symm, rfl⟩
  | cons c l ih =>
    rw [List.mem_cons, not_or] at hl
    obtain ⟨hlt, hc, hfits⟩ := hfits
    rw [if_neg (Ne.symm hl.1)] at hfits
    have hread : readLine (c :: l ++ f) buf n =
        readLine (l ++ f) (buf.set n c) (if c = 13 then n else n + 1) := by
      rw [List.cons_append, readLine, if_neg (by omega), if_neg (by simp [Ne.symm hl.1, hc])]
    have hset : (buf.set n c).length = lineSize := by rw [List.length_set, hbuf]
    rw [hread]
    by_cases hcr : c = 13
    · rw [if_pos hcr] at hfits ⊢
      rw [kept, List.filter_cons_of_neg (by simp [hcr]), ← kept]
      obtain ⟨hle, hfits, buf', hbuf', htake, heq⟩ := ih hl.2 hfits hn hset
      exact ⟨hle, hfits, buf', hbuf', by rw [htake, List.take_set_of_le (Nat.le_refl n)], heq⟩
    · rw [if_neg hcr] at hfits ⊢
      rw [kept, List.filter_cons_of_pos (by simp [hcr]), ← kept, List.length_cons,
        show n + ((kept l).length + 1) = n + 1 + (kept l).length by omega]
      obtain ⟨hle, hfits, buf', hbuf', htake, heq⟩ := ih hl.2 hfits hlt hset
      refine ⟨hle, hfits, buf', hbuf', ?_, heq⟩
      rw [htake, List.take_succ_eq_append_getElem (by rw [hset]; omega), List.take_set_of_le
        (Nat.le_refl n), List.getElem_set_self, List.append_assoc, List.singleton_append]

theorem shows_set (hbuf : buf.length = lineSize)
    (hn : (kept l).length ≤ lineSize - 3)
    (htake : buf.take (kept l).length = kept l) :
    Shows (buf.set (kept l).length 0) l := by
  refine ⟨by rw [List.length_set, hbuf], buf.drop ((kept l).length + 1), ?_⟩
  rw [List.set_eq_take_append_cons_drop, if_pos (by rw [hbuf]; simp only [lineSize] at *; omega),
    htake]

/-- A line that is ended. -/
theorem readLine_line (hl : 10 ∉ l) (hfits : Fits 0 (l ++ 10 :: f)) (hbuf : buf.length = lineSize) :
    Fits 0 f ∧ ∃ szLine pLine, readLine (l ++ 10 :: f) buf 0 = (szLine, pLine, f, .line) ∧
      Shows (szLine.set pLine 0) l := by
  obtain ⟨hle, hfits, buf', hbuf', htake, heq⟩ := readLine_append hl hfits (Nat.zero_le _) hbuf
  rw [Nat.zero_add] at hle hfits htake heq
  refine ⟨hfits.2.2, buf'.set (kept l).length 10, (kept l).length, ?_, ?_⟩
  · rw [heq, readLine, if_neg (by have := hfits.1; omega), if_pos (Or.inl rfl)]
  · rw [List.set_set]
    exact shows_set hbuf' hle htake

/-- The last line of a file. -/
theorem readLine_eof (hl : 10 ∉ l) (hfits : Fits 0 l) (hbuf : buf.length = lineSize) :
    ∃ szLine pLine, readLine l buf 0 = (szLine, pLine, [], .eof) ∧
      Shows (szLine.set pLine 0) l := by
  rw [← List.append_nil l] at hfits
  obtain ⟨hle, -, buf', hbuf', htake, heq⟩ := readLine_append hl hfits (Nat.zero_le _) hbuf
  rw [Nat.zero_add] at hle htake heq
  refine ⟨buf', (kept l).length, ?_, shows_set hbuf' hle htake⟩
  rw [List.append_nil] at heq
  rw [heq, readLine]

/-! ## Scanning -/

theorem cstr_nul (t z : Bytes) : cstr (t ++ 0 :: z) = cstr t :=
  takeWhile_ends fun c hc => by
    obtain rfl : 0 = c := by simpa using hc
    rfl

/-- The buffer holds the text of the line. -/
theorem Shows.split (h : Shows buf l) : cstr buf = text l ∧ ∃ z, buf = text l ++ 0 :: z := by
  obtain ⟨-, z, hz⟩ := h
  have htext : cstr buf = text l := by rw [hz, cstr_nul, text]
  have hmem : 0 ∈ buf := by
    rw [hz]
    exact List.mem_append_right _ List.mem_cons_self
  obtain ⟨pre, post, hsplit, hpre⟩ := List.eq_append_cons_of_mem hmem
  refine ⟨htext, post, ?_⟩
  rw [← htext, hsplit, cstr, takeWhile_nul hpre]

theorem skipwh_nul (t z : Bytes) : skipwh (t ++ 0 :: z) = skipwh t ++ 0 :: z :=
  dropWhile_ends fun c hc => by
    obtain rfl : 0 = c := by simpa using hc
    rfl

theorem menuSelect_nul (t z : Bytes) :
    menuSelect (t ++ 0 :: z) = ((menuSelect t).1, (menuSelect t).2 ++ 0 :: z) := by
  have hend : ∀ c ∈ (0 :: z).head?, isnum c = false := fun c hc => by
    obtain rfl : 0 = c := by simpa using hc
    rfl
  rw [menuSelect, menuSelect, takeWhile_ends hend, dropWhile_ends hend]
  split
  next => rfl
  next =>
    rcases t.dropWhile isnum with _ | ⟨c, t⟩
    · rfl
    · by_cases hc : c = 63
      · subst hc
        simp only [List.cons_append, skipwh_nul]
      · simp [hc]

theorem skipMark_nul (t z : Bytes) : skipMark (t ++ 0 :: z) = skipMark t ++ 0 :: z := by
  rcases t with _ | ⟨c, t⟩
  · rfl
  · by_cases hc : c = 33
    · subst hc
      exact skipwh_nul t z
    · simp [skipMark, hc]

/-- What is behind the NUL is not noticed. -/
theorem scan_nul (t z : Bytes) :
    scan (t ++ 0 :: z) = { scan t with pLine := (scan t).pLine ++ 0 :: z } := by
  rw [scan, scan, skipwh_nul, menuSelect_nul]
  generalize menuSelect (skipwh t) = m
  have hhead : ((m.2 ++ 0 :: z).head? == some 33) = (m.2.head? == some 33) := by
    cases m.2 <;> rfl
  have hend : ∀ c ∈ (0 :: z).head?, inVerb c = false := fun c hc => by
    obtain rfl : 0 = c := by simpa using hc
    rfl
  simp only [hhead, skipMark_nul]
  rcases skipMark m.2 with _ | ⟨c, t⟩
  · rfl
  · by_cases hc : c = 59
    · subst hc
      rfl
    · have h := takeWhile_ends (l := c :: t) hend
      have h' := dropWhile_ends (l := c :: t) hend
      simp only [List.cons_append] at h h' ⊢
      simp [hc, h, h']

/-- The argument is the same, up to the NUL; what is behind the verb of a menu need not be. -/
theorem argument_nul (func : Func) (p z : Bytes) :
    (argument func p = none → argument func (p ++ 0 :: z) = none) ∧
      ∀ a, argument func p = some a → ∃ b, argument func (p ++ 0 :: z) = some b ∧
        (func.isMenu = false → cstr b = cstr a) := by
  rw [argument, argument]
  cases hmenu : func.isMenu with
  | true => exact ⟨fun h => by simp at h, fun a _ => ⟨_, rfl, fun h => by simp at h⟩⟩
  | false =>
    have hhead (q : Bytes) {c : UInt8} (hc : c ≠ 0) :
        (q ++ 0 :: z).head? = some c ↔ q.head? = some c := by
      cases q with
      | nil => simp [Ne.symm hc]
      | cons d q => rfl
    simp only [Bool.false_eq_true, if_false, skipwh_nul, hhead _ (show (32 : UInt8) ≠ 0 by decide),
      hhead _ (show (9 : UInt8) ≠ 0 by decide), hhead _ (show (61 : UInt8) ≠ 0 by decide)]
    split
    · refine ⟨fun h => by simp at h, fun a ha => ?_⟩
      obtain rfl := Option.some.inj ha
      refine ⟨_, rfl, fun _ => ?_⟩
      by_cases heq : (skipwh p).head? = some 61
      · obtain ⟨q, hq⟩ : ∃ q, skipwh p = 61 :: q := List.head?_eq_some_iff.1 heq
        rw [if_pos heq, if_pos heq, hq, List.cons_append, List.drop_one, List.drop_one,
          List.tail_cons, List.tail_cons, skipwh_nul, cstr_nul]
      · rw [if_neg heq, if_neg heq, cstr_nul]
    · exact ⟨fun _ => rfl, fun a h => by simp at h⟩

/-! ## The table -/

theorem lookUp_mem (ps : List Table) (token : Str) :
    lookUp ps token ∈ ps ∨ lookUp ps token = ⟨[], -1, .cfgFailure⟩ := by
  induction ps with
  | nil => exact Or.inr rfl
  | cons p ps ih =>
    rw [lookUp]
    split
    · exact Or.inl List.mem_cons_self
    · exact ih.imp_left (List.mem_cons_of_mem p)

/-- Only the default action is done in every pass. -/
theorem lookUp_func (token : Str) : (lookUp commands token).func = .cfgFailure ↔
    (lookUp commands token).pass < 0 := by
  rcases lookUp_mem commands token with h | h
  · have hall : ∀ p ∈ commands, p.func ≠ .cfgFailure ∧ ¬ p.pass < 0 := by decide
    exact iff_of_false (hall _ h).1 (hall _ h).2
  · rw [h]
    exact iff_of_true rfl (by decide)

/-! ## What is done with a line -/

/-- What the second pass may do with a line. -/
inductive Does (files : Str → Option Bytes) (l : Bytes) (s : State) : State → Prop
  /-- The user has it skipped. -/
  | skip (asking : Asking) : Does files l s { s with asking, journal := s.journal ++ [.skip] }
  /-- It has been executed, and does not chain a file. -/
  | stay (asking : Asking) {j : List Event} (hj : calls j = (lineCall l).toList)
      (hc : chained files l = none ∨ maxChains ≤ s.nCurChain) :
      Does files l s { s with asking, journal := s.journal ++ j }
  /-- It has been executed, and chains a file. -/
  | chain (asking : Asking) {j : List Event} {g : Bytes} (hj : calls j = (lineCall l).toList)
      (hg : chained files l = some g) (hlt : s.nCurChain < maxChains) :
      Does files l s { s with
        asking, journal := s.journal ++ j, fds := (freeFd s.fds, g) :: s.fds,
        cfgFile := ⟨s.nFileDesc, s.nCfgLine⟩ :: s.cfgFile, nFileDesc := freeFd s.fds,
        nCfgLine := 0 }

variable {files : Str → Option Bytes} {s : State}

/-- A line that has no handler in this pass. -/
theorem Does.quiet (hnone : handler (text l) = none) (asking : Asking) {j : List Event}
    (hj : calls j = []) : Does files l s { s with asking, journal := s.journal ++ j } :=
  have hcall : lineCall l = none := by rw [lineCall, hnone, Option.map_none]
  .stay asking (by rw [hj, hcall, Option.toList_none]) (Or.inl (chained_none hcall))

/-- A handler that is called with the line in the buffer. -/
theorem call_does {func : Func} {a b : Bytes} (hhandler : handler (text l) = some (func, a))
    (hfunc : func ≠ .cfgFailure) (hline : cstr s.szLine = text l)
    (harg : func.isMenu = false → cstr b = cstr a) (asking : Asking) :
    Does files l s (call files func b { s with asking }) := by
  have hlc : (lineCall l).toList = [(func, text l)] := by
    rw [lineCall, hhandler, Option.map_some, Option.toList_some]
  have hj : calls [.call func s.szLine b] = (lineCall l).toList := by
    rw [hlc, ← hline]
    rfl
  have hchained : chained files l = if func = .cmdChain then files (cstr a) else none := by
    rw [chained, hhandler, Option.bind_some]
  by_cases hchain : func = .cmdChain
  · subst hchain
    rw [if_pos rfl, ← harg rfl] at hchained
    have hfail : calls [.call .cmdChain s.szLine b, .failure] = (lineCall l).toList := hj
    rw [call, cmdChain]
    split
    next hmax =>
      have : Does files l s _ := .stay asking hfail (Or.inr hmax)
      simpa [State.log] using this
    next hmax =>
      cases hopen : files (cstr b) with
      | none =>
        have : Does files l s _ := .stay asking hfail (Or.inl (hchained.trans hopen))
        simpa [State.log] using this
      | some g => exact .chain asking hj (hchained.trans hopen) (Nat.lt_of_not_le hmax)
  · rw [if_neg hchain] at hchained
    have hcall : call files func b { s with asking } =
        { s with asking, journal := s.journal ++ [.call func s.szLine b] } := by
      cases func <;> first | rfl | exact absurd rfl hfunc | exact absurd rfl hchain
    rw [hcall]
    exact .stay asking hj (Or.inl hchained)

/-- **What is done with a line** in the second pass. -/
theorem command_does (files : Str → Option Bytes) (u : User) (hs : Shows s.szLine l) :
    Does files l s (command files u 2 s) := by
  obtain ⟨hline, z, hz⟩ := hs.split
  have hself : handler (text l) = none → Does files l s s := fun hnone => by
    have : Does files l s { s with asking := s.asking, journal := s.journal ++ [] } :=
      .quiet hnone s.asking rfl
    simpa using this
  have hscan : scan s.szLine = { scan (text l) with pLine := (scan (text l)).pLine ++ 0 :: z } := by
    rw [hz, scan_nul]
  simp only [command, hscan]
  split
  next hbuf => exact hself (if_neg fun h => h.1 hbuf)
  next hbuf =>
    split
    next hpass => exact hself (if_neg fun h => hpass.2 h.2)
    next hpass =>
      rw [if_neg (by decide)]
      rcases skipLine u _ s.asking with ⟨skip, asking⟩
      cases skip with
      | true => exact .skip asking
      | false =>
        simp only [Bool.false_eq_true, if_false]
        obtain ⟨hnone, hsome⟩ := argument_nul (lookUp commands (scan (text l)).szBuf).func
          (scan (text l)).pLine z
        by_cases hpass2 : (lookUp commands (scan (text l)).szBuf).pass = 2
        · have hhandler : handler (text l) = (argument _ _).map (_, ·) := if_pos ⟨hbuf, hpass2⟩
          cases harg : argument (lookUp commands (scan (text l)).szBuf).func
              (scan (text l)).pLine with
          | none =>
            rw [harg, Option.map_none] at hhandler
            rw [hnone harg]
            exact .quiet hhandler asking rfl
          | some a =>
            rw [harg, Option.map_some] at hhandler
            obtain ⟨b, hb, hcstr⟩ := hsome a harg
            rw [hb]
            refine call_does hhandler (fun h => ?_) hline hcstr asking
            have := (lookUp_func _).1 h
            omega
        · have hhandler : handler (text l) = none := if_neg fun h => hpass2 h.2
          have hfunc := (lookUp_func (scan (text l)).szBuf).2 (by omega)
          rw [hfunc]
          cases argument .cfgFailure ((scan (text l)).pLine ++ 0 :: z) with
          | none => exact .quiet hhandler asking rfl
          | some b => exact .quiet hhandler asking rfl

end Chain
end Config
end BurdahDos
