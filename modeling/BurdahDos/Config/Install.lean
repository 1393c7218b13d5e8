import BurdahDos.Config.Environ
import Mathlib

/-!
# INSTALL and INSTALLHIGH

`_CmdInstall`, `InstallExec` and `DoInstall` of `kernel/config.c`.  A store outside of
`InstallCommands`, of the buffer of the command or of `filename` has no outcome.

* `installExec_eq`: a command is executed as its line says if it has at most 126 characters, and
  something is in front of the first blank or slash.
* `install_iff`: `DoInstall` executes the commands as the lines say if and only if there are at most
  ten of them, and each is such a line.
-/

set_option autoImplicit false

namespace BurdahDos
namespace Config

open CString

/-- `pLine` of an INSTALL or INSTALLHIGH line: a text, and what is behind its NUL in memory. -/
structure InstallLine where
  text : Str
  nonul : 0 ∉ text
  behind : Str
  enough : 126 ≤ behind.length
  /-- It is an INSTALLHIGH line. -/
  high : Bool

/-- `mode` of `_CmdInstall`. -/
def InstallLine.mode (l : InstallLine) : ℕ := if l.high then 0x80 else 0

/-- `struct instCmds` -/
structure InstCmds where
  /-- It has 128 bytes. -/
  buffer : Bytes
  mode : ℕ

/-- `LENGTH(InstallCommands)` -/
def installLength : ℕ := 10

/-- What is to be seen of the commands. -/
inductive Event where
  | setStrategy (strat : ℕ)
  | allocmem
  /-- `init_DosExec`, with the bytes of the command tail up to its CR. -/
  | exec (mode : ℕ) (cmdLine fileName : Str)
  /-- `CfgFailure` -/
  | failure
  | free
deriving DecidableEq

/-- `InstallCommands`, and the lines that were rejected. -/
structure Installs where
  cmds : List InstCmds
  rejected : ℕ

/-- `_CmdInstall` -/
def cmdInstall (s : Installs) (l : InstallLine) : Option Installs :=
  if installLength < s.cmds.length then some { s with rejected := s.rejected + 1 }
  -- `&InstallCommands[numInstallCmds]`
  else if s.cmds.length = installLength then none
  else some { s with
    cmds := s.cmds ++ [⟨(l.text ++ 0 :: l.behind).take 127 ++ [0], l.mode⟩] }

/-- The loop of `InstallExec` ends at the character; `signed` says whether a `char` is. -/
def endsName (signed : Bool) (c : UInt8) : Bool := c ≤ 32 || c == 47 || (signed && 128 ≤ c)

/-- `InstallExec`, for what `init_DosExec` says; a length up to 127 fits into a `char`. -/
def installExec (signed success : Bool) (icmd : InstCmds) : Option (List Event) :=
  let cmd := (icmd.buffer.takeWhile iswh).length
  let fileName := (icmd.buffer.drop cmd).takeWhile fun c => !endsName signed c
  if 128 ≤ fileName.length then none
  -- `args--`
  else if cmd + fileName.length = 0 then none
  else
    let args := cmd + fileName.length - 1
    (str icmd.buffer (args + 1)).bind fun rest =>
    (store icmd.buffer args (UInt8.ofNat rest.length)).bind fun b =>
    (store b (args + rest.length + 1) 13).bind fun b =>
    (store b (args + rest.length + 2) 0).map fun b =>
    .exec icmd.mode ((b.drop args).take ((b.getD args 0).toNat + 2)) fileName ::
      if success then [] else [.failure]

/-- The loop of `DoInstall`; `success` says which of the commands can be executed. -/
def installLoop (signed : Bool) : (ℕ → Bool) → List InstCmds → Option (List Event)
  | _, [] => some []
  | success, cmd :: cmds =>
    (installExec signed (success 0) cmd).bind fun es =>
    (installLoop signed (fun i => success (i + 1)) cmds).map fun fs =>
    .setStrategy cmd.mode :: es ++ fs

/-- `DoInstall` -/
def doInstall (signed : Bool) (success : ℕ → Bool) (cmds : List InstCmds) : Option (List Event) :=
  if cmds = [] then some []
  else
    -- `LAST_FIT` and `FIRST_FIT`
    (installLoop signed success cmds).map fun es =>
      [.setStrategy 2, .allocmem] ++ es ++ [.setStrategy 0, .free]

/-- The lines of CONFIG.SYS, and then the commands. -/
def install (signed : Bool) (success : ℕ → Bool) (lines : List InstallLine) : Option (List Event) :=
  (lines.foldlM cmdInstall ⟨[], 0⟩).bind fun s =>
  (doInstall signed success s.cmds).map fun es => List.replicate s.rejected .failure ++ es

/-! ## What the lines say -/

/-- What there is room for. -/
def InstallLine.kept (l : InstallLine) : Str := l.text.take 127

/-- A character of a program name. -/
def inName (c : UInt8) : Bool := 32 < c && c != 47

/-- The text up to the first blank or slash. -/
def InstallLine.name (l : InstallLine) : Str := (skipwh l.kept).takeWhile inName

/-- The rest of it. -/
def InstallLine.rest (l : InstallLine) : Str := (skipwh l.kept).dropWhile inName

/-- A command tail: the length, the text and a CR. -/
def tailOf (s : Str) : Str := UInt8.ofNat s.length :: s ++ [13]

/-- The command of a line is executed. -/
def InstallLine.run (l : InstallLine) (success : Bool) : List Event :=
  .setStrategy l.mode :: .exec l.mode (tailOf l.rest) l.name ::
    if success then [] else [.failure]

def runs : (ℕ → Bool) → List InstallLine → List Event
  | _, [] => []
  | success, l :: lines => l.run (success 0) ++ runs (fun i => success (i + 1)) lines

/-- As many commands as there are elements are executed, and the other lines are rejected. -/
def installed (success : ℕ → Bool) (lines : List InstallLine) : List Event :=
  List.replicate (lines.length - installLength) .failure ++
    if lines = [] then []
    else [.setStrategy 2, .allocmem] ++ runs success (lines.take installLength) ++
      [.setStrategy 0, .free]

/-- The text is short enough, and there is something in front of its first blank or slash. -/
structure InstallLine.Fits (signed : Bool) (l : InstallLine) : Prop where
  length_le : l.text.length ≤ 126
  begins : ∃ c s, l.text = c :: s ∧ (iswh c ∨ inName c)
  ascii : signed → ∀ c ∈ l.name, c < 128

/-! ## One command -/

/-- The command that is kept of a line. -/
def InstallLine.cmd (l : InstallLine) : InstCmds :=
  ⟨(l.text ++ 0 :: l.behind).take 127 ++ [0], l.mode⟩

theorem InstallLine.kept_nonul (l : InstallLine) : 0 ∉ l.kept := fun h =>
  l.nonul (List.mem_of_mem_take h)

theorem InstallLine.buffer_eq (l : InstallLine) :
    ∃ g, l.cmd.buffer = l.kept ++ 0 :: g ∧ l.kept.length + g.length = 127 ∧
      (g = [] ↔ 127 ≤ l.text.length) := by
  have henough := l.enough
  rcases Nat.lt_or_ge l.text.length 127 with hlt | hge
  · refine ⟨l.behind.take (126 - l.text.length) ++ [0], ?_, ?_, by simp; omega⟩
    · obtain ⟨k, hk⟩ : ∃ k, 127 - l.text.length = k + 1 := ⟨126 - l.text.length, by omega⟩
      have hk' : 126 - l.text.length = k := by omega
      rw [cmd, kept, List.take_append, List.take_of_length_le (by omega), hk, List.take_succ_cons,
        hk', List.append_assoc, List.cons_append]
    · simp only [kept, List.length_append, List.length_take, List.length_singleton]
      omega
  · refine ⟨[], ?_, ?_, by simp [hge]⟩
    · rw [cmd, kept, List.take_append_of_le_length hge]
    · rw [kept, List.length_take, List.length_nil]
      omega

/-- A loop that ends at the NUL does not notice what is behind it. -/
theorem takeWhile_stop {p : UInt8 → Bool} {c : UInt8} (hc : p c = false) (s r : Str) :
    (s ++ c :: r).takeWhile p = s.takeWhile p := by
  rw [List.takeWhile_append]
  split
  next h => rw [List.takeWhile_cons_of_neg (by simp [hc]), List.append_nil,
    List.takeWhile_eq_self_iff.2 (List.takeWhile_eq_self_iff.1
      ((List.takeWhile_prefix p).eq_of_length h))]
  next => rfl

/-- A byte is written between two parts of an array. -/
theorem store_mid (front r : Str) (x c : UInt8) {i : ℕ} (hi : i = front.length) :
    store (front ++ x :: r) i c = some (front ++ c :: r) := by
  subst hi
  exact @write_append [c] front [x] r rfl

/-- `InstallExec`, for a buffer in front of whose rest there is a byte. -/
theorem installExec_split {signed success : Bool} {icmd : InstCmds} {front rest g name : Str}
    {x : UInt8} (hbuffer : icmd.buffer = front ++ x :: (rest ++ 0 :: g)) (hrest : 0 ∉ rest)
    (hlen : rest.length < 256) (hcmd : (icmd.buffer.takeWhile iswh).length + name.length =
      front.length + 1)
    (hname : (icmd.buffer.drop (icmd.buffer.takeWhile iswh).length).takeWhile
      (fun c => !endsName signed c) = name) (hroom : name.length < 128) :
    installExec signed success icmd =
      if g = [] then none
      else some (.exec icmd.mode (tailOf rest) name :: if success then [] else [.failure]) := by
  have hargs : (icmd.buffer.takeWhile iswh).length + name.length - 1 = front.length := by omega
  have hstr : str icmd.buffer (front.length + 1) = some rest := by
    have hsplit : icmd.buffer = (front ++ [x]) ++ (rest ++ 0 :: g) := by simp [hbuffer]
    have hpos : front.length + 1 = (front ++ [x]).length := by simp
    rw [hsplit, hpos]
    exact (holds_append _ g hrest).str
  have hcr : store (front ++ UInt8.ofNat rest.length :: (rest ++ 0 :: g))
      (front.length + rest.length + 1) 13 =
        some (front ++ UInt8.ofNat rest.length :: (rest ++ 13 :: g)) := by
    have hassoc : ∀ r, front ++ UInt8.ofNat rest.length :: (rest ++ r) =
        (front ++ UInt8.ofNat rest.length :: rest) ++ r := by simp
    rw [hassoc, hassoc]
    exact store_mid _ g 0 13 (by simp; omega)
  simp only [installExec, hname]
  rw [if_neg (by omega), if_neg (by omega), hargs, hstr, Option.bind_some, hbuffer,
    store_mid front (rest ++ 0 :: g) x _ rfl, Option.bind_some, hcr, Option.bind_some]
  cases g with
  | nil =>
    -- the NUL is stored behind the buffer
    have hout : store (front ++ UInt8.ofNat rest.length :: (rest ++ [13]))
        (front.length + rest.length + 2) 0 = none := by
      rw [store, write, if_neg]
      simp only [List.length_append, List.length_cons, List.length_nil]
      omega
    rw [hout, if_pos rfl, Option.map_none]
  | cons y g =>
    have hassoc : ∀ r, front ++ UInt8.ofNat rest.length :: (rest ++ 13 :: r) =
        (front ++ UInt8.ofNat rest.length :: (rest ++ [13])) ++ r := by simp
    have hcount : (UInt8.ofNat rest.length).toNat = rest.length :=
      UInt8.toNat_ofNat_of_lt' hlen
    rw [hassoc, store_mid _ g y 0 (by simp; omega), Option.map_some, if_neg (List.cons_ne_nil _ _)]
    have hget : ∀ r, ((front ++ UInt8.ofNat rest.length :: (rest ++ [13])) ++ r).getD
        front.length 0 = UInt8.ofNat rest.length := by simp
    have hdrop : ∀ r, (((front ++ UInt8.ofNat rest.length :: (rest ++ [13])) ++ r).drop
        front.length).take (rest.length + 2) = tailOf rest := by
      intro r
      rw [List.append_assoc, List.drop_left, tailOf]
      exact List.take_left' (by simp)
    rw [hget, hcount, hdrop]

/-- The name that `InstallExec` finds, and the rest. -/
def InstallLine.nameFor (signed : Bool) (l : InstallLine) : Str :=
  (skipwh l.kept).takeWhile fun c => !endsName signed c

def InstallLine.restFor (signed : Bool) (l : InstallLine) : Str :=
  (skipwh l.kept).dropWhile fun c => !endsName signed c

theorem InstallLine.kept_eq (signed : Bool) (l : InstallLine) :
    l.kept = l.kept.takeWhile iswh ++ (l.nameFor signed ++ l.restFor signed) := by
  rw [nameFor, restFor, List.takeWhile_append_dropWhile, skipwh, List.takeWhile_append_dropWhile]

/-- There is something in front of the first character that ends the name. -/
def InstallLine.Begins (signed : Bool) (l : InstallLine) : Prop :=
  l.kept.takeWhile iswh ++ l.nameFor signed ≠ []

instance (signed : Bool) (l : InstallLine) : Decidable (l.Begins signed) :=
  inferInstanceAs (Decidable (_ ≠ _))

/-- **What is executed for a line**; there is no outcome if there is no room for the NUL behind the
CR, or none for the length in front of the rest. -/
theorem installExec_eq (signed success : Bool) (l : InstallLine) :
    installExec signed success l.cmd =
      if l.text.length ≤ 126 ∧ l.Begins signed then
        some (.exec l.mode (tailOf (l.restFor signed)) (l.nameFor signed) ::
          if success then [] else [.failure])
      else none := by
  obtain ⟨g, hbuffer, hlen, hg⟩ := l.buffer_eq
  have hcmd : l.cmd.buffer.takeWhile iswh = l.kept.takeWhile iswh := by
    rw [hbuffer, takeWhile_stop (by decide)]
  have hname : (l.cmd.buffer.drop (l.cmd.buffer.takeWhile iswh).length).takeWhile
      (fun c => !endsName signed c) = l.nameFor signed := by
    have hskip : l.cmd.buffer.drop (l.cmd.buffer.takeWhile iswh).length =
        skipwh l.kept ++ 0 :: g := by
      rw [hcmd, hbuffer]
      conv_lhs => rw [← @List.takeWhile_append_dropWhile _ iswh l.kept]
      rw [List.append_assoc, List.takeWhile_append_dropWhile, List.drop_left, skipwh]
    rw [hskip, takeWhile_stop (by simp [endsName]), InstallLine.nameFor]
  have hkept := l.kept_eq signed
  have hkeptlen := congrArg List.length hkept
  simp only [List.length_append] at hkeptlen
  by_cases hbegins : l.Begins signed
  · obtain ⟨front, x, hfront⟩ : ∃ front x, l.kept.takeWhile iswh ++ l.nameFor signed =
        front ++ [x] := ⟨_, _, (List.dropLast_append_getLast hbegins).symm⟩
    have hfrontlen := congrArg List.length hfront
    simp only [List.length_append, List.length_singleton] at hfrontlen
    have hsplit : l.cmd.buffer = front ++ x :: (l.restFor signed ++ 0 :: g) := by
      rw [hbuffer, hkept, ← List.append_assoc, hfront]
      simp
    have hrest : 0 ∉ l.restFor signed := fun h => l.kept_nonul
      (List.dropWhile_subset _ (List.dropWhile_subset _ h))
    rw [installExec_split hsplit hrest (by omega) (by rw [hcmd]; exact hfrontlen) hname (by omega)]
    by_cases hshort : l.text.length ≤ 126
    · have hmore : g ≠ [] := fun h => by have := hg.1 h; omega
      have hfits : l.text.length ≤ 126 ∧ l.Begins signed := ⟨hshort, hbegins⟩
      rw [if_neg hmore, if_pos hfits]
      rfl
    · have hlong : ¬ (l.text.length ≤ 126 ∧ l.Begins signed) := fun h => hshort h.1
      rw [if_pos (hg.2 (by omega)), if_neg hlong]
  · have hempty : ¬ (l.text.length ≤ 126 ∧ l.Begins signed) := fun h => hbegins h.2
    rw [if_neg hempty]
    rw [InstallLine.Begins, not_not, List.append_eq_nil_iff] at hbegins
    simp only [installExec, hname]
    rw [hcmd, hbegins.1, hbegins.2]
    rfl

theorem takeWhile_eq_iff {p q : UInt8 → Bool} (hqp : ∀ c, q c = true → p c = true) (s : Str) :
    s.takeWhile q = s.takeWhile p ↔ ∀ c ∈ s.takeWhile p, q c = true := by
  induction s with
  | nil => simp
  | cons c s ih =>
    cases hq : q c with
    | true => simp [hq, hqp c hq, ih]
    | false => cases hp : p c <;> simp [hq, hp]

theorem not_endsName {signed : Bool} {c : UInt8} :
    (!endsName signed c) = true ↔ inName c = true ∧ (signed → c < 128) := by
  cases signed <;> simp [endsName, inName, and_assoc]

/-- The name ends where its line says, unless it has a character above 127 and `char` is signed. -/
theorem InstallLine.nameFor_eq_iff (signed : Bool) (l : InstallLine) :
    l.nameFor signed = l.name ↔ (signed → ∀ c ∈ l.name, c < 128) := by
  rw [nameFor, name, takeWhile_eq_iff fun c hc => (not_endsName.1 hc).1]
  constructor
  · intro h hsigned c hc
    exact (not_endsName.1 (h c hc)).2 hsigned
  · intro h c hc
    exact not_endsName.2 ⟨List.mem_takeWhile_imp hc, fun hsigned => h hsigned c hc⟩

theorem InstallLine.begins_iff {signed : Bool} {l : InstallLine} (hlen : l.text.length ≤ 126)
    (hname : l.nameFor signed = l.name) :
    l.Begins signed ↔ ∃ c s, l.text = c :: s ∧ (iswh c ∨ inName c) := by
  have hkept : l.kept = l.text := List.take_of_length_le (by omega)
  rw [Begins, hname, name, hkept, skipwh]
  cases l.text with
  | nil => simp
  | cons c s => cases hc : iswh c <;> cases hn : inName c <;> simp [hc, hn]

theorem InstallLine.fits_iff (signed : Bool) (l : InstallLine) :
    l.Fits signed ↔ (l.text.length ≤ 126 ∧ l.Begins signed) ∧ l.nameFor signed = l.name := by
  constructor
  · rintro ⟨hlen, hbegins, hascii⟩
    have hname := (l.nameFor_eq_iff signed).2 hascii
    exact ⟨⟨hlen, (begins_iff hlen hname).2 hbegins⟩, hname⟩
  · rintro ⟨⟨hlen, hbegins⟩, hname⟩
    exact ⟨hlen, (begins_iff hlen hname).1 hbegins, (l.nameFor_eq_iff signed).1 hname⟩

/-- What a command line is to do is done if and only if it fits. -/
theorem installExec_iff (signed success : Bool) (l : InstallLine) :
    (installExec signed success l.cmd).map (.setStrategy l.mode :: ·) = some (l.run success) ↔
      l.Fits signed := by
  rw [l.fits_iff, installExec_eq]
  constructor
  · intro h
    obtain ⟨es, hes, h⟩ := Option.map_eq_some_iff.1 h
    split at hes
    next hfits =>
      obtain rfl := Option.some.inj hes
      simp only [InstallLine.run, List.cons.injEq, Event.exec.injEq, true_and] at h
      exact ⟨hfits, h.1.2⟩
    next => cases hes
  · rintro ⟨hfits, hname⟩
    have hrest : l.restFor signed = l.rest := by
      have hsplit : l.nameFor signed ++ l.restFor signed = l.name ++ l.rest := by
        rw [InstallLine.nameFor, InstallLine.restFor, InstallLine.name, InstallLine.rest,
          List.takeWhile_append_dropWhile, List.takeWhile_append_dropWhile]
      rw [hname] at hsplit
      exact List.append_cancel_left hsplit
    rw [if_pos hfits, Option.map_some, hrest, hname]
    rfl

/-- The same length in any case, so that each command is told from the next one. -/
theorem length_installExec {signed success : Bool} {l : InstallLine} {es : List Event}
    (h : installExec signed success l.cmd = some es) :
    (.setStrategy l.mode :: es : List Event).length = (l.run success).length := by
  rw [installExec_eq] at h
  split at h
  · obtain rfl := Option.some.inj h
    simp [InstallLine.run]
  · cases h

theorem installLoop_iff (signed : Bool) (success : ℕ → Bool) (lines : List InstallLine) :
    installLoop signed success (lines.map InstallLine.cmd) = some (runs success lines) ↔
      ∀ l ∈ lines, l.Fits signed := by
  induction lines generalizing success with
  | nil => simp [installLoop, runs]
  | cons l lines ih =>
    rw [List.map_cons, List.forall_mem_cons, ← ih fun i => success (i + 1),
      ← installExec_iff signed (success 0) l]
    simp only [installLoop, runs]
    constructor
    · intro h
      obtain ⟨es, hes, h⟩ := Option.bind_eq_some_iff.1 h
      obtain ⟨fs, hfs, h⟩ := Option.map_eq_some_iff.1 h
      obtain ⟨hrun, hruns⟩ := List.append_inj h (length_installExec hes)
      exact ⟨by rw [hes, ← hrun]; rfl, by rw [hfs, hruns]⟩
    · rintro ⟨hrun, hruns⟩
      obtain ⟨es, hes, hrun⟩ := Option.map_eq_some_iff.1 hrun
      rw [hes, hruns, ← hrun]
      rfl

/-! ## All of them -/

theorem foldlM_cmdInstall {s : Installs} {lines : List InstallLine}
    (h : s.cmds.length + lines.length ≤ installLength) :
    lines.foldlM cmdInstall s = some { s with cmds := s.cmds ++ lines.map InstallLine.cmd } := by
  induction lines generalizing s with
  | nil => simp
  | cons l lines ih =>
    rw [List.length_cons] at h
    have hstep : cmdInstall s l = some { s with cmds := s.cmds ++ [l.cmd] } := by
      rw [cmdInstall, if_neg (by omega), if_neg (by omega)]
      rfl
    rw [List.foldlM_cons, hstep, Option.bind_eq_bind, Option.bind_some, ih]
    · simp
    · simp only [List.length_append, List.length_singleton]
      omega

/-- The 11th line is stored behind `InstallCommands`. -/
theorem foldlM_cmdInstall_none {s : Installs} {lines : List InstallLine}
    (hs : s.cmds.length ≤ installLength) (h : installLength < s.cmds.length + lines.length) :
    lines.foldlM cmdInstall s = none := by
  induction lines generalizing s with
  | nil =>
    rw [List.length_nil] at h
    omega
  | cons l lines ih =>
    rw [List.length_cons] at h
    rw [List.foldlM_cons]
    by_cases hfull : s.cmds.length = installLength
    · rw [cmdInstall, if_neg (by omega), if_pos hfull]
      rfl
    · rw [cmdInstall, if_neg (by omega), if_neg hfull, Option.bind_eq_bind, Option.bind_some, ih]
      · simp only [List.length_append, List.length_singleton]
        omega
      · simp only [List.length_append, List.length_singleton]
        omega

/-- **The commands are executed as their lines say if and only if there are at most ten, and each of
them fits.** -/
theorem install_iff (signed : Bool) (success : ℕ → Bool) (lines : List InstallLine) :
    install signed success lines = some (installed success lines) ↔
      lines.length ≤ installLength ∧ ∀ l ∈ lines, l.Fits signed := by
  rcases Nat.lt_or_ge installLength lines.length with hmany | hfew
  · rw [install, foldlM_cmdInstall_none (by simp) (by simpa using hmany)]
    simp only [Option.bind_none, reduceCtorEq, false_iff]
    intro h
    omega
  · rw [← installLoop_iff signed success, install, foldlM_cmdInstall (by simpa using hfew)]
    simp only [Option.bind_some, List.nil_append, List.replicate_zero, doInstall, installed,
      Nat.sub_eq_zero_of_le hfew, List.take_of_length_le hfew, List.map_eq_nil_iff]
    cases lines with
    | nil => simp [installLoop, runs]
    | cons l lines =>
      rw [if_neg (List.cons_ne_nil _ _), if_neg (List.cons_ne_nil _ _), and_iff_right hfew]
      cases installLoop signed success ((l :: lines).map InstallLine.cmd) with
      | none => simp
      | some es => simp

/-- `INSTALL=` with nothing behind it. -/
def emptyLine : InstallLine := ⟨[], by decide, List.replicate 126 0, by simp, false⟩

/-- `INSTALLHIGH=` with 127 characters behind it. -/
def longLine : InstallLine :=
  ⟨List.replicate 127 65, by simp, List.replicate 126 0, by simp, true⟩

theorem install_single (signed : Bool) {l : InstallLine}
    (h : ¬ (l.text.length ≤ 126 ∧ l.Begins signed)) :
    install signed (fun _ => true) [l] = none := by
  rw [install, foldlM_cmdInstall (by simp [installLength])]
  simp only [doInstall, installLoop, List.map_cons, List.map_nil, List.nil_append,
    Option.bind_some, reduceCtorEq, if_false, installExec_eq, if_neg h]
  rfl

/-- There are stores outside for an empty line, for one of 127 characters and for the 11th one. -/
theorem install_outside :
    install false (fun _ => true) [emptyLine] = none ∧
    install false (fun _ => true) [longLine] = none ∧
    install false (fun _ => true) (List.replicate 11 emptyLine) = none := by
  refine ⟨install_single false fun h => h.2 rfl, install_single false fun h => ?_, ?_⟩
  · have hlen := h.1
    simp [longLine] at hlen
  · rw [install, foldlM_cmdInstall_none (by decide) (by decide), Option.bind_none]

end Config
end BurdahDos
