import BurdahDos.Shell.Complete
import Mathlib

/-!
# Reading a command line

`readcommandEnhanced` of `portal/lib/cmdinput.c`: the loop that edits the line, one key after the
other. `Edited` is the line as the user sees it; `Edited.press` says what a key does to it.

* `readcommandEnhanced_tracks`: in a run whose keys are all allowed, the array holds the line that
  is edited, the two counters are its length and the place in it, and nothing else is accessed.
* `f1_leaves_text`: F1 inside of a line does not shorten the string when it sets the counter.

The screen is left out, but the strings that are written to it are read.
-/

set_option autoImplicit false

namespace BurdahDos
namespace Shell
namespace Cmdinput

open CString Words

/-! ## Keys -/

/-- `SCANCODE` -/
def scancode (key : ℕ) : ℕ := key + 256

def keyTab : ℕ := 9
def keyEnter : ℕ := 13

/-- The cases of the switch. -/
inductive Key where
  | bs | insert | delete | home | end' | tab | enter | ctlC | esc | right | f1 | f3 | up | down | f5
  | left | ctrlLeft | ctrlRight
  | other
  deriving DecidableEq

/-- The case for a key. -/
def keyOf (ch : ℕ) : Key :=
  if ch = 8 then .bs
  else if ch = scancode 82 then .insert
  else if ch = scancode 83 then .delete
  else if ch = scancode 71 then .home
  else if ch = scancode 79 then .end'
  else if ch = keyTab then .tab
  else if ch = keyEnter then .enter
  else if ch = 3 then .ctlC
  else if ch = 27 then .esc
  else if ch = scancode 77 then .right
  else if ch = scancode 59 then .f1
  else if ch = scancode 61 then .f3
  else if ch = scancode 72 then .up
  else if ch = scancode 80 then .down
  else if ch = scancode 63 then .f5
  else if ch = scancode 75 then .left
  else if ch = scancode 0x73 then .ctrlLeft
  else if ch = scancode 0x74 then .ctrlRight
  else .other

/-- `MAX_INTERNAL_COMMAND_SIZE`, the size of `prvLine` -/
def prvLineSize : ℕ := 256

/-- `isworddelimiter` -/
def isworddelimiter (c : UInt8) : Bool := c == 32 || c == 9

/-! ## The loop -/

/-- What the loop works with: the size of the line, the history, `lfncomplete`, and the files that
are found for a pattern. -/
structure Setting where
  maxlen : ℕ
  hist : ℤ → Option Str
  lfncomplete : Bool
  find : Str → List Ffblk

/-- `insert`, `histLevel` and `lastch` -/
structure Flags where
  insert : Bool
  histLevel : ℤ
  lastch : ℕ

/-- The variables of the loop. -/
structure Input where
  str : Bytes
  prvLine : Bytes
  current : ℕ
  charcount : ℕ
  flags : Flags

/-- `outs`: a string is read. -/
def outs (b : Bytes) (i : ℕ) : Option Unit := (str b i).map fun _ => ()

/-- `clrcmdline` -/
def clrcmdline (b : Bytes) (maxlen : ℕ) : Option Bytes :=
  (str b 0).bind fun s =>
    if s.length > 0 then
      (write b 0 (List.replicate s.length 32)).bind (write · 0 (List.replicate maxlen 0))
    else some b

/-- `histGet`, with `strncpy` to an array of `len` bytes -/
def histGet (hist : ℤ → Option Str) (num : ℤ) (b : Bytes) (len : ℕ) : Option (Bool × Bytes) :=
  match hist num with
  | none => some (false, b)
  | some p =>
    (write b 0 (p.take len ++ List.replicate (len - p.length) 0)).bind fun b =>
      (store b (len - 1) 0).map (true, ·)

/-- `str[count] = str[count + 1]`, `n` times -/
def copyDown : ℕ → ℕ → Bytes → Option Bytes
  | 0, _, b => some b
  | n + 1, count, b =>
    match b[count + 1]? with
    | none => none
    | some c => (store b count c).bind (copyDown n (count + 1))

/-- `str[count] = str[count - 1]`, `n` times -/
def copyUp : ℕ → ℕ → Bytes → Option Bytes
  | 0, _, b => some b
  | n + 1, count, b =>
    match b[count - 1]? with
    | none => none
    | some c => (store b count c).bind (copyUp n (count - 1))

def Input.bs (s : Input) : Option Input :=
  if s.current > 0 ∧ s.charcount > 0 then
    (if s.current = s.charcount then store s.str (s.current - 1) 0
      else (copyDown (s.charcount - (s.current - 1)) (s.current - 1) s.str).bind fun b =>
        (outs b (s.current - 1)).map fun _ => b).map fun b =>
          { s with str := b, charcount := s.charcount - 1, current := s.current - 1 }
  else some s

def Input.delete (s : Input) : Option Input :=
  if s.current ≠ s.charcount ∧ s.charcount > 0 then
    (copyDown (s.charcount - s.current) s.current s.str).bind fun b =>
      (outs b s.current).map fun _ => { s with str := b, charcount := s.charcount - 1 }
  else some s

def Input.toEnd (s : Input) : Option Input :=
  if s.current ≠ s.charcount then (outs s.str 0).map fun _ => { s with current := s.charcount }
  else some s

/-- A string becomes the line, and the cursor is put behind it. -/
def Input.atEnd (s : Input) (b : Bytes) : Option Input :=
  (CString.str b 0).map fun t => { s with str := b, charcount := t.length, current := t.length }

def Input.tab (g : Setting) (s : Input) : Option Input :=
  if s.current = s.charcount then
    if s.flags.lastch ≠ keyTab then
      (doComplete g.lfncomplete g.find s.str s.charcount false).bind fun r => s.atEnd r.line
    else
      (doComplete g.lfncomplete g.find s.str s.charcount true).bind fun r =>
        if r.ret then (outs r.line 0).map fun _ => { s with str := r.line }
        else some { s with str := r.line }
  else some s

def Input.clear (g : Setting) (s : Input) : Option Input :=
  (clrcmdline s.str g.maxlen).map fun b => { s with str := b, current := 0, charcount := 0 }

def Input.f1 (s : Input) : Option Input :=
  (CString.str s.prvLine 0).bind fun p =>
    if s.current < p.length then
      match s.prvLine[s.current]? with
      | none => none
      | some c => (store s.str s.current c).map fun b =>
        { s with str := b, current := s.current + 1, charcount := s.current + 1 }
    else some s

def Input.right (s : Input) : Option Input :=
  if s.current ≠ s.charcount then some { s with current := s.current + 1 } else s.f1

def Input.f3 (s : Input) : Option Input :=
  (CString.str s.prvLine 0).bind fun p =>
    if s.charcount < p.length then
      (CString.str s.prvLine s.charcount).bind fun rest =>
        (strcpy s.str s.charcount rest).bind s.atEnd
    else some s

def Input.up (g : Setting) (s : Input) : Option Input :=
  (histGet g.hist (s.flags.histLevel - 1) s.prvLine prvLineSize).bind fun (found, prv) =>
    if found then
      (clrcmdline s.str g.maxlen).bind fun b =>
      (CString.str prv 0).bind fun line =>
      (strcpy b 0 line).bind fun b =>
      (s.atEnd b).bind fun s =>
      (histGet g.hist (s.flags.histLevel - 2) prv prvLineSize).map fun (_, prv) =>
        { s with prvLine := prv, flags := { s.flags with histLevel := s.flags.histLevel - 1 } }
    else some s

def Input.down (g : Setting) (s : Input) : Option Input :=
  if s.flags.histLevel ≠ 0 then
    (clrcmdline s.str g.maxlen).bind fun b =>
    (CString.str b 0).bind fun line =>
    (strcpy s.prvLine 0 line).bind fun prv =>
    (histGet g.hist (s.flags.histLevel + 1) b g.maxlen).bind fun (_, b) =>
      { s with prvLine := prv, flags := { s.flags with histLevel := s.flags.histLevel + 1 } }.atEnd b
  else some s

def Input.f5 (g : Setting) (s : Input) : Option Input :=
  (CString.str s.str 0).bind fun line =>
  (strcpy s.prvLine 0 line).bind fun prv => { s with prvLine := prv }.clear g

/-- The loop of `KEY_CTRL_LEFT`. -/
def wordLeft (b : Bytes) : ℕ → Option ℕ
  | 0 => some 0
  | current + 1 =>
    if current = 0 then none
    else
      match b[current - 1]?, b[current]? with
      | some c, some d =>
        if isworddelimiter c && !isworddelimiter d then some current else wordLeft b current
      | _, _ => none

/-- The loop of `KEY_CTRL_RIGHT`, with `n` characters left. -/
def wordRight (b : Bytes) : ℕ → ℕ → Option ℕ
  | 0, current => some current
  | n + 1, current =>
    match b[current]?, b[current + 1]? with
    | some c, some d =>
      if isworddelimiter c && !isworddelimiter d then some (current + 1)
      else wordRight b n (current + 1)
    | _, _ => none

/-- A character, or a key that does nothing. -/
def Input.char (g : Setting) (ch : ℕ) (s : Input) : Option Input :=
  if (ch ≥ 32 ∧ ch ≤ 255) ∧ (s.charcount : ℤ) ≠ g.maxlen - 2 then
    if s.flags.insert ∧ s.current ≠ s.charcount then
      (copyUp (s.charcount - s.current) s.charcount s.str).bind fun b =>
      (store b s.current (UInt8.ofNat ch)).bind fun b =>
      (outs b s.current).map fun _ =>
        { s with str := b, current := s.current + 1, charcount := s.charcount + 1 }
    else
      (store s.str s.current (UInt8.ofNat ch)).map fun b =>
        { s with
          str := b
          current := s.current + 1
          charcount := if s.current = s.charcount then s.charcount + 1 else s.charcount }
  else some s

/-- The switch, without `KEY_ENTER`. -/
def Input.switch (g : Setting) (ch : ℕ) (s : Input) : Option Input :=
  match keyOf ch with
  | .bs => s.bs
  | .insert => some { s with flags := { s.flags with insert := !s.flags.insert } }
  | .delete => s.delete
  | .home => some { s with current := 0 }
  | .end' => s.toEnd
  | .tab => s.tab g
  | .enter => some s
  | .ctlC => s.clear g
  | .esc => s.clear g
  | .right => s.right
  | .f1 => s.f1
  | .f3 => s.f3
  | .up => s.up g
  | .down => s.down g
  | .f5 => s.f5 g
  | .left => some { s with current := s.current - 1 }
  | .ctrlLeft => (wordLeft s.str s.current).map fun n => { s with current := n }
  | .ctrlRight => (wordRight s.str (s.charcount - s.current) s.current).map fun n =>
    { s with current := n }
  | .other => s.char g ch

/-- A turn of the loop. -/
def Input.turn (g : Setting) (ch : ℕ) (s : Input) : Option Input :=
  (s.switch g ch).map fun s => { s with flags := { s.flags with lastch := ch } }

/-- `KEY_ENTER`: the line that is added to the history, and then executed. -/
def Input.finish (s : Input) : Option (Option Str × Str) :=
  (if s.current ≠ s.charcount then outs s.str 0 else some ()).bind fun _ =>
    (CString.str s.str 0).map fun line => (if line = [] then none else some line, line)

/-- The loop: the state after the keys, and the lines of `KEY_ENTER`. -/
def loop (g : Setting) : List ℕ → Input → Option (Input × Option (Option Str × Str))
  | [], s => some (s, none)
  | ch :: keys, s =>
    if ch = keyEnter then s.finish.map fun lines => (s, some lines)
    else (s.turn g ch).bind (loop g keys)

/-- The variables in front of the first turn. -/
def firstInput (g : Setting) (b : Bytes) : Option Input :=
  (write b 0 (List.replicate g.maxlen 0)).bind fun b =>
    (histGet g.hist (-1) (List.replicate prvLineSize 0) prvLineSize).map fun (_, prv) =>
      ⟨b, prv, 0, 0, ⟨true, 0, 0⟩⟩

/-- `readcommandEnhanced`, with what is in the array before. -/
def readcommandEnhanced (g : Setting) (keys : List ℕ) (b : Bytes) :
    Option (Input × Option (Option Str × Str)) :=
  (firstInput g b).bind (loop g keys)

/-! ## The line that is edited -/

/-- The line as the user sees it, the cursor, and the line that F1 and F3 copy from. -/
structure Edited where
  line : Str
  current : ℕ
  saved : Str
  flags : Flags

/-- A word starts at position `i`, and not at the start of the line. -/
def startsWord (s : Str) (i : ℕ) : Bool :=
  0 < i && (s[i - 1]?.map isworddelimiter).getD false &&
    !(s[i]?.map isworddelimiter).getD false

/-- The next start of a word to the left. -/
def prevWord (line : Str) : ℕ → ℕ
  | 0 => 0
  | n + 1 => if startsWord line n then n else prevWord line n

/-- The next start of a word to the right, `n` characters away at most. -/
def nextWord (line : Str) : ℕ → ℕ → ℕ
  | 0, i => i
  | n + 1, i => if startsWord line (i + 1) then i + 1 else nextWord line n (i + 1)

/-- A line takes the place of the one that is edited. -/
def Edited.replace (e : Edited) (line : Str) : Edited := { e with line := line, current := line.length }

/-- A character of the saved line is put at the cursor, where the line ends then. -/
def Edited.recall (e : Edited) : Edited :=
  match e.saved[e.current]? with
  | none => e
  | some c => { e with line := e.line.take e.current ++ [c], current := e.current + 1 }

/-- A character is typed. -/
def Edited.type (maxlen ch : ℕ) (e : Edited) : Edited :=
  if (ch ≥ 32 ∧ ch ≤ 255) ∧ e.line.length + 2 ≠ maxlen then
    { e with
      line := e.line.take e.current ++ UInt8.ofNat ch ::
        e.line.drop (if e.flags.insert then e.current else e.current + 1)
      current := e.current + 1 }
  else e

/-- What an item of the history is in an array of `len` bytes. -/
def recorded (g : Setting) (num : ℤ) (len : ℕ) : Option Str := (g.hist num).map (·.take (len - 1))

/-- What the line becomes when the word is completed. -/
def completed (g : Setting) (line : Str) : Str :=
  if g.lfncomplete = false ∧ g.find (completionPattern line) ≠ [] then
    completion line (g.find (completionPattern line))
  else line

/-- What a key does. -/
def Edited.switch (g : Setting) (ch : ℕ) (e : Edited) : Edited :=
  match keyOf ch with
  | .bs =>
    if e.current > 0 then
      { e with line := e.line.eraseIdx (e.current - 1), current := e.current - 1 }
    else e
  | .insert => { e with flags := { e.flags with insert := !e.flags.insert } }
  | .delete => { e with line := e.line.eraseIdx e.current }
  | .home => { e with current := 0 }
  | .end' => { e with current := e.line.length }
  | .tab =>
    if e.current = e.line.length ∧ e.flags.lastch ≠ keyTab then e.replace (completed g e.line)
    else e
  | .enter => e
  | .ctlC => e.replace []
  | .esc => e.replace []
  | .right => if e.current < e.line.length then { e with current := e.current + 1 } else e.recall
  | .f1 => e.recall
  | .f3 =>
    if e.line.length < e.saved.length then
      e.replace (e.line ++ e.saved.drop e.line.length)
    else e
  | .up =>
    match recorded g (e.flags.histLevel - 1) prvLineSize with
    | none => e
    | some line =>
      { e.replace line with
        saved := (recorded g (e.flags.histLevel - 2) prvLineSize).getD line
        flags := { e.flags with histLevel := e.flags.histLevel - 1 } }
  | .down =>
    if e.flags.histLevel ≠ 0 then
      { e.replace ((recorded g (e.flags.histLevel + 1) g.maxlen).getD []) with
        saved := []
        flags := { e.flags with histLevel := e.flags.histLevel + 1 } }
    else e
  | .f5 => { e.replace [] with saved := e.line }
  | .left => { e with current := e.current - 1 }
  | .ctrlLeft => { e with current := prevWord e.line e.current }
  | .ctrlRight => { e with current := nextWord e.line (e.line.length - e.current) e.current }
  | .other => e.type g.maxlen ch

/-- What a key does, for all the keys in front of `KEY_ENTER`. -/
def Edited.press (g : Setting) (e : Edited) (ch : ℕ) : Edited :=
  { e.switch g ch with flags := { (e.switch g ch).flags with lastch := ch } }

/-- The line in front of the first key. -/
def emptyLine (g : Setting) : Edited :=
  ⟨[], 0, (recorded g (-1) prvLineSize).getD [], ⟨true, 0, 0⟩⟩

/-- The line after the keys, up to `KEY_ENTER`. -/
def edited (g : Setting) (keys : List ℕ) : Edited :=
  (keys.takeWhile (· ≠ keyEnter)).foldl (Edited.press g) (emptyLine g)

/-- The variables of the loop hold the line that is edited. -/
structure Tracks (maxlen : ℕ) (e : Edited) (s : Input) : Prop where
  length_str : s.str.length = maxlen
  line : Holds s.str 0 e.line
  charcount : s.charcount = e.line.length
  current : s.current = e.current
  le : e.current ≤ e.line.length
  room : e.line.length + 2 ≤ maxlen
  length_prvLine : s.prvLine.length = prvLineSize
  saved : Holds s.prvLine 0 e.saved
  flags : s.flags = e.flags

/-! ## The keys that are allowed -/

/-- The line can become one character longer: it has room, and behind its NUL there is another
one. -/
def Input.Growable (s : Input) : Prop :=
  s.charcount + 2 < s.str.length ∧ s.str[s.charcount + 1]? = some 0

/-- F1 is used at the end of the line or in front of the last character. -/
def Input.Recallable (s : Input) : Prop :=
  ∀ saved, Holds s.prvLine 0 saved → s.current < saved.length →
    s.charcount ≤ s.current + 1 ∧ (s.current = s.charcount → s.Growable)

/-- The search for the matches stays inside of its arrays. -/
def Searchable (g : Setting) (line : Str) : Prop :=
  (completionPattern line).length < 128 ∧
    (g.lfncomplete = true → g.find (completionPattern line) ≠ [])

/-- The word can be completed: its first match fits in `maxmatch`, and what the names have in common
fits in the line. -/
def Replaceable (g : Setting) (line : Str) (files : List Ffblk) : Prop :=
  (∀ f, (realMatches files).head? = some f → f.ffName.length ≤ 11) ∧
    (files ≠ [] → (completion line files).length + 2 ≤ g.maxlen)

/-- What has to hold when a key is pressed. -/
def Input.Allowed (g : Setting) (ch : ℕ) (s : Input) : Prop :=
  match keyOf ch with
  | .tab => s.current = s.charcount → ∀ line, Holds s.str 0 line → Searchable g line ∧
      (g.lfncomplete = false →
        if s.flags.lastch ≠ keyTab then Replaceable g line (g.find (completionPattern line))
        else ∀ f ∈ realMatches (g.find (completionPattern line)), Showable f)
  | .right => s.current = s.charcount → s.Recallable
  | .f1 => s.Recallable
  | .f3 => ∀ saved, Holds s.prvLine 0 saved → s.charcount < saved.length →
      saved.length + 2 ≤ g.maxlen
  | .up => ∀ line, recorded g (s.flags.histLevel - 1) prvLineSize = some line →
      line.length + 2 ≤ g.maxlen
  | .down => s.flags.histLevel ≠ 0 →
      ∀ line, g.hist (s.flags.histLevel + 1) = some line → line.length + 2 ≤ g.maxlen
  | .ctrlLeft => s.current = 0 ∨ ∃ line, Holds s.str 0 line ∧
      ∃ i < s.current, startsWord line i = true
  | .other => (ch ≥ 32 ∧ ch ≤ 255) → s.charcount + 2 ≠ g.maxlen →
      s.current = s.charcount ∨ s.flags.insert = true → s.str[s.charcount + 1]? = some 0
  | _ => True

/-- All the keys in front of `KEY_ENTER` are allowed. -/
def AllAllowed (g : Setting) : List ℕ → Input → Prop
  | [], _ => True
  | ch :: keys, s => ch = keyEnter ∨
      (s.Allowed g ch ∧ ∀ s', s.turn g ch = some s' → AllAllowed g keys s')

/-! ## Strings in the arrays -/

variable {b : Bytes} {line pre tail p : Str} {c x : UInt8} {maxlen : ℕ} {g : Setting} {ch : ℕ}
  {e : Edited} {s : Input}

theorem holds_replicate {n : ℕ} (h : 0 < n) : Holds (List.replicate n 0) 0 [] := by
  obtain ⟨n, rfl⟩ := Nat.exists_eq_add_one_of_ne_zero (Nat.ne_zero_of_lt h)
  exact ⟨⟨List.replicate n 0, rfl⟩, List.not_mem_nil⟩

theorem write_replicate (c : UInt8) :
    write b 0 (List.replicate b.length c) = some (List.replicate b.length c) := by
  rw [write_of_le (by rw [List.length_replicate]; omega)]
  simp

theorem clrcmdline_spec (h : Holds b 0 line) :
    ∃ b', clrcmdline b b.length = some b' ∧ Holds b' 0 [] ∧ b'.length = b.length := by
  have hlt := h.length_lt
  rw [Nat.zero_add] at hlt
  rw [clrcmdline, h.str, Option.bind_some]
  split
  · obtain ⟨b₁, hb₁⟩ := Option.isSome_iff_exists.mp
      ((write_isSome (b := b) (i := 0) (s := List.replicate line.length 32)).mpr (by
        rw [List.length_replicate]
        omega))
    have hlen := length_write hb₁
    refine ⟨List.replicate b.length 0, ?_, holds_replicate (by omega), List.length_replicate⟩
    rw [hb₁, Option.bind_some, ← hlen]
    exact write_replicate 0
  · rename_i hempty
    have hnil : line = [] := List.length_eq_zero_iff.mp (Nat.eq_zero_of_not_pos hempty)
    exact ⟨b, rfl, hnil ▸ h, rfl⟩

theorem histGet_spec {hist : ℤ → Option Str} {num : ℤ} (hp : hist num = some p) (hnul : 0 ∉ p)
    (hpos : 0 < b.length) :
    ∃ b', histGet hist num b b.length = some (true, b') ∧ Holds b' 0 (p.take (b.length - 1)) ∧
      b'.length = b.length := by
  generalize hw : p.take b.length ++ List.replicate (b.length - p.length) 0 = w
  have hlen : w.length = b.length := by
    rw [← hw, List.length_append, List.length_take, List.length_replicate]
    omega
  have hwrite : write b 0 w = some w := by
    rw [write_of_le (by omega)]
    simp [hlen]
  obtain ⟨b', hb'⟩ := Option.isSome_iff_exists.mp
    ((write_isSome (b := w) (i := b.length - 1) (s := [0])).mpr (by
      rw [List.length_singleton]
      omega))
  have hlen' : b'.length = b.length := (length_write hb').trans hlen
  refine ⟨b', ?_, ?_, hlen'⟩
  · rw [histGet, hp]
    simp only [hw, hwrite, Option.bind_some, store, hb', Option.map_some]
  · have hend := take_end_write hb'
    rw [List.length_singleton, Nat.sub_add_cancel hpos, List.take_of_length_le hlen'.le, ← hw,
      List.take_append, List.take_take, List.take_replicate, List.append_assoc,
      ← List.replicate_succ', List.replicate_succ, Nat.min_eq_left (Nat.sub_le _ 1)] at hend
    rw [hend]
    exact ⟨⟨_, List.append_assoc _ _ _⟩, fun hmem => hnul (List.mem_of_mem_take hmem)⟩

/-- A character of a string is replaced. -/
theorem store_holds (h : Holds b 0 (pre ++ x :: tail)) (hc : c ≠ 0) :
    ∃ b', store b pre.length c = some b' ∧ Holds b' 0 (pre ++ c :: tail) ∧
      b'.length = b.length := by
  obtain ⟨rest, hrest⟩ := h.drop_eq
  rw [List.drop_zero] at hrest
  have hput := @write_append [c] pre [x] (tail ++ 0 :: rest) rfl
  have heq : b = pre ++ ([x] ++ (tail ++ 0 :: rest)) := by
    rw [hrest]
    simp
  refine ⟨_, by rw [heq]; exact hput, ⟨⟨rest, by simp⟩, ?_⟩, ?_⟩
  · intro hmem
    rcases List.mem_append.mp hmem with hpre | hcons
    · exact h.2 (List.mem_append_left _ hpre)
    · rcases List.mem_cons.mp hcons with heq | htail
      · exact hc heq.symm
      · exact h.2 (List.mem_append_right _ (List.mem_cons_of_mem _ htail))
  · rw [heq]
    simp

theorem copyDown_eq : ∀ (t : List UInt8) (pre rest : Bytes) (x : UInt8),
    copyDown t.length pre.length (pre ++ x :: (t ++ rest)) =
      some (pre ++ t ++ (x :: t).getLast (List.cons_ne_nil x t) :: rest) := by
  intro t
  induction t with
  | nil => simp [copyDown]
  | cons c t ih =>
    intro pre rest x
    have hget : (pre ++ x :: (c :: t ++ rest))[pre.length + 1]? = some c := by
      rw [List.getElem?_append_right (by omega)]
      simp
    have hput := @write_append [c] pre [x] (c :: t ++ rest) rfl
    have hnext := ih (pre ++ [c]) rest c
    rw [List.length_append, List.length_singleton] at hnext
    rw [List.length_cons, copyDown, hget]
    change (write (pre ++ ([x] ++ (c :: t ++ rest))) pre.length [c]).bind _ = _
    rw [hput, Option.bind_some]
    simpa using hnext

/-- The characters behind one are moved over it. -/
theorem copyDown_holds (h : Holds b 0 (pre ++ x :: tail)) :
    ∃ b', copyDown (tail.length + 1) pre.length b = some b' ∧ Holds b' 0 (pre ++ tail) ∧
      b'.length = b.length := by
  obtain ⟨rest, hrest⟩ := h.drop_eq
  rw [List.drop_zero] at hrest
  have hmove := copyDown_eq (tail ++ [0]) pre rest x
  have heq : b = pre ++ x :: (tail ++ [0] ++ rest) := by
    rw [hrest]
    simp
  rw [← heq, List.length_append, List.length_singleton] at hmove
  refine ⟨_, hmove, ⟨⟨0 :: rest, by simp⟩, fun hmem => ?_⟩, by rw [heq]; simp; omega⟩
  rcases List.mem_append.mp hmem with hpre | htail
  · exact h.2 (List.mem_append_left _ hpre)
  · exact h.2 (List.mem_append_right _ (List.mem_cons_of_mem _ htail))

theorem copyUp_eq : ∀ (t : List UInt8) (pre rest : Bytes) (y : UInt8),
    ∃ z, copyUp t.length (pre.length + t.length) (pre ++ (t ++ y :: rest)) =
      some (pre ++ z :: (t ++ rest)) := by
  intro t
  induction t using List.reverseRecOn with
  | nil => exact fun pre rest y => ⟨y, by simp [copyUp]⟩
  | append_singleton t c ih =>
    intro pre rest y
    obtain ⟨z, hz⟩ := ih pre (c :: rest) c
    refine ⟨z, ?_⟩
    have hget : (pre ++ (t ++ [c] ++ y :: rest))[pre.length + t.length]? = some c := by
      rw [List.append_assoc, ← List.append_assoc pre, ← List.length_append,
        List.getElem?_append_right (Nat.le_refl _), Nat.sub_self]
      rfl
    have hput := @write_append [c] (pre ++ t ++ [c]) [y] rest rfl
    have hlen : (pre ++ t ++ [c]).length = pre.length + (t.length + 1) := by
      simp
    rw [hlen] at hput
    rw [List.length_append, List.length_singleton, copyUp, ← Nat.add_assoc, Nat.add_sub_cancel, hget]
    have heq : pre ++ (t ++ [c] ++ y :: rest) = pre ++ t ++ [c] ++ ([y] ++ rest) := by simp
    rw [heq, ← Nat.add_assoc] at *
    simp only [store, hput, Option.bind_some]
    simpa using hz

/-- A character is put into a string that has another NUL behind its own. -/
theorem copyUp_holds (h : Holds b 0 (pre ++ tail))
    (hnext : b[(pre ++ tail).length + 1]? = some 0) (hc : c ≠ 0) :
    ∃ b₁ b₂, copyUp tail.length (pre ++ tail).length b = some b₁ ∧
      store b₁ pre.length c = some b₂ ∧ Holds b₂ 0 (pre ++ c :: tail) ∧
      b₂.length = b.length := by
  obtain ⟨rest, hrest⟩ := h.drop_eq
  rw [List.drop_zero] at hrest
  obtain ⟨rest, rfl⟩ : ∃ rest', rest = 0 :: rest' := by
    rw [hrest, List.getElem?_append_right (Nat.le_succ _)] at hnext
    cases rest with
    | nil => simp at hnext
    | cons y rest => exact ⟨rest, by simpa using hnext⟩
  obtain ⟨z, hz⟩ := copyUp_eq tail pre (0 :: rest) 0
  rw [← List.append_assoc, ← hrest, ← List.length_append] at hz
  have hput := @write_append [c] pre [z] (tail ++ 0 :: rest) rfl
  refine ⟨_, _, hz, hput, ⟨⟨rest, by simp⟩, fun hmem => ?_⟩, by rw [hrest]; simp; omega⟩
  rcases List.mem_append.mp hmem with hpre | hcons
  · exact h.2 (List.mem_append_left _ hpre)
  · rcases List.mem_cons.mp hcons with heq | htail
    · exact hc heq.symm
    · exact h.2 (List.mem_append_right _ htail)

theorem append_holds (h : Holds b 0 line) (hnext : b[line.length + 1]? = some 0) (hc : c ≠ 0) :
    ∃ b', store b line.length c = some b' ∧ Holds b' 0 (line ++ [c]) ∧ b'.length = b.length := by
  obtain ⟨b₁, b₂, hb₁, hb₂, hholds, hlen⟩ := @copyUp_holds b line [] c
    (by rwa [List.append_nil]) (by rwa [List.append_nil]) hc
  rw [List.length_nil, copyUp, Option.some.injEq] at hb₁
  subst hb₁
  exact ⟨b₂, hb₂, hholds, hlen⟩

/-! ## Words -/

theorem get_line (h : Holds b 0 line) {i : ℕ} (hi : i ≤ line.length) :
    b[i]? = (line ++ [0])[i]? := by
  have hget := h.get hi
  rwa [Nat.zero_add] at hget

theorem isworddelimiter_get {s : Str} (h : Holds b 0 s) {i : ℕ} (hi : i ≤ s.length) :
    ∃ c, b[i]? = some c ∧ isworddelimiter c = (s[i]?.map isworddelimiter).getD false := by
  rw [get_line h hi]
  rcases Nat.lt_or_eq_of_le hi with hlt | rfl
  · rw [List.getElem?_append_left hlt, List.getElem?_eq_getElem hlt]
    exact ⟨_, rfl, rfl⟩
  · exact ⟨0, by simp, by simp [isworddelimiter]⟩

theorem prevWord_le (line : Str) : ∀ n, prevWord line n ≤ n
  | 0 => Nat.le_refl 0
  | n + 1 => by
    rw [prevWord]
    split
    · exact Nat.le_succ n
    · exact Nat.le_succ_of_le (prevWord_le line n)

theorem nextWord_le (line : Str) : ∀ n i, nextWord line n i ≤ i + n
  | 0, i => Nat.le_refl i
  | n + 1, i => by
    rw [nextWord]
    split
    · omega
    · have hle := nextWord_le line n (i + 1)
      omega

theorem wordLeft_spec (h : Holds b 0 line) : ∀ {n : ℕ}, n ≤ line.length →
    (n = 0 ∨ ∃ i < n, startsWord line i = true) → wordLeft b n = some (prevWord line n)
  | 0, _, _ => rfl
  | n + 1, hn, hword => by
    obtain ⟨i, hi, hstart⟩ := hword.resolve_left (Nat.succ_ne_zero n)
    have hpos : n ≠ 0 := by
      rintro rfl
      rw [Nat.lt_one_iff.mp hi] at hstart
      exact absurd hstart (by simp [startsWord])
    obtain ⟨c, hc, hdc⟩ := isworddelimiter_get h (i := n - 1) (by omega)
    obtain ⟨d, hd, hdd⟩ := isworddelimiter_get h (i := n) (by omega)
    have hn' : startsWord line n = (isworddelimiter c && !isworddelimiter d) := by
      rw [startsWord, hdc, hdd, decide_eq_true (Nat.pos_of_ne_zero hpos), Bool.true_and]
    rw [wordLeft, if_neg hpos, hc, hd, prevWord, hn']
    dsimp only
    split
    · rfl
    · rename_i hno
      refine wordLeft_spec h (by omega) (Or.inr ⟨i, ?_, hstart⟩)
      refine Nat.lt_of_le_of_ne (Nat.le_of_lt_succ hi) ?_
      rintro rfl
      exact hno (hn' ▸ hstart)

theorem wordRight_spec (h : Holds b 0 line) : ∀ {n i : ℕ}, i + n = line.length →
    wordRight b n i = some (nextWord line n i)
  | 0, _, _ => rfl
  | n + 1, i, hn => by
    obtain ⟨c, hc, hdc⟩ := isworddelimiter_get h (i := i) (by omega)
    obtain ⟨d, hd, hdd⟩ := isworddelimiter_get h (i := i + 1) (by omega)
    have hi : startsWord line (i + 1) = (isworddelimiter c && !isworddelimiter d) := by
      rw [startsWord, Nat.add_sub_cancel, hdc, hdd, decide_eq_true (Nat.succ_pos i), Bool.true_and]
    rw [wordRight, hc, hd, nextWord, hi]
    dsimp only
    split
    · rfl
    · exact wordRight_spec h (by omega)

/-! ## What a key does -/

theorem outs_spec (h : Holds b 0 line) {i : ℕ} (hi : i ≤ line.length) : outs b i = some () := by
  rw [← List.take_append_drop i line] at h
  have htail := h.tail
  rw [Nat.zero_add, List.length_take, Nat.min_eq_left hi] at htail
  rw [outs, htail.str]
  rfl

/-- The line and the place in it are changed. -/
theorem Tracks.edit (h : Tracks maxlen e s) {i : ℕ} (hlen : b.length = maxlen)
    (hline : Holds b 0 line) (hi : i ≤ line.length) (hroom : line.length + 2 ≤ maxlen) :
    Tracks maxlen { e with line := line, current := i }
      { s with str := b, current := i, charcount := line.length } :=
  ⟨hlen, hline, rfl, rfl, hi, hroom, h.length_prvLine, h.saved, h.flags⟩

theorem Tracks.atEnd (h : Tracks maxlen e s) (hlen : b.length = maxlen) (hline : Holds b 0 line)
    (hroom : line.length + 2 ≤ maxlen) :
    ∃ s', s.atEnd b = some s' ∧ Tracks maxlen (e.replace line) s' :=
  ⟨{ s with str := b, current := line.length, charcount := line.length },
    by rw [Input.atEnd, hline.str]; rfl, h.edit hlen hline (Nat.le_refl _) hroom⟩

theorem Tracks.clear (h : Tracks g.maxlen e s) :
    ∃ s', s.clear g = some s' ∧ Tracks g.maxlen (e.replace []) s' := by
  obtain ⟨b, hb, hline, hlen⟩ := clrcmdline_spec h.line
  rw [h.length_str] at hb hlen
  have hroom := h.room
  exact ⟨{ s with str := b, current := 0, charcount := 0 }, by rw [Input.clear, hb]; rfl,
    h.edit hlen hline (Nat.le_refl 0) (by rw [List.length_nil]; omega)⟩

/-- A line around the cursor. -/
theorem Edited.split (hlt : e.current < e.line.length) :
    ∃ x, e.line = e.line.take e.current ++ x :: e.line.drop (e.current + 1) ∧
      (e.line.take e.current).length = e.current := by
  refine ⟨e.line[e.current], ?_, ?_⟩
  · rw [← List.drop_eq_getElem_cons hlt, List.take_append_drop]
  · rw [List.length_take]
    omega

theorem Tracks.bs (h : Tracks maxlen e s) :
    ∃ s', s.bs = some s' ∧ Tracks maxlen (if e.current > 0 then
      { e with line := e.line.eraseIdx (e.current - 1), current := e.current - 1 } else e) s' := by
  rw [Input.bs, h.current, h.charcount]
  have hle := h.le
  by_cases hpos : e.current > 0
  · rw [if_pos ⟨hpos, Nat.lt_of_lt_of_le hpos hle⟩, if_pos hpos]
    generalize hi : e.current - 1 = i
    have hlt : i < e.line.length := by omega
    obtain ⟨x, hsplit, hlen⟩ := Edited.split (e := { e with current := i }) hlt
    dsimp only at hsplit hlen
    have herase : e.line.eraseIdx i = e.line.take i ++ e.line.drop (i + 1) :=
      List.eraseIdx_eq_take_drop_succ ..
    have hline := h.line
    rw [hsplit] at hline
    obtain ⟨b, hb, hholds, hblen⟩ : ∃ b, (if e.current = e.line.length then store s.str i 0
        else (copyDown (e.line.length - i) i s.str).bind fun b => (outs b i).map fun _ => b) =
          some b ∧ Holds b 0 (e.line.eraseIdx i) ∧ b.length = s.str.length := by
      split
      · rename_i hend
        have hnil : e.line.drop (i + 1) = [] := List.drop_eq_nil_of_le (by omega)
        have hget := h.line.get (j := i) (by omega)
        rw [List.getElem?_append_left hlt, Nat.zero_add, List.getElem?_eq_getElem hlt] at hget
        obtain ⟨b, hb, -⟩ := store_restore hget 0
        refine ⟨b, hb, ?_, length_write hb⟩
        rw [herase, hnil, List.append_nil]
        exact hline.cut (by rwa [hlen, Nat.zero_add])
      · obtain ⟨b, hb, hholds, hblen⟩ := copyDown_holds hline
        have hn : (e.line.drop (i + 1)).length + 1 = e.line.length - i := by
          rw [List.length_drop]
          omega
        rw [hn, hlen] at hb
        rw [← herase] at hholds
        have hi' : i ≤ (e.line.eraseIdx i).length := by
          rw [List.length_eraseIdx_of_lt hlt]
          omega
        exact ⟨b, by rw [hb, Option.bind_some, outs_spec hholds hi']; rfl, hholds, hblen⟩
    have hlen' := List.length_eraseIdx_of_lt hlt
    have hroom := h.room
    rw [hb, ← hlen']
    exact ⟨_, rfl, h.edit (hblen.trans h.length_str) hholds (by omega) (by omega)⟩
  · rw [if_neg fun hc => hpos hc.1, if_neg hpos]
    exact ⟨s, rfl, h⟩

theorem Tracks.delete (h : Tracks maxlen e s) :
    ∃ s', s.delete = some s' ∧ Tracks maxlen { e with line := e.line.eraseIdx e.current } s' := by
  rw [Input.delete, h.current, h.charcount]
  have hle := h.le
  by_cases hlt : e.current < e.line.length
  · rw [if_pos ⟨Nat.ne_of_lt hlt, Nat.zero_lt_of_lt hlt⟩]
    obtain ⟨x, hsplit, hlen⟩ := Edited.split hlt
    have herase : e.line.eraseIdx e.current = e.line.take e.current ++ e.line.drop (e.current + 1) :=
      List.eraseIdx_eq_take_drop_succ ..
    have hline := h.line
    rw [hsplit] at hline
    obtain ⟨b, hb, hholds, hblen⟩ := copyDown_holds hline
    have hn : (e.line.drop (e.current + 1)).length + 1 = e.line.length - e.current := by
      rw [List.length_drop]
      omega
    rw [hn, hlen] at hb
    rw [← herase] at hholds
    have hlen' := List.length_eraseIdx_of_lt hlt
    have hi : e.current ≤ (e.line.eraseIdx e.current).length := by
      rw [hlen']
      omega
    have hroom := h.room
    rw [hb, Option.bind_some, outs_spec hholds hi, ← hlen']
    exact ⟨_, rfl, h.edit (hblen.trans h.length_str) hholds hi (by omega)⟩
  · rw [if_neg fun hc => hc.1 (Nat.le_antisymm hle (Nat.not_lt.mp hlt)),
      List.eraseIdx_of_length_le (Nat.not_lt.mp hlt)]
    exact ⟨s, rfl, h⟩

theorem Tracks.toEnd (h : Tracks maxlen e s) :
    ∃ s', s.toEnd = some s' ∧ Tracks maxlen { e with current := e.line.length } s' := by
  rw [Input.toEnd, h.current, h.charcount, outs_spec h.line (Nat.zero_le _)]
  split
  · have hedit := h.edit h.length_str h.line (Nat.le_refl _) h.room
    rw [← h.charcount] at hedit
    exact ⟨_, rfl, h.charcount ▸ hedit⟩
  · rename_i heq
    rw [← Decidable.not_not.mp heq]
    exact ⟨s, rfl, h⟩

theorem Tracks.f1 (h : Tracks maxlen e s) (hok : s.Recallable) :
    ∃ s', s.f1 = some s' ∧ Tracks maxlen e.recall s' := by
  have hle := h.le
  have hroom := h.room
  have hrecall := hok e.saved h.saved
  rw [Input.f1, h.saved.str, Option.bind_some, Edited.recall, h.current]
  rw [h.current, h.charcount] at hrecall
  split
  · rename_i hlt
    obtain ⟨hshort, hgrow⟩ := hrecall hlt
    obtain ⟨c, hsaved⟩ : ∃ c, e.saved[e.current]? = some c := ⟨_, List.getElem?_eq_getElem hlt⟩
    have hget : s.prvLine[e.current]? = some c := by
      have hprv := h.saved.get (j := e.current) (by omega)
      rwa [Nat.zero_add, List.getElem?_append_left hlt, hsaved] at hprv
    have hc : c ≠ 0 := fun hzero => h.saved.2 (hzero ▸ List.mem_of_getElem? hsaved)
    rw [hsaved, hget]
    dsimp only
    have hlen : (e.line.take e.current ++ [c]).length = e.current + 1 := by
      rw [List.length_append, List.length_take, List.length_singleton]
      omega
    obtain ⟨b, hb, hholds, hblen⟩ : ∃ b, store s.str e.current c = some b ∧
        Holds b 0 (e.line.take e.current ++ [c]) ∧ b.length = s.str.length := by
      rcases Nat.lt_or_eq_of_le hle with hin | hend
      · obtain ⟨x, hsplit, hpre⟩ := Edited.split hin
        have hline := h.line
        rw [hsplit, List.drop_eq_nil_of_le (by omega)] at hline
        have hput := store_holds hline hc
        rwa [hpre] at hput
      · obtain ⟨-, hnext⟩ := hgrow hend
        rw [h.charcount] at hnext
        rw [List.take_of_length_le hend.ge, hend]
        exact append_holds h.line hnext hc
    have hfits : e.current + 1 + 2 ≤ maxlen := by
      rcases Nat.lt_or_eq_of_le hle with hin | hend
      · omega
      · have hlt := (hgrow hend).1
        rw [h.length_str, h.charcount] at hlt
        omega
    have hedit := h.edit (i := e.current + 1) (hblen.trans h.length_str) hholds hlen.ge
      (by rw [hlen]; exact hfits)
    rw [hlen] at hedit
    exact ⟨_, by rw [hb]; rfl, hedit⟩
  · rename_i hge
    rw [List.getElem?_eq_none (Nat.not_lt.mp hge)]
    exact ⟨s, rfl, h⟩

theorem Tracks.right (h : Tracks maxlen e s) (hok : s.current = s.charcount → s.Recallable) :
    ∃ s', s.right = some s' ∧ Tracks maxlen (if e.current < e.line.length then
      { e with current := e.current + 1 } else e.recall) s' := by
  have hle := h.le
  rw [Input.right]
  by_cases hend : s.current = s.charcount
  · have hstay : ¬ e.current < e.line.length := by
      rw [← h.current, hend, h.charcount]
      exact Nat.lt_irrefl _
    rw [if_neg (not_not_intro hend), if_neg hstay]
    exact h.f1 (hok hend)
  · have hlt : e.current < e.line.length := by
      rw [h.current, h.charcount] at hend
      omega
    rw [if_pos hend, if_pos hlt, h.current]
    have hedit := h.edit (i := e.current + 1) h.length_str h.line hlt h.room
    rw [← h.charcount] at hedit
    exact ⟨_, rfl, hedit⟩

theorem Tracks.f3 (h : Tracks maxlen e s) (hok : ∀ saved, Holds s.prvLine 0 saved →
    s.charcount < saved.length → saved.length + 2 ≤ maxlen) :
    ∃ s', s.f3 = some s' ∧ Tracks maxlen (if e.line.length < e.saved.length then
      e.replace (e.line ++ e.saved.drop e.line.length) else e) s' := by
  have hroom := hok e.saved h.saved
  rw [Input.f3, h.saved.str, Option.bind_some, h.charcount]
  rw [h.charcount] at hroom
  split
  · rename_i hlt
    have hfits := hroom hlt
    have hsaved := h.saved
    rw [← List.take_append_drop e.line.length e.saved] at hsaved
    have hrest := hsaved.tail
    rw [List.length_take, Nat.min_eq_left hlt.le, Nat.zero_add] at hrest
    have hlen : (e.line ++ e.saved.drop e.line.length).length = e.saved.length := by
      rw [List.length_append, List.length_drop]
      omega
    obtain ⟨b, hb⟩ := Option.isSome_iff_exists.mp
      ((strcpy_isSome (b := s.str) (i := e.line.length) (s := e.saved.drop e.line.length)).mpr (by
        rw [← List.length_append, hlen, h.length_str]
        omega))
    have hline : Holds b 0 (e.line ++ e.saved.drop e.line.length) := by
      refine (holds_strcpy hb hrest.2).front ?_ h.line.2
      have hfront := h.line
      rw [← List.append_nil e.line] at hfront
      rw [take_write hb, hfront.take]
    rw [hrest.str, Option.bind_some, hb, Option.bind_some]
    exact h.atEnd ((length_strcpy hb).trans h.length_str) hline (by rw [hlen]; exact hfits)
  · exact ⟨s, rfl, h⟩

/-- The items of the history are strings. -/
def Strings (hist : ℤ → Option Str) : Prop := ∀ num p, hist num = some p → 0 ∉ p

theorem histGet_recorded (hhist : Strings g.hist) (num : ℤ) (hpos : 0 < b.length) :
    ∃ found b', histGet g.hist num b b.length = some (found, b') ∧ b'.length = b.length ∧
      match recorded g num b.length with
      | none => found = false ∧ b' = b
      | some line => found = true ∧ Holds b' 0 line := by
  cases hp : g.hist num with
  | none =>
    refine ⟨false, b, by rw [histGet, hp], rfl, ?_⟩
    rw [recorded, hp]
    exact ⟨rfl, rfl⟩
  | some p =>
    obtain ⟨b', hb', hholds, hlen⟩ := histGet_spec hp (hhist num p hp) hpos
    refine ⟨true, b', hb', hlen, ?_⟩
    rw [recorded, hp]
    exact ⟨rfl, hholds⟩

theorem Tracks.up (h : Tracks g.maxlen e s) (hhist : Strings g.hist)
    (hok : ∀ line, recorded g (s.flags.histLevel - 1) prvLineSize = some line →
      line.length + 2 ≤ g.maxlen) :
    ∃ s', s.up g = some s' ∧ Tracks g.maxlen
      (match recorded g (e.flags.histLevel - 1) prvLineSize with
      | none => e
      | some line =>
        { e.replace line with
          saved := (recorded g (e.flags.histLevel - 2) prvLineSize).getD line
          flags := { e.flags with histLevel := e.flags.histLevel - 1 } }) s' := by
  have hsize : 0 < s.prvLine.length := h.saved.length_lt.trans_le' (Nat.zero_le _)
  obtain ⟨found, prv, hget, hlen, hcase⟩ := histGet_recorded hhist (s.flags.histLevel - 1) hsize
  rw [h.length_prvLine] at hget hlen hcase
  rw [Input.up, hget, Option.bind_some, ← h.flags]
  cases hrec : recorded g (s.flags.histLevel - 1) prvLineSize with
  | none =>
    rw [hrec] at hcase
    rw [hcase.1]
    exact ⟨s, rfl, h⟩
  | some line =>
    rw [hrec] at hcase
    obtain ⟨rfl, hprv⟩ := hcase
    have hroom := hok line hrec
    obtain ⟨b, hb, -, hblen⟩ := clrcmdline_spec h.line
    rw [h.length_str] at hb hblen
    obtain ⟨b₁, hb₁⟩ := Option.isSome_iff_exists.mp
      ((strcpy_isSome (b := b) (i := 0) (s := line)).mpr (by omega))
    obtain ⟨s₁, hs₁, htracks⟩ := h.atEnd ((length_strcpy hb₁).trans hblen)
      (holds_strcpy hb₁ hprv.2) hroom
    have hsize' : 0 < prv.length := by
      rw [hlen]
      decide
    obtain ⟨found', prv', hget', hlen', hcase'⟩ :=
      histGet_recorded hhist (s.flags.histLevel - 2) hsize'
    rw [hlen] at hget' hlen' hcase'
    have hflags : s₁.flags = s.flags := htracks.flags.trans h.flags.symm
    refine ⟨{ s₁ with
      prvLine := prv', flags := { s.flags with histLevel := s.flags.histLevel - 1 } }, ?_,
      htracks.length_str, htracks.line, htracks.charcount, htracks.current, htracks.le,
      htracks.room, hlen', ?_, by rw [h.flags]⟩
    · simp only [if_true, hb, hprv.str, hb₁, hs₁, hflags, hget', Option.bind_some, Option.map_some]
    · cases hrec' : recorded g (s.flags.histLevel - 2) prvLineSize with
      | none =>
        rw [hrec'] at hcase'
        rw [hcase'.2]
        exact hprv
      | some line' =>
        rw [hrec'] at hcase'
        exact hcase'.2

theorem Tracks.down (h : Tracks g.maxlen e s) (hhist : Strings g.hist)
    (hok : s.flags.histLevel ≠ 0 → ∀ line, g.hist (s.flags.histLevel + 1) = some line →
      line.length + 2 ≤ g.maxlen) :
    ∃ s', s.down g = some s' ∧ Tracks g.maxlen (if e.flags.histLevel ≠ 0 then
      { e.replace ((recorded g (e.flags.histLevel + 1) g.maxlen).getD []) with
        saved := []
        flags := { e.flags with histLevel := e.flags.histLevel + 1 } } else e) s' := by
  rw [Input.down, ← h.flags]
  split
  · rename_i hlevel
    have hroom := h.room
    obtain ⟨b, hb, hempty, hblen⟩ := clrcmdline_spec h.line
    rw [h.length_str] at hb hblen
    obtain ⟨prv, hprv⟩ := Option.isSome_iff_exists.mp
      ((strcpy_isSome (b := s.prvLine) (i := 0) (s := [])).mpr (by
        rw [h.length_prvLine]
        decide))
    have hpos : 0 < b.length := by omega
    obtain ⟨found, b₁, hget, hlen, hcase⟩ := histGet_recorded hhist (s.flags.histLevel + 1) hpos
    rw [hblen] at hget hlen hcase
    have hline : Holds b₁ 0 ((recorded g (s.flags.histLevel + 1) g.maxlen).getD []) ∧
        ((recorded g (s.flags.histLevel + 1) g.maxlen).getD []).length + 2 ≤ g.maxlen := by
      cases hrec : recorded g (s.flags.histLevel + 1) g.maxlen with
      | none =>
        rw [hrec] at hcase
        rw [hcase.2]
        exact ⟨hempty, by rw [Option.getD_none, List.length_nil]; omega⟩
      | some line =>
        rw [hrec] at hcase
        obtain ⟨p, hp, rfl⟩ := Option.map_eq_some_iff.mp hrec
        have hshort := hok hlevel p hp
        refine ⟨hcase.2, ?_⟩
        rw [Option.getD_some, List.length_take]
        omega
    have hsaved : Tracks g.maxlen
        { e with
          saved := []
          flags := { s.flags with histLevel := s.flags.histLevel + 1 } }
        { s with
          prvLine := prv
          flags := { s.flags with histLevel := s.flags.histLevel + 1 } } :=
      ⟨h.length_str, h.line, h.charcount, h.current, h.le, h.room,
        (length_strcpy hprv).trans h.length_prvLine, holds_strcpy hprv List.not_mem_nil, rfl⟩
    obtain ⟨s', hs', htracks⟩ := hsaved.atEnd hlen hline.1 hline.2
    refine ⟨s', ?_, htracks⟩
    simp only [hb, hempty.str, hprv, hget, Option.bind_some]
    exact hs'
  · exact ⟨s, rfl, h⟩

theorem Tracks.f5 (h : Tracks g.maxlen e s) (hmax : g.maxlen ≤ prvLineSize) :
    ∃ s', s.f5 g = some s' ∧ Tracks g.maxlen { e.replace [] with saved := e.line } s' := by
  have hroom := h.room
  obtain ⟨prv, hprv⟩ := Option.isSome_iff_exists.mp
    ((strcpy_isSome (b := s.prvLine) (i := 0) (s := e.line)).mpr (by
      rw [h.length_prvLine]
      omega))
  have hsaved : Tracks g.maxlen { e with saved := e.line } { s with prvLine := prv } :=
    ⟨h.length_str, h.line, h.charcount, h.current, h.le, h.room,
      (length_strcpy hprv).trans h.length_prvLine, holds_strcpy hprv h.line.2, h.flags⟩
  obtain ⟨s', hs', htracks⟩ := hsaved.clear
  refine ⟨s', ?_, htracks⟩
  rw [Input.f5, h.line.str, Option.bind_some, hprv, Option.bind_some]
  exact hs'

theorem completed_spec (h : Holds b 0 line) (hfind : ∀ pattern, Listing (g.find pattern))
    (hroom : line.length + 2 ≤ g.maxlen) (hlen : b.length = g.maxlen) (hsearch : Searchable g line)
    (hok : g.lfncomplete = false → Replaceable g line (g.find (completionPattern line))) :
    ∃ r, doComplete g.lfncomplete g.find b line.length false = some r ∧ r.line.length = b.length ∧
      Holds r.line 0 (completed g line) ∧ (completed g line).length + 2 ≤ g.maxlen := by
  rw [doComplete_eq h hsearch.1, findMatches_eq, completed]
  cases hlfn : g.lfncomplete with
  | true =>
    rw [if_pos rfl, if_neg (hsearch.2 hlfn), if_neg fun hc => Bool.noConfusion hc.1]
    exact ⟨_, rfl, rfl, h, hroom⟩
  | false =>
    rw [if_neg Bool.false_ne_true]
    by_cases hnone : g.find (completionPattern line) = []
    · rw [if_pos hnone, if_neg fun hc => hc.2 hnone]
      exact ⟨_, rfl, rfl, h, hroom⟩
    · rw [if_neg hnone, if_pos ⟨rfl, hnone⟩]
      have hfits := (hok hlfn).2 hnone
      obtain ⟨r, hr, hlen', hline⟩ := replaceWord_spec h (hfind _) (hok hlfn).1 (by omega)
      exact ⟨r, hr, hlen', hline, hfits⟩

theorem shown_spec (h : Holds b 0 line) (hfind : ∀ pattern, Listing (g.find pattern))
    (hsearch : Searchable g line) (hok : g.lfncomplete = false →
      ∀ f ∈ realMatches (g.find (completionPattern line)), Showable f) :
    ∃ r, doComplete g.lfncomplete g.find b line.length true = some r ∧ r.line = b := by
  rw [doComplete_eq h hsearch.1, findMatches_eq]
  cases hlfn : g.lfncomplete with
  | true =>
    rw [if_pos rfl, if_neg (hsearch.2 hlfn)]
    exact ⟨_, rfl, rfl⟩
  | false =>
    rw [if_neg Bool.false_ne_true]
    by_cases hnone : g.find (completionPattern line) = []
    · rw [if_pos hnone]
      exact ⟨_, rfl, rfl⟩
    · rw [if_neg hnone]
      obtain ⟨r, hr⟩ := Option.isSome_iff_exists.mp ((replaceWord_show h (hfind _)).mpr (hok hlfn))
      exact ⟨r, hr, replaceWord_line hr⟩

theorem Tracks.tab (h : Tracks g.maxlen e s) (hfind : ∀ pattern, Listing (g.find pattern))
    (hok : s.current = s.charcount → ∀ line, Holds s.str 0 line → Searchable g line ∧
      (g.lfncomplete = false →
        if s.flags.lastch ≠ keyTab then Replaceable g line (g.find (completionPattern line))
        else ∀ f ∈ realMatches (g.find (completionPattern line)), Showable f)) :
    ∃ s', s.tab g = some s' ∧ Tracks g.maxlen
      (if e.current = e.line.length ∧ e.flags.lastch ≠ keyTab then e.replace (completed g e.line)
      else e) s' := by
  rw [Input.tab]
  have hiff : s.current = s.charcount ↔ e.current = e.line.length := by rw [h.current, h.charcount]
  by_cases hend : s.current = s.charcount
  · obtain ⟨hsearch, hmatches⟩ := hok hend e.line h.line
    rw [if_pos hend, ← h.flags]
    by_cases htab : s.flags.lastch ≠ keyTab
    · rw [if_pos htab, if_pos ⟨hiff.mp hend, htab⟩, h.charcount]
      obtain ⟨r, hr, hlen, hline, hroom⟩ := completed_spec h.line hfind h.room h.length_str hsearch
        fun hlfn => by simpa only [if_pos htab] using hmatches hlfn
      rw [hr, Option.bind_some]
      exact h.atEnd (hlen.trans h.length_str) hline hroom
    · rw [if_neg htab, if_neg fun hc => htab hc.2]
      obtain ⟨r, hr, hline⟩ := shown_spec h.line hfind hsearch
        fun hlfn => by simpa only [if_neg htab] using hmatches hlfn
      rw [← h.charcount] at hr
      rw [hr, Option.bind_some, hline, outs_spec h.line (Nat.zero_le _)]
      refine ⟨s, ?_, h⟩
      cases r.ret <;> rfl
  · rw [if_neg hend, if_neg fun hc => hend (hiff.mpr hc.1)]
    exact ⟨s, rfl, h⟩

theorem Tracks.char (h : Tracks g.maxlen e s) (hok : (ch ≥ 32 ∧ ch ≤ 255) →
    s.charcount + 2 ≠ g.maxlen → s.current = s.charcount ∨ s.flags.insert = true →
      s.str[s.charcount + 1]? = some 0) :
    ∃ s', s.char g ch = some s' ∧ Tracks g.maxlen (e.type g.maxlen ch) s' := by
  have hle := h.le
  have hroom := h.room
  rw [h.charcount, h.current, h.flags] at hok
  rw [Input.char, Edited.type, h.charcount, h.current, h.flags]
  have hfull : ((e.line.length : ℤ) ≠ g.maxlen - 2) ↔ e.line.length + 2 ≠ g.maxlen := by omega
  simp only [hfull]
  split
  · rename_i hch
    obtain ⟨hrange, hne⟩ := hch
    have hnext := hok hrange hne
    have hc : UInt8.ofNat ch ≠ 0 := by
      intro hzero
      have := congrArg UInt8.toNat hzero
      rw [UInt8.toNat_ofNat', Nat.mod_eq_of_lt (by omega)] at this
      simp at this
      omega
    by_cases hinsert : e.flags.insert = true ∧ e.current ≠ e.line.length
    · obtain ⟨hins, hin⟩ := hinsert
      have hline := h.line
      rw [← List.take_append_drop e.current e.line] at hline
      have hlen : (e.line.take e.current).length = e.current := by
        rw [List.length_take]
        omega
      have hdrop : (e.line.drop e.current).length = e.line.length - e.current := List.length_drop
      obtain ⟨b₁, b₂, hb₁, hb₂, hholds, hblen⟩ := copyUp_holds hline (by
        rw [List.take_append_drop]
        exact hnext (Or.inr hins)) hc
      rw [List.take_append_drop, hdrop] at hb₁
      rw [hlen] at hb₂
      have hlen' : (e.line.take e.current ++ UInt8.ofNat ch :: e.line.drop e.current).length =
          e.line.length + 1 := by
        rw [List.length_append, List.length_cons, hlen, hdrop]
        omega
      have hedit := h.edit (i := e.current + 1) (hblen.trans h.length_str) hholds (by omega)
        (by omega)
      rw [hlen', h.flags] at hedit
      rw [if_pos ⟨hins, hin⟩, hb₁, Option.bind_some, hb₂, Option.bind_some,
        outs_spec hholds (by omega), if_pos hins]
      exact ⟨_, rfl, hedit⟩
    · rw [if_neg hinsert]
      obtain ⟨b, hb, hholds, hblen⟩ : ∃ b, store s.str e.current (UInt8.ofNat ch) = some b ∧
          Holds b 0 (e.line.take e.current ++ UInt8.ofNat ch ::
            e.line.drop (if e.flags.insert then e.current else e.current + 1)) ∧
          b.length = s.str.length := by
        rcases Nat.lt_or_eq_of_le hle with hin | hend
        · obtain ⟨x, hsplit, hpre⟩ := Edited.split hin
          have hline := h.line
          rw [hsplit] at hline
          have hover : ¬ e.flags.insert = true := fun hins => hinsert ⟨hins, hin.ne⟩
          have hput := store_holds hline hc
          rw [hpre] at hput
          rw [if_neg hover]
          exact hput
        · have hnil : e.line.drop (if e.flags.insert then e.current else e.current + 1) = [] := by
            apply List.drop_eq_nil_of_le
            split <;> omega
          rw [hnil, List.take_of_length_le hend.ge, hend]
          exact append_holds h.line (hnext (Or.inl hend)) hc
      have hlen : (e.line.take e.current ++ UInt8.ofNat ch ::
          e.line.drop (if e.flags.insert then e.current else e.current + 1)).length =
          if e.current = e.line.length then e.line.length + 1 else e.line.length := by
        rw [List.length_append, List.length_cons, List.length_take, List.length_drop]
        by_cases hend : e.current = e.line.length
        · rw [if_pos hend]
          split <;> omega
        · have hover : ¬ e.flags.insert = true := fun hins => hinsert ⟨hins, hend⟩
          rw [if_neg hend, if_neg hover]
          omega
      have hedit := h.edit (i := e.current + 1) (hblen.trans h.length_str) hholds
        (by rw [hlen]; split <;> omega) (by rw [hlen]; split <;> omega)
      rw [hlen, h.flags] at hedit
      rw [hb]
      exact ⟨_, rfl, hedit⟩
  · exact ⟨s, rfl, h⟩

/-! ## The run -/

/-- What one key preserves. -/
theorem Tracks.turn (h : Tracks g.maxlen e s) (hhist : Strings g.hist)
    (hfind : ∀ pattern, Listing (g.find pattern)) (hmax : g.maxlen ≤ prvLineSize)
    (hok : s.Allowed g ch) :
    ∃ s', s.turn g ch = some s' ∧ Tracks g.maxlen (e.press g ch) s' := by
  have hle := h.le
  have hline := h.line
  obtain ⟨s', hs', h'⟩ :
      ∃ s', s.switch g ch = some s' ∧ Tracks g.maxlen (e.switch g ch) s' := by
    rw [Input.Allowed] at hok
    rw [Input.switch, Edited.switch]
    cases hkey : keyOf ch <;> rw [hkey] at hok <;> dsimp only at hok ⊢
    case bs => exact h.bs
    case insert =>
      refine ⟨_, rfl, h.length_str, hline, h.charcount, h.current, hle, h.room, h.length_prvLine,
        h.saved, ?_⟩
      rw [h.flags]
    case delete => exact h.delete
    case home =>
      have hedit := h.edit h.length_str hline (Nat.zero_le _) h.room
      rw [← h.charcount] at hedit
      exact ⟨_, rfl, hedit⟩
    case end' => exact h.toEnd
    case tab => exact h.tab hfind hok
    case enter => exact ⟨s, rfl, h⟩
    case ctlC => exact h.clear
    case esc => exact h.clear
    case right => exact h.right hok
    case f1 => exact h.f1 hok
    case f3 => exact h.f3 hok
    case up => exact h.up hhist hok
    case down => exact h.down hhist hok
    case f5 => exact h.f5 hmax
    case left =>
      have hedit := h.edit (i := e.current - 1) h.length_str hline (by omega) h.room
      rw [← h.charcount, ← h.current] at hedit
      rw [← h.current]
      exact ⟨_, rfl, hedit⟩
    case ctrlLeft =>
      have hword : e.current = 0 ∨ ∃ i < e.current, startsWord e.line i = true := by
        rw [← h.current]
        refine hok.imp_right fun ⟨line, hholds, i, hi, hstart⟩ => ⟨i, hi, ?_⟩
        rwa [hline.unique hholds]
      have hedit := h.edit (i := prevWord e.line e.current) h.length_str hline
        ((prevWord_le _ _).trans hle) h.room
      rw [← h.charcount] at hedit
      rw [h.current, wordLeft_spec hline hle hword]
      exact ⟨_, rfl, hedit⟩
    case ctrlRight =>
      have hreach := nextWord_le e.line (e.line.length - e.current) e.current
      have hedit := h.edit (i := nextWord e.line (e.line.length - e.current) e.current)
        h.length_str hline (by omega) h.room
      rw [← h.charcount] at hedit
      rw [h.current, h.charcount, wordRight_spec hline (by omega)]
      rw [h.charcount] at hedit
      exact ⟨_, rfl, hedit⟩
    case other => exact h.char hok
  refine ⟨{ s' with flags := { s'.flags with lastch := ch } }, by rw [Input.turn, hs']; rfl,
    h'.length_str, h'.line, h'.charcount, h'.current, h'.le, h'.room, h'.length_prvLine, h'.saved,
    ?_⟩
  rw [Edited.press, h'.flags]

/-- A key is allowed, and then the ones behind it. -/
theorem Tracks.allAllowed_cons {keys : List ℕ} (h : Tracks g.maxlen e s) (hhist : Strings g.hist)
    (hfind : ∀ pattern, Listing (g.find pattern)) (hmax : g.maxlen ≤ prvLineSize)
    (hok : s.Allowed g ch)
    (hrest : ∀ s', Tracks g.maxlen (e.press g ch) s' → AllAllowed g keys s') :
    AllAllowed g (ch :: keys) s := by
  obtain ⟨s', hs', h'⟩ := h.turn hhist hfind hmax hok
  refine Or.inr ⟨hok, fun t ht => ?_⟩
  obtain rfl := Option.some.inj (hs'.symm.trans ht)
  exact hrest s' h'

theorem Tracks.finish (h : Tracks maxlen e s) :
    s.finish = some (if e.line = [] then none else some e.line, e.line) := by
  rw [Input.finish, outs_spec h.line (Nat.zero_le _), ite_self, Option.bind_some, h.line.str]
  rfl

/-- What a whole run preserves. -/
theorem Tracks.loop (hhist : Strings g.hist) (hfind : ∀ pattern, Listing (g.find pattern))
    (hmax : g.maxlen ≤ prvLineSize) : ∀ {keys : List ℕ} {e : Edited} {s : Input},
    Tracks g.maxlen e s → AllAllowed g keys s →
    ∃ s', Tracks g.maxlen ((keys.takeWhile (· ≠ keyEnter)).foldl (Edited.press g) e) s' ∧
      Cmdinput.loop g keys s = some (s', if keyEnter ∈ keys then s'.finish else none) := by
  intro keys
  induction keys with
  | nil => exact fun h _ => ⟨_, h, rfl⟩
  | cons ch keys ih =>
    intro e s h hok
    rw [Cmdinput.loop]
    by_cases henter : ch = keyEnter
    · subst henter
      rw [if_pos rfl, List.takeWhile_cons_of_neg (by simp)]
      refine ⟨s, h, ?_⟩
      rw [if_pos List.mem_cons_self, h.finish]
      rfl
    · obtain ⟨hkey, hrest⟩ := hok.resolve_left henter
      obtain ⟨s', hs', h'⟩ := h.turn hhist hfind hmax hkey
      obtain ⟨s₂, h₂, hloop⟩ := ih h' (hrest s' hs')
      have hmem : keyEnter ∈ ch :: keys ↔ keyEnter ∈ keys := by
        rw [List.mem_cons]
        exact or_iff_right fun heq => henter heq.symm
      rw [if_neg henter, hs', Option.bind_some, List.takeWhile_cons_of_pos (by simp [henter]),
        List.foldl_cons]
      simp only [hmem]
      exact ⟨s₂, h₂, hloop⟩

theorem firstInput_spec (hhist : Strings g.hist) (hmin : 2 ≤ g.maxlen) (hb : b.length = g.maxlen) :
    ∃ s, firstInput g b = some s ∧ Tracks g.maxlen (emptyLine g) s := by
  obtain ⟨found, prv, hget, hlen, hcase⟩ := histGet_recorded (b := List.replicate prvLineSize 0)
    hhist (-1) (by rw [List.length_replicate]; decide)
  rw [List.length_replicate] at hget hlen hcase
  refine ⟨⟨List.replicate g.maxlen 0, prv, 0, 0, ⟨true, 0, 0⟩⟩, ?_, List.length_replicate,
    holds_replicate (by omega), rfl, rfl, Nat.le_refl 0, hmin, hlen, ?_, rfl⟩
  · rw [firstInput, ← hb, write_replicate, hget]
    rfl
  · rw [emptyLine]
    cases hrec : recorded g (-1) prvLineSize with
    | none =>
      rw [hrec] at hcase
      rw [hcase.2]
      exact holds_replicate (by decide)
    | some line =>
      rw [hrec] at hcase
      exact hcase.2

theorem firstInput_str (hb : b.length = g.maxlen) (h : firstInput g b = some s) :
    s.str = List.replicate g.maxlen 0 := by
  rw [firstInput, ← hb, write_replicate, Option.bind_some, Option.map_eq_some_iff] at h
  obtain ⟨r, -, hr⟩ := h
  rw [← hr, hb]

/-- **The line that is edited.**  In every run whose keys are all allowed nothing outside of the
arrays is accessed, the string is the line that is edited, `charcount` is its length, which is
`maxlen - 2` at most, and `current` is a place in it.  With `KEY_ENTER` it is this line that is
added to the history, unless it is empty, and that is executed. -/
theorem readcommandEnhanced_tracks (hhist : Strings g.hist)
    (hfind : ∀ pattern, Listing (g.find pattern)) (hmin : 2 ≤ g.maxlen)
    (hmax : g.maxlen ≤ prvLineSize) (hb : b.length = g.maxlen) (keys : List ℕ)
    (hok : ∀ s, firstInput g b = some s → AllAllowed g keys s) :
    ∃ s, Tracks g.maxlen (edited g keys) s ∧ readcommandEnhanced g keys b =
      some (s, if keyEnter ∈ keys then some
        (if (edited g keys).line = [] then none else some (edited g keys).line,
          (edited g keys).line) else none) := by
  obtain ⟨s₀, hs₀, h₀⟩ := firstInput_spec hhist hmin hb
  obtain ⟨s, h, hloop⟩ := h₀.loop hhist hfind hmax (hok s₀ hs₀)
  refine ⟨s, h, ?_⟩
  rw [readcommandEnhanced, hs₀, Option.bind_some, hloop, h.finish]
  rfl

/-- A line of 16 bytes, with `cd A` and then `cd` in the history, and the files `ABC` and `ABD`. -/
def cdSetting : Setting :=
  ⟨16, fun num =>
      if num = -1 then some [99, 100] else if num = -2 then some [99, 100, 32, 65] else none,
    false, fun _ => abcAbd⟩

/-- `a`, the keys Up, F3, and Tab, and `KEY_ENTER`. -/
def cdKeys : List ℕ := [97, scancode 72, scancode 61, keyTab, keyEnter]

/-- `a`, then `cd`, then `cd A`, then `cd AB`. -/
theorem readcommandEnhanced_tracks_cd : ∃ s, Tracks 16 (edited cdSetting cdKeys) s ∧
    readcommandEnhanced cdSetting cdKeys (List.replicate 16 7) =
      some (s, some (some [99, 100, 32, 65, 66], [99, 100, 32, 65, 66])) := by
  have hhist : Strings cdSetting.hist := by
    intro num p hp
    simp only [cdSetting] at hp
    split at hp
    · obtain rfl := Option.some.inj hp
      decide
    · split at hp
      · obtain rfl := Option.some.inj hp
        decide
      · exact absurd hp (by simp)
  have hfind : ∀ pattern, Listing (cdSetting.find pattern) := fun _ =>
    ⟨by simp [cdSetting, abcAbd], by simp [Plain, cdSetting, abcAbd],
      List.pairwise_pair.mpr (by decide)⟩
  have hmax : cdSetting.maxlen ≤ prvLineSize := by decide
  obtain ⟨s, h, hrun⟩ := @readcommandEnhanced_tracks (List.replicate 16 7) cdSetting hhist hfind
    (by decide) hmax rfl cdKeys (by
      intro s₀ hs₀
      obtain ⟨s, hs, h₀⟩ := @firstInput_spec (List.replicate 16 7) cdSetting hhist (by decide) rfl
      obtain rfl := Option.some.inj (hs.symm.trans hs₀)
      have hstr := @firstInput_str (List.replicate 16 7) cdSetting s rfl hs
      refine h₀.allAllowed_cons hhist hfind hmax ?_ fun s h => ?_
      · intro _ _ _
        rw [hstr, h₀.charcount]
        rfl
      refine h.allAllowed_cons hhist hfind hmax ?_ fun s h => ?_
      · intro line hline
        rw [h.flags] at hline
        obtain rfl := Option.some.inj hline
        decide
      refine h.allAllowed_cons hhist hfind hmax ?_ fun s h => ?_
      · intro saved hsaved _
        rw [hsaved.unique h.saved]
        decide
      refine h.allAllowed_cons hhist hfind hmax ?_ fun s h => ?_
      · intro _ line hline
        rw [hline.unique h.line]
        refine ⟨⟨by decide, fun hlfn => absurd hlfn Bool.false_ne_true⟩, fun _ => ?_⟩
        rw [h.flags]
        exact ⟨by decide +kernel, by decide +kernel⟩
      exact Or.inl rfl)
  exact ⟨s, h, hrun⟩

/-- A line of 128 bytes, with the line `b` in the history. -/
def oneLineSetting : Setting :=
  ⟨128, fun num => if num = -1 then some [98] else none, false, fun _ => []⟩

/-- `ax`, the key Home, and F1: the string is `bx`, and `charcount` is 1. -/
theorem f1_leaves_text :
    (readcommandEnhanced oneLineSetting [97, 120, scancode 71, scancode 59]
      (List.replicate 128 0)).map (fun r => (str r.1.str 0, r.1.charcount)) =
        some (some [98, 120], 1) := by
  decide +kernel

end Cmdinput
end Shell
end BurdahDos
