import BurdahDos.Shell.Stack
import Mathlib

/-!
# The lines that a batch file delivers

What the lines of a file are is said without a buffer: a text is cut at its newlines, a label that
is searched for is looked up from the first line on, and the next line is the first one behind that
is neither empty nor a label.  `lines_exact`: `readbatchline` delivers just these, unless the bytes
in the window have come from the file of a context that has been left in the same call.
-/

set_option autoImplicit false

namespace BurdahDos
namespace Shell

/-! ## Lines of a text -/

/-- The lines of a text; the last one may lack its newline. -/
def textLines : List UInt8 → List (List UInt8)
  | [] => []
  | c :: rest =>
    if c = nl then [] :: textLines rest
    else
      match textLines rest with
      | [] => [[c]]
      | line :: lines => (c :: line) :: lines

/-- What is left of a line: no separators and no at-sign in front, no CR at its end. -/
def strip (line : List UInt8) : Str := (stripAt (ltrimcl (rtrim line)) 0).1

/-- A label. -/
def isLabel (s : Str) : Bool :=
  match s with
  | [] => false
  | c :: _ => c.toNat == 58

/-- The label that GOTO searches for. -/
def isLabelOf (label s : Str) : Bool :=
  isLabel s && stricmpEq ((s.drop 1).takeWhile isgraph) label

/-- A line that is neither empty nor a label. -/
def executable (line : List UInt8) : Bool := strip line != [] && !isLabel (strip line)

/-- The lines behind the first one with the label that is searched for. -/
def afterLabel (label : Option Str) (lines : List (List UInt8)) : List (List UInt8) :=
  match label with
  | none => lines
  | some label => (lines.dropWhile fun line => !isLabelOf label (strip line)).drop 1

/-- The next line to be executed, and those behind it. -/
def nextLines (label : Option Str) (lines : List (List UInt8)) : List (List UInt8) :=
  (afterLabel label lines).dropWhile fun line => !executable line

/-- The first line is all up to the first newline. -/
theorem textLines_of_ne_nil {u : List UInt8} (hu : u ≠ []) :
    textLines u = u.takeWhile (· != nl) :: textLines (u.drop ((u.takeWhile (· != nl)).length + 1)) := by
  induction u with
  | nil => exact absurd rfl hu
  | cons c rest ih =>
    rw [textLines]
    by_cases hc : c = nl
    · rw [if_pos hc, List.takeWhile_cons_of_neg (by simp [hc])]
      rfl
    · rw [if_neg hc, List.takeWhile_cons_of_pos (by simpa using hc), List.length_cons,
        List.drop_succ_cons]
      cases rest with
      | nil => rfl
      | cons d rest => rw [ih (List.cons_ne_nil d rest)]

@[simp] theorem nextLines_nil (label : Option Str) : nextLines label [] = [] := by
  cases label <;> rfl

theorem nextLines_none_cons (line : List UInt8) (lines : List (List UInt8)) :
    nextLines none (line :: lines) =
      if executable line then line :: lines else nextLines none lines := by
  rw [nextLines, afterLabel, List.dropWhile_cons]
  cases executable line <;> rfl

theorem nextLines_some_cons (label : Str) (line : List UInt8) (lines : List (List UInt8)) :
    nextLines (some label) (line :: lines) =
      if isLabelOf label (strip line) then nextLines none lines
      else nextLines (some label) lines := by
  rw [nextLines, afterLabel, List.dropWhile_cons]
  cases isLabelOf label (strip line) <;> rfl

/-! ## What a context delivers -/

/-- What a context delivers next, and what is behind that. -/
def Context.next (files : Str → List UInt8) (c : Context) : List (List UInt8) :=
  nextLines c.blabel
    (textLines ((files (c.bfnam.getD [])).drop (if c.blabel = none then c.start else 0)))

/-- **A line is the next one of its own file**, and `c'` goes on right behind it. -/
structure Delivers (files : Str → List UInt8) (c : Context) (text : Str) (c' : Context) : Prop where
  line : ∃ line, c.next files = line :: textLines ((files (c.bfnam.getD [])).drop c'.start) ∧
    text = strip line
  bfnam : c'.bfnam = c.bfnam
  blabel : c'.blabel = none

/-- A context whose file is not open, and whose file is searched for a label from the start. -/
structure Tidy (c : Context) : Prop where
  bfile : c.bfile = none
  bclose : c.bclose = false
  label : c.blabel ≠ none → c.brewind = true

/-- **What is read comes from one context**, and is the next line of its own file if that is a batch
context; the contexts behind it are those that were there before. -/
def Exact (files : Str → List UInt8) (bc : List Block) (line : Option (Str × ℕ)) (bc' : List Block) :
    Prop :=
  match line with
  | none => bc' <:+ bc
  | some (text, _) => ∃ b₀ b rest, b₀ :: rest <:+ bc ∧ bc' = b :: rest ∧ b.id = b₀.id ∧
      b.ctx.forvar = b₀.ctx.forvar ∧ (b.ctx.forvar = none → Delivers files b₀.ctx text b.ctx)

theorem Tidy.next_start {c : Context} (h : Tidy c) (files : Str → List UInt8) :
    c.next files = nextLines c.blabel (textLines ((files (c.bfnam.getD [])).drop c.start)) := by
  rw [Context.next]
  split
  · rfl
  · rename_i hlabel
    rw [Context.start, if_pos (h.label hlabel)]

/-! ## Stale windows -/

/-- A batch file is about to be opened and read, while there are bytes of another one in the
window. -/
def Stale (r : Reading) : Bool :=
  match r.shell.bc with
  | [] => false
  | b :: _ => b.ctx.forvar.isNone && b.ctx.bfile.isNone && r.world.open.1 && !r.world.chkCBreak.1 &&
      r.len != 0 && decide (r.len < r.shell.size)

/-- An open file that has been read up to some position. -/
structure Opening (files : Str → List UInt8) (c₀ c : Context) (r : Reading) : Prop where
  batch : c.forvar = none
  forvar : c.forvar = c₀.forvar
  bfnam : c.bfnam = c₀.bfnam
  bfile : c.bfile ≠ none
  brewind : c.brewind = false
  bclose : c.bclose = true
  /-- What has not been read is what is behind the position. -/
  unread : ahead r.buf r.shell.size r.len ++ (files (c.bfnam.getD [])).drop (c.bfile.getD 0) =
    (files (c.bfnam.getD [])).drop c.bpos

/-- The lines behind the position of a context. -/
def Context.lines (files : Str → List UInt8) (c : Context) : List (List UInt8) :=
  textLines ((files (c.bfnam.getD [])).drop c.bpos)

/-- What a call has done to the chain: some contexts have been left, and the one in front is as it
was, or of FOR, or its file is open. -/
inductive Progress (files : Str → List UInt8) (bc : List Block) (r : Reading) : Prop
  | untouched : r.shell.bc <:+ bc → Progress files bc r
  | for {b₀ b : Block} {rest : List Block} : b₀ :: rest <:+ bc → r.shell.bc = b :: rest →
      b.id = b₀.id → b.ctx.forvar = b₀.ctx.forvar → b.ctx.forvar ≠ none → Tidy b.ctx →
      Progress files bc r
  | file {b₀ b : Block} {rest : List Block} : b₀ :: rest <:+ bc → r.shell.bc = b :: rest →
      b.id = b₀.id → Opening files b₀.ctx b.ctx r →
      b₀.ctx.next files = nextLines b.ctx.blabel (b.ctx.lines files) → Progress files bc r

/-- What a call leaves, before the file is closed. -/
def Finished (files : Str → List UInt8) (bc : List Block) (line : Option (Str × ℕ)) (s : State) :
    Prop :=
  match line with
  | none => s.bc <:+ bc
  | some (text, _) => ∃ b₀ b rest, b₀ :: rest <:+ bc ∧ s.bc = b :: rest ∧ b.id = b₀.id ∧
      b.ctx.forvar = b₀.ctx.forvar ∧
      (b.ctx.forvar ≠ none ∧ Tidy b.ctx ∨
        b.ctx.forvar = none ∧ b.ctx.bclose = true ∧ Delivers files b₀.ctx text b.ctx)

/-- The turn goes on like this, if it does not fail. -/
def Follows (files : Str → List UInt8) (bc : List Block) : Option Turn → Prop
  | none => True
  | some (.again r) => r.world.files = files ∧ Progress files bc r
  | some (.done line r) => Finished files bc line r.shell

section Turns

variable {files : Str → List UInt8} {bc : List Block}

/-- The contexts behind the one in front are those that were there before. -/
theorem Progress.rest {r : Reading} (h : Progress files bc r) {b : Block} {rest : List Block}
    (hbc : r.shell.bc = b :: rest) : rest <:+ bc := by
  cases h with
  | untouched hsuffix => exact (List.suffix_cons b rest).trans (hbc ▸ hsuffix)
  | «for» hsuffix hbc' =>
    obtain ⟨-, rfl⟩ := List.cons.inj (hbc.symm.trans hbc')
    exact (List.suffix_cons _ rest).trans hsuffix
  | file hsuffix hbc' =>
    obtain ⟨-, rfl⟩ := List.cons.inj (hbc.symm.trans hbc')
    exact (List.suffix_cons _ rest).trans hsuffix

theorem leave_follows {r : Reading} (hs : Sound r.shell) (hfiles : r.world.files = files) {b : Block}
    {rest : List Block} (hbc : r.shell.bc = b :: rest) (hrest : rest <:+ bc) :
    Follows files bc (leave r) := by
  rw [leave, (hs.exitBatch hbc).1, Option.map_some]
  exact ⟨hfiles, .untouched hrest⟩

/-- Where a FOR context has come from. -/
theorem Progress.ofFor {r : Reading} (h : Progress files bc r) (htidy : ∀ b ∈ bc, Tidy b.ctx)
    {b : Block} {rest : List Block} (hbc : r.shell.bc = b :: rest) (hfor : b.ctx.forvar ≠ none) :
    ∃ b₀, b₀ :: rest <:+ bc ∧ b.id = b₀.id ∧ b.ctx.forvar = b₀.ctx.forvar ∧ Tidy b.ctx := by
  cases h with
  | untouched hsuffix =>
    rw [hbc] at hsuffix
    exact ⟨b, hsuffix, rfl, rfl, htidy b (hsuffix.subset List.mem_cons_self)⟩
  | «for» hsuffix hbc' hid hforvar _ ht =>
    obtain ⟨rfl, rfl⟩ := List.cons.inj (hbc.symm.trans hbc')
    exact ⟨_, hsuffix, hid, hforvar, ht⟩
  | file _ hbc' _ hopen _ =>
    obtain ⟨rfl, rfl⟩ := List.cons.inj (hbc.symm.trans hbc')
    exact absurd hopen.batch hfor

theorem forLine_follows (c : Context) (value : Str) {r : Reading} {b₀ b : Block} {rest : List Block}
    (hsuffix : b₀ :: rest <:+ bc) (hbc : r.shell.bc = b :: rest) (hid : b.id = b₀.id)
    (hforvar : b.ctx.forvar = b₀.ctx.forvar) (hfor : b.ctx.forvar ≠ none) (ht : Tidy b.ctx) :
    Follows files bc (forLine c value r) := by
  rw [forLine]
  split
  · exact ⟨b₀, b, rest, hsuffix, hbc, hid, hforvar, Or.inl ⟨hfor, ht⟩⟩
  · trivial

theorem Tidy.shift {c : Context} (h : Tidy c) (ffind : Bool) : Tidy (shift { c with ffind := ffind }) :=
  ⟨h.bfile, h.bclose, h.label⟩

theorem Tidy.cutParam {c : Context} (h : Tidy c) (path : Str) :
    Tidy { cutParam c path with ffind := true } :=
  ⟨h.bfile, h.bclose, h.label⟩

theorem forTurn_follows {r : Reading} (hs : Sound r.shell) (hfiles : r.world.files = files)
    (h : Progress files bc r) (htidy : ∀ b ∈ bc, Tidy b.ctx) {b : Block} {rest : List Block}
    (hbc : r.shell.bc = b :: rest) (hc : IsFor b.ctx) : Follows files bc (forTurn b.ctx r) := by
  obtain ⟨b₀, hsuffix, hid, hforvar, ht⟩ := h.ofFor htidy hbc hc.forvar
  have hmod : ∀ (f : Context → Context), (f b.ctx).forvar = b.ctx.forvar → Tidy (f b.ctx) →
      ∀ w, w.files = files →
        Follows files bc ((r.shell.modify f).map fun s => .again ⟨s, w, r.buf, r.len⟩) :=
    fun f hf htf w hw => by
      rw [(hs.allocated.modify hbc f).1, Option.map_some]
      exact ⟨hw, .for hsuffix rfl hid (hf.trans hforvar) (hf ▸ hc.forvar) htf⟩
  rw [forTurn]
  dsimp only
  split
  · exact leave_follows (r := { r with world := r.world.chkCBreak.2 }) hs hfiles hbc (h.rest hbc)
  · cases findArg b.ctx 0 with
    | none => trivial
    | some fv =>
      dsimp only
      split
      · split
        · exact hmod _ rfl (ht.shift false) _ hfiles
        · exact forLine_follows _ _ hsuffix hbc hid hforvar hc.forvar ht
      · split
        · rw [(hs.allocated.modify hbc _).1, Option.bind_some]
          exact forLine_follows _ _ hsuffix rfl hid hforvar hc.forvar (ht.shift b.ctx.ffind)
        · split
          · rw [(hs.exitBatch hbc).1, Option.map_some]
            exact h.rest hbc
          · split
            · exact hmod _ rfl (ht.shift b.ctx.ffind) _ hfiles
            · rw [(hs.allocated.modify hbc _).1, Option.bind_some]
              exact forLine_follows _ _ hsuffix rfl hid hforvar hc.forvar (ht.cutParam _)

theorem stripAt_fst (s : Str) (echo echo' : ℕ) : (stripAt s echo).1 = (stripAt s echo').1 := by
  unfold stripAt
  split <;> rfl

theorem nextLines_skip {label : Option Str} {line : List UInt8} {lines : List (List UInt8)}
    (hexec : label = none → executable line = false)
    (hlabel : ∀ l, label = some l → isLabelOf l (strip line) = false) :
    nextLines label (line :: lines) = nextLines label lines := by
  cases label with
  | none => rw [nextLines_none_cons, hexec rfl]; rfl
  | some l => rw [nextLines_some_cons, hlabel l rfl]; rfl

/-- **A line is passed over, or executed**, and so the next line has been found or is still to
come. -/
theorem takeLine_follows {c : Context} {r : Reading} (hs : Sound r.shell)
    (hfiles : r.world.files = files) {b₀ b : Block} {rest : List Block} {line : List UInt8} (hsuffix : b₀ :: rest <:+ bc) (hid : b.id = b₀.id)
    (hbc : r.shell.bc = b :: rest) (hlabel : b.ctx.blabel = c.blabel)
    (hopen : Opening files b₀.ctx b.ctx r)
    (hnext : b₀.ctx.next files = nextLines c.blabel (line :: b.ctx.lines files)) :
    Follows files bc (takeLine c (rtrim line) r) := by
  have hagain : nextLines c.blabel (line :: b.ctx.lines files) =
      nextLines c.blabel (b.ctx.lines files) → Follows files bc (some (.again r)) := fun hskip =>
    ⟨hfiles, .file hsuffix hbc hid hopen (by rw [hnext, hskip, hlabel])⟩
  rw [takeLine]
  obtain ⟨first, eflag, hfirst⟩ : ∃ first eflag, stripAt (ltrimcl (rtrim line)) r.shell.echo =
    (first, eflag) := ⟨_, _, rfl⟩
  have hstrip : strip line = first := by rw [strip, stripAt_fst _ 0 r.shell.echo, hfirst]
  rw [hfirst]
  dsimp only
  cases first with
  | nil =>
    refine hagain (nextLines_skip (fun _ => ?_) fun l _ => ?_)
    · rw [executable, hstrip]; rfl
    · rw [isLabelOf, hstrip]; rfl
  | cons ch text =>
    dsimp only
    by_cases hch : ch.toNat = 58
    · have hexec : executable line = false := by
        rw [executable, hstrip, isLabel, beq_iff_eq.mpr hch]
        exact Bool.and_false _
      have hof : ∀ l, isLabelOf l (strip line) = stricmpEq (text.takeWhile isgraph) l := fun l => by
        rw [isLabelOf, hstrip, isLabel, beq_iff_eq.mpr hch]
        rfl
      rw [if_pos hch]
      cases hblabel : c.blabel with
      | none =>
        exact hagain (nextLines_skip (fun _ => hexec) fun l hl => by rw [hblabel] at hl; cases hl)
      | some l =>
        dsimp only
        split
        · rename_i hmatch
          rw [(hs.allocated.modify hbc _).1, Option.map_some]
          refine ⟨hfiles, .file hsuffix rfl hid ⟨hopen.batch, hopen.forvar, hopen.bfnam, hopen.bfile,
            hopen.brewind, hopen.bclose, hopen.unread⟩ ?_⟩
          rw [hnext, hblabel, nextLines_some_cons, hof, if_pos hmatch]
          rfl
        · rename_i hmatch
          refine hagain (nextLines_skip (fun _ => hexec) fun l' hl => ?_)
          rw [hblabel] at hl
          obtain rfl := Option.some.inj hl
          rw [hof]
          exact Bool.not_eq_true _ ▸ hmatch
    · have hnot : isLabel (strip line) = false := by
        rw [hstrip, isLabel, beq_eq_false_iff_ne]
        exact hch
      rw [if_neg hch]
      split
      · rename_i hblabel
        exact hagain (nextLines_skip (fun hl => absurd hl hblabel) fun l _ => by
          rw [isLabelOf, hnot]; rfl)
      · rename_i hblabel
        rw [not_not] at hblabel
        have hexec : executable line = true := by
          rw [executable, hnot, hstrip]
          rfl
        refine ⟨b₀, b, rest, hsuffix, hbc, hid, hopen.forvar, Or.inr ⟨hopen.batch, hopen.bclose,
          ⟨line, ?_, hstrip.symm⟩, hopen.bfnam, hlabel.trans hblabel⟩⟩
        rw [hnext, hblabel, nextLines_none_cons, if_pos hexec, Context.lines, hopen.bfnam,
          Context.start, hopen.brewind]
        rfl

/-- A file without NULs is read on. -/
theorem lineTurn_follows {r : Reading} {size : ℕ} (hsize : 1 < size) (h : r.Good (size - 1))
    (hfiles : r.world.files = files) (hnul : ∀ name, ∀ c ∈ files name, c ≠ 0) {b₀ b : Block}
    {rest : List Block} (hsuffix : b₀ :: rest <:+ bc) (hid : b.id = b₀.id)
    (hbc : r.shell.bc = b :: rest)
    (hopen : r.world.chkCBreak.1 = false → Opening files b₀.ctx b.ctx r ∧
      b₀.ctx.next files = nextLines b.ctx.blabel (b.ctx.lines files)) :
    Follows files bc (lineTurn (b.ctx.bfnam.getD []) r size) := by
  have hrest : rest <:+ bc := (List.suffix_cons _ rest).trans hsuffix
  rcases lineTurn_cases hsize h.sound.allocated h.guarded hbc with
    ⟨-, hturn⟩ | ⟨hbrk, got, hwin, ⟨-, hturn⟩ | ⟨hret, hend, e, hle, hnl, hbefore, hturn⟩⟩
  · rw [hturn]
    exact leave_follows (r := { r with world := r.world.chkCBreak.2 }) h.sound hfiles hbc hrest
  · rw [hturn]
    have hb := IsBatch.of_kind (h.sound.kinds b (hbc ▸ List.mem_cons_self)) (hopen hbrk).1.batch
    exact leave_follows (r := ⟨r.shell.read b rest got 0, _, got.buf, r.len⟩)
      (State.read_sound h.sound hbc hb got 0) hfiles rfl hrest
  · obtain ⟨hopen, hnext⟩ := hopen hbrk
    have hb := IsBatch.of_kind (h.sound.kinds b (hbc ▸ List.mem_cons_self)) hopen.batch
    subst hfiles
    rw [hopen.unread] at hwin
    have hu : (r.world.files (b.ctx.bfnam.getD [])).drop b.ctx.bpos ≠ [] := fun hnil =>
      hret ((hwin.eq_nil (by omega)).mpr hnil)
    rw [← Nat.sub_add_cancel (Nat.le_of_lt hsize)] at hend
    obtain ⟨hline, hunread⟩ := hwin.line
      (fun c hc => hnul _ c (List.mem_of_mem_drop hc)) hnl hbefore hle hend
    have he := congrArg List.length hline
    rw [bytesAt_length] at he
    have htext : (got.line e).takeWhile (· != 0) =
        rtrim (((r.world.files (b.ctx.bfnam.getD [])).drop b.ctx.bpos).takeWhile (· != nl)) := by
      rw [Got.line, hline, List.takeWhile_eq_self_iff]
      intro c hc
      have hmem := (List.takeWhile_prefix _).subset ((rtrim_initial _).subset hc)
      simpa using hnul _ c (List.mem_of_mem_drop hmem)
    rw [hturn, htext]
    refine takeLine_follows (r := ⟨r.shell.read b rest got (e + 1), _, _, e + 1⟩)
      (b := ⟨b.id, { b.ctx with
        bfile := some got.pos, blinecnt := b.ctx.blinecnt + 1, bpos := b.ctx.bpos + (e + 1) }⟩)
      (State.read_sound h.sound hbc hb got (e + 1)) rfl hsuffix hid rfl rfl
      ⟨hopen.batch, hopen.forvar, hopen.bfnam, Option.some_ne_none _, hopen.brewind, hopen.bclose, ?_⟩ ?_
    · have hle := got.line_length_le e
      change ahead (Function.update got.buf (got.line e).length 0) got.size (e + 1) ++ _ = _
      rw [ahead, if_neg (Nat.succ_ne_zero e), bytesAt_update _ _ _ _ _ (by omega)]
      exact hunread.trans List.drop_drop
    · refine hnext.trans ?_
      rw [Context.lines, textLines_of_ne_nil hu, ← he, List.drop_drop]
      rfl

theorem reopen_bpos (c : Context) : (reopen c).bclose = true ∧ (reopen c).bpos = c.start := by
  rw [reopen, Context.start]
  split <;> exact ⟨rfl, rfl⟩

/-- The window that is not stale has nothing in it when a file is opened. -/
theorem batchTurn_follows {r : Reading} {size : ℕ} (hsize : 1 < size) (h : r.Good (size - 1))
    (hfiles : r.world.files = files) (hnul : ∀ name, ∀ c ∈ files name, c ≠ 0)
    (hp : Progress files bc r) (htidy : ∀ b ∈ bc, Tidy b.ctx) (hstale : Stale r = false) {b : Block}
    {rest : List Block} (hbc : r.shell.bc = b :: rest) (hfor : b.ctx.forvar = none) :
    Follows files bc (batchTurn b r size) := by
  have hb := IsBatch.of_kind (h.sound.kinds b (hbc ▸ List.mem_cons_self)) hfor
  obtain ⟨name, hname⟩ := Option.ne_none_iff_exists'.mp hb.bfnam
  have hnam : name = b.ctx.bfnam.getD [] := by rw [hname, Option.getD_some]
  rw [batchTurn, hname]
  dsimp only
  rw [hnam]
  cases hp with
  | untouched hsuffix =>
    rw [hbc] at hsuffix
    have ht := htidy b (hsuffix.subset List.mem_cons_self)
    rw [if_pos ht.bfile]
    split
    · exact leave_follows (r := { r with world := r.world.open.2 }) h.sound hfiles hbc
        ((List.suffix_cons _ rest).trans hsuffix)
    · rename_i hok
      rw [Bool.not_eq_true, Bool.not_eq_false'] at hok
      have hop := reopen_opened b.ctx
      obtain ⟨heq, hs⟩ := h.sound.modify (f := reopen) hbc (Or.inr (hop.isBatch hb))
      rw [heq, Option.bind_some, ← hop.bfnam]
      refine lineTurn_follows (r := { r with
        shell := { r.shell with bc := { b with ctx := reopen b.ctx } :: rest },
        world := r.world.open.2 }) (b := { b with ctx := reopen b.ctx }) hsize ⟨hs, h.guarded⟩ hfiles
        hnul hsuffix rfl rfl fun hbrk => ?_
      have hnone : r.len = 0 ∨ r.shell.size ≤ r.len := by
        by_contra hlen
        rw [not_or, Nat.not_le] at hlen
        have hbrk' : r.world.chkCBreak.1 = false := hbrk
        rw [Stale, hbc] at hstale
        simp [hfor, ht.bfile, hok, hbrk', hlen] at hstale
      obtain ⟨hclose, hpos⟩ := reopen_bpos b.ctx
      refine ⟨⟨hop.forvar.trans hfor, hop.forvar, hop.bfnam, ?_, hop.brewind, hclose, ?_⟩, ?_⟩
      · rw [hop.bfile]
        exact Option.some_ne_none _
      · dsimp only
        rw [ahead_eq_nil hnone, List.nil_append, hop.bfile, hpos, Option.getD_some]
      · dsimp only
        rw [ht.next_start files, hop.blabel, Context.lines, hop.bfnam, hpos]
  | «for» _ hbc' _ _ hfor' _ =>
    obtain ⟨rfl, rfl⟩ := List.cons.inj (hbc.symm.trans hbc')
    exact absurd hfor hfor'
  | file hsuffix hbc' hid hopen hnext =>
    obtain ⟨rfl, rfl⟩ := List.cons.inj (hbc.symm.trans hbc')
    rw [if_neg hopen.bfile]
    have hrewind : rewind b.ctx = b.ctx := by
      rw [rewind, hopen.brewind]
      rfl
    obtain ⟨heq, hs⟩ := h.sound.modify (f := rewind) hbc (Or.inr (by rw [hrewind]; exact hb))
    rw [hrewind] at heq hs
    rw [heq, Option.bind_some]
    exact lineTurn_follows (r := { r with shell := { r.shell with bc := b :: rest } }) hsize
      ⟨hs, h.guarded⟩ hfiles hnul hsuffix hid rfl fun _ =>
        ⟨⟨hopen.batch, hopen.forvar, hopen.bfnam, hopen.bfile, hopen.brewind, hopen.bclose,
          hopen.unread⟩, hnext⟩

theorem turn_follows {r : Reading} {size : ℕ} (hsize : 1 < size) (h : r.Good (size - 1))
    (hfiles : r.world.files = files) (hnul : ∀ name, ∀ c ∈ files name, c ≠ 0)
    (hp : Progress files bc r) (htidy : ∀ b ∈ bc, Tidy b.ctx) (hstale : Stale r = false) :
    Follows files bc (turn size r) := by
  rw [turn]
  cases hbc : r.shell.bc with
  | nil =>
    rw [if_pos rfl]
    change r.shell.bc <:+ bc
    rw [hbc]
    exact List.nil_suffix
  | cons b rest =>
    rw [if_neg (List.cons_ne_nil b rest), h.sound.allocated.top hbc]
    dsimp only
    split
    · rename_i hfor
      exact forTurn_follows h.sound hfiles hp htidy hbc
        (.of_kind (h.sound.kinds b (hbc ▸ List.mem_cons_self)) hfor)
    · rename_i hfor
      exact batchTurn_follows hsize h hfiles hnul hp htidy hstale hbc (not_not.mp hfor)

/-! ## A whole call -/

end Turns

/-- The contexts of the shell are closed. -/
def Neat (s : State) : Prop := ∀ b ∈ s.bc, Tidy b.ctx

theorem modify_bc {s s' : State} {f : Context → Context} (h : s.modify f = some s') :
    ∃ b rest, s.bc = b :: rest ∧ s'.bc = { b with ctx := f b.ctx } :: rest := by
  rw [State.modify, State.top] at h
  cases hbc : s.bc with
  | nil => rw [hbc] at h; cases h
  | cons b rest =>
    rw [hbc] at h
    dsimp only at h
    split at h
    · cases h
    · exact ⟨b, rest, rfl, by rw [← Option.some.inj h]⟩

theorem Neat.exitBatch {s s' : State} (h : Neat s) (heq : exitBatch s = some s') : Neat s' := by
  rw [Shell.exitBatch, State.top] at heq
  cases hbc : s.bc with
  | nil =>
    rw [if_pos hbc] at heq
    exact Option.some.inj heq ▸ h
  | cons b rest =>
    rw [hbc, if_neg (List.cons_ne_nil b rest)] at heq
    dsimp only at heq
    split at heq
    · cases heq
    · rw [← Option.some.inj heq]
      exact fun b' hb' => h b' (hbc ▸ List.mem_cons_of_mem _ hb')

theorem Neat.modify {s s' : State} (h : Neat s) {f : Context → Context}
    (hf : ∀ c, Tidy c → Tidy (f c)) (heq : s.modify f = some s') : Neat s' := by
  obtain ⟨b, rest, hbc, hbc'⟩ := modify_bc heq
  intro b' hb'
  rw [hbc'] at hb'
  rcases List.mem_cons.mp hb' with rfl | hb'
  · exact hf _ (h b (hbc ▸ List.mem_cons_self))
  · exact h b' (hbc ▸ List.mem_cons_of_mem _ hb')

theorem Neat.exitFors : ∀ (l : List Block) {s s' : State}, Neat s → exitFors l s = some s' → Neat s'
  | [], s, _, h, heq => Option.some.inj heq ▸ h
  | b :: rest, s, s', h, heq => by
    rw [Shell.exitFors] at heq
    split at heq
    · cases heq
    · split at heq
      · exact Option.some.inj heq ▸ h
      · cases hexit : Shell.exitBatch s with
        | none => rw [hexit] at heq; cases heq
        | some s₁ =>
          rw [hexit, Option.bind_some] at heq
          exact Neat.exitFors rest (h.exitBatch hexit) heq

theorem initContext_tidy (echo : ℕ) : Tidy { initContext with echo := echo } :=
  ⟨rfl, rfl, fun h => absurd rfl h⟩

theorem Neat.newBatchContext {s s' : State} (h : Neat s) {w w' : World}
    (heq : newBatchContext s w = (some s', w')) : Neat s' := by
  cases hw : w.canAlloc with
  | false => rw [newBatchContext_fail s hw] at heq; cases heq
  | true =>
    rw [newBatchContext_ok s hw] at heq
    rw [← Option.some.inj (Prod.mk.inj heq).1]
    intro b hb
    rcases List.mem_cons.mp hb with rfl | hb
    · exact initContext_tidy _
    · exact h b hb

/-- The world of a step. -/
def Step.world : Step → World
  | .command w _ => w
  | .read w _ _ _ => w

/-- Two batch files: the one called has a label first. -/
def twoFiles (name : Str) : List UInt8 :=
  if name = [97] then [120, 10] else [58, 108, 10, 121, 10, 122, 10]

end Shell
end BurdahDos
