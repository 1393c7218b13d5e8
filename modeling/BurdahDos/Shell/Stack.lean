import BurdahDos.Shell.Contexts
import BurdahDos.Shell.Window
import Mathlib

/-!
# Reading keeps the chain of contexts

A turn of the loop of `readbatchline` ends the call, or uses something up: bytes of the window and
of the batch files, parameters of FOR commands, or a context.  So enough turns give a result, and
with the commands of `Shell.Contexts` the chain of contexts is well formed all along a run.
-/

set_option autoImplicit false

namespace BurdahDos
namespace Shell

/-! ## What is left to read -/

/-- How many turns a context is good for. -/
def Context.weight (files : Str → List UInt8) (c : Context) : ℕ :=
  if c.forvar ≠ none then (c.numParams + 1 - c.shiftlevel).toNat + 1
  else
    let data := files (c.bfnam.getD [])
    if c.brewind ∨ c.bfile = none then data.length + 1 else data.length - c.bfile.getD 0 + 1

/-- How many turns the chain is good for. -/
def turnsLeft (files : Str → List UInt8) (bc : List Block) : ℕ :=
  (bc.map fun b => b.ctx.weight files).sum

/-- How many turns there may be before the loop ends. -/
def Reading.left (r : Reading) : ℕ :=
  (ahead r.buf r.shell.size r.len).length + turnsLeft r.world.files r.shell.bc

/-- What holds between two turns. -/
structure Reading.Good (r : Reading) (bufsize : ℕ) : Prop where
  sound : Sound r.shell
  guarded : Guarded r.buf r.shell.size r.len bufsize

/-- The loop goes on with less than `n` turns left, or ends. -/
def Continues (bufsize n : ℕ) (t : Option Turn) : Prop :=
  (∃ r, t = some (.again r) ∧ r.Good bufsize ∧ r.left < n) ∨
    ∃ line r, t = some (.done line r) ∧ Sound r.shell

theorem Context.weight_pos (files : Str → List UInt8) (c : Context) : 0 < c.weight files := by
  rw [Context.weight]
  dsimp only
  split_ifs <;> exact Nat.succ_pos _

theorem turnsLeft_cons (files : Str → List UInt8) (b : Block) (rest : List Block) :
    turnsLeft files (b :: rest) = b.ctx.weight files + turnsLeft files rest :=
  List.sum_cons

variable {bufsize n : ℕ}

/-- A context is left. -/
theorem leave_continues {r : Reading} (h : r.Good bufsize) {b : Block} {rest : List Block}
    (hbc : r.shell.bc = b :: rest) (hn : r.left ≤ n) : Continues bufsize n (leave r) := by
  obtain ⟨heq, hs⟩ := h.sound.exitBatch hbc
  rw [leave, heq, Option.map_some]
  refine Or.inl ⟨_, rfl, ⟨hs, h.guarded⟩, ?_⟩
  have hpos := b.ctx.weight_pos r.world.files
  rw [Reading.left, hbc, turnsLeft_cons] at hn
  rw [Reading.left]
  dsimp only
  omega

/-! ## FOR contexts -/

theorem IsFor.findArg {c : Context} (h : IsFor c) (hle : c.shiftlevel ≤ c.numParams) :
    ∃ fv, findArg c 0 = some fv := by
  have hpos := h.shiftlevel
  rw [Shell.findArg, Int.zero_add, if_neg (by omega), if_neg (by omega)]
  have hlt : (c.shiftlevel - 1).toNat < (c.params.getD []).length := by
    rw [Context.numParams] at hle
    omega
  exact ⟨_, List.getElem?_eq_getElem hlt⟩

/-- A FOR command gives its line. -/
theorem forLine_continues {c : Context} (hc : IsFor c) (value : Str) {r : Reading}
    (hs : Sound r.shell) : Continues bufsize n (forLine c value r) := by
  obtain ⟨proto, hproto⟩ := Option.ne_none_iff_exists'.mp hc.forproto
  obtain ⟨forvar, hforvar⟩ := Option.ne_none_iff_exists'.mp hc.forvar
  rw [forLine, hproto, hforvar]
  exact Or.inr ⟨_, r, rfl, hs⟩

theorem IsFor.shift {c : Context} (h : IsFor c) : IsFor (shift c) :=
  ⟨h.forvar, h.forproto, h.params, Int.lt_add_one_of_le (Int.le_of_lt h.shiftlevel)⟩

theorem IsFor.ffind {c : Context} (h : IsFor c) (ffind : Bool) : IsFor { c with ffind := ffind } :=
  ⟨h.forvar, h.forproto, h.params, h.shiftlevel⟩

theorem IsFor.cutParam {c : Context} (h : IsFor c) (path : Str) : IsFor (cutParam c path) :=
  ⟨h.forvar, h.forproto, by rw [Shell.cutParam, Ne, Option.map_eq_none_iff]; exact h.params,
    h.shiftlevel⟩

/-- The next parameter is taken up. -/
theorem IsFor.weight_shift {c : Context} (h : IsFor c) (hle : c.shiftlevel ≤ c.numParams)
    (ffind : Bool) (files : Str → List UInt8) :
    (Shell.shift { c with ffind := ffind }).weight files < c.weight files := by
  rw [Context.weight, Context.weight, if_pos h.forvar]
  change (if c.forvar ≠ none then (c.numParams + 1 - (c.shiftlevel + 1)).toNat + 1 else _) < _
  rw [if_pos h.forvar]
  omega

/-- The loop goes on with the next parameter. -/
theorem shift_continues {r : Reading} (h : r.Good bufsize) {b : Block} {rest : List Block}
    (hbc : r.shell.bc = b :: rest) (hc : IsFor b.ctx) (hle : b.ctx.shiftlevel ≤ b.ctx.numParams)
    {f : Context → Context} (hf : ∃ ffind, f b.ctx = shift { b.ctx with ffind := ffind }) (w : World)
    (hw : w.files = r.world.files) (hn : r.left ≤ n) :
    Continues bufsize n ((r.shell.modify f).map fun s => .again ⟨s, w, r.buf, r.len⟩) := by
  obtain ⟨ffind, hf⟩ := hf
  obtain ⟨heq, hs⟩ := h.sound.modify (f := f) hbc (Or.inl (hf ▸ (hc.ffind ffind).shift))
  rw [heq, Option.map_some]
  refine Or.inl ⟨_, rfl, ⟨hs, h.guarded⟩, ?_⟩
  have hless : (f b.ctx).weight r.world.files < _ := hf ▸ hc.weight_shift hle ffind r.world.files
  rw [Reading.left, hbc, turnsLeft_cons] at hn
  rw [Reading.left]
  dsimp only
  rw [turnsLeft_cons, hw]
  dsimp only
  omega

theorem forTurn_continues {r : Reading} (h : r.Good bufsize) {b : Block} {rest : List Block}
    (hbc : r.shell.bc = b :: rest) (hc : IsFor b.ctx) (hn : r.left ≤ n) :
    Continues bufsize n (forTurn b.ctx r) := by
  rw [forTurn]
  dsimp only
  split
  · exact leave_continues (r := { r with world := r.world.chkCBreak.2 }) ⟨h.sound, h.guarded⟩ hbc hn
  · rename_i hgo
    rw [not_or, not_lt] at hgo
    obtain ⟨fv, hfv⟩ := hc.findArg hgo.2
    rw [hfv]
    dsimp only
    split
    · split
      · exact shift_continues h hbc hc hgo.2 ⟨false, rfl⟩ _ rfl hn
      · exact forLine_continues hc _ h.sound
    · split
      · obtain ⟨heq, hs⟩ := h.sound.modify hbc (Or.inl hc.shift)
        rw [heq]
        exact forLine_continues hc _ hs
      · split
        · obtain ⟨heq, hs⟩ := h.sound.exitBatch hbc
          rw [heq]
          exact Or.inr ⟨none, _, rfl, hs⟩
        · split
          · exact shift_continues h hbc hc hgo.2 ⟨b.ctx.ffind, rfl⟩ _ rfl hn
          · obtain ⟨heq, hs⟩ := h.sound.modify
              (f := fun c => { cutParam c (dirPart fv) with ffind := true }) hbc
              (Or.inl ((hc.cutParam _).ffind true))
            rw [heq]
            exact forLine_continues hc _ hs

/-! ## Batch contexts -/

/-- The shell with a batch context at `bc` from whose file the window has been filled, and whose
position is `n` bytes on. -/
def State.read (s : State) (b : Block) (rest : List Block) (got : Got) (n : ℕ) : State :=
  { s with
    bc := ⟨b.id, { b.ctx with
      bfile := some got.pos, blinecnt := b.ctx.blinecnt + 1, bpos := b.ctx.bpos + n }⟩ :: rest
    size := got.size }

/-- A line that is cut out of the buffer. -/
def Got.line (got : Got) (e : ℕ) : List UInt8 := rtrim (bytesAt got.buf 0 e)

theorem rtrim_initial (s : List UInt8) : rtrim s <+: s := List.rdropWhile_prefix _ _

/-- The string at the start of the buffer, once a NUL has been put behind the line. -/
theorem strAt_line (got : Got) (e : ℕ) :
    strAt (Function.update got.buf (got.line e).length 0) (got.line e).length =
      (got.line e).takeWhile (· != 0) := by
  have hpre : got.line e <+: bytesAt got.buf 0 e := rtrim_initial _
  have hle := hpre.length_le
  rw [bytesAt_length] at hle
  rw [strAt, map_range_eq_bytesAt, bytesAt_update _ _ _ _ _ (by omega)]
  refine congrArg _ (List.ext_getElem (bytesAt_length _ _ _) fun i hi hi' => ?_)
  rw [bytesAt_getElem, hpre.getElem, bytesAt_getElem]

/-- **A turn with an open batch file**: the context is left because of a break, at the end of the
file or at a line that is too long; or there is a line. -/
theorem lineTurn_cases {name : Str} {r : Reading} {size : ℕ} (hsize : 1 < size)
    (h : Allocated r.shell) (hg : Guarded r.buf r.shell.size r.len (size - 1)) {b : Block}
    {rest : List Block} (hbc : r.shell.bc = b :: rest) :
    (r.world.chkCBreak.1 = true ∧ lineTurn name r size = leave { r with world := r.world.chkCBreak.2 }) ∨
    r.world.chkCBreak.1 = false ∧
      ∃ got, Window (r.world.files name) (ahead r.buf r.shell.size r.len ++
        (r.world.files name).drop (b.ctx.bfile.getD 0)) (size - 1) got ∧
      ((got.ret = 0 ∨ textlineEnd got.buf size = none) ∧
        lineTurn name r size =
          leave ⟨r.shell.read b rest got 0, r.world.chkCBreak.2, got.buf, r.len⟩ ∨
      got.ret ≠ 0 ∧ (textlineEnd got.buf size).isSome ∧
        ∃ e, e ≤ got.size ∧ got.buf e = nl ∧ (∀ i < e, got.buf i ≠ nl) ∧
        lineTurn name r size = takeLine b.ctx ((got.line e).takeWhile (· != 0))
          ⟨r.shell.read b rest got (e + 1), r.world.chkCBreak.2,
            Function.update got.buf (got.line e).length 0, e + 1⟩) := by
  rw [lineTurn, h.top hbc]
  dsimp only
  cases hbrk : r.world.chkCBreak.1 with
  | true => exact Or.inl ⟨rfl, if_pos rfl⟩
  | false =>
    rw [if_neg Bool.false_ne_true]
    obtain ⟨got, hgot⟩ : ∃ got, getbline (r.world.chkCBreak.2.files name) (b.ctx.bfile.getD 0) r.buf
      r.shell.size r.len (size - 1) = got := ⟨_, rfl⟩
    have hwin := hgot ▸ getbline_window (r.world.files name) (b.ctx.bfile.getD 0) (by omega) hg
    refine Or.inr ⟨rfl, got, hwin, ?_⟩
    obtain ⟨heq, halloc⟩ := h.modify hbc fun c => { c with
      bfile := some got.pos, blinecnt := c.blinecnt + 1 }
    rw [hgot, heq]
    dsimp only
    by_cases hret : got.ret = 0
    · rw [if_pos hret]
      exact Or.inl ⟨Or.inl hret, rfl⟩
    · rw [if_neg hret]
      cases hend : textlineEnd got.buf size with
      | none => exact Or.inl ⟨Or.inr rfl, rfl⟩
      | some i =>
        obtain ⟨e, he, hle, hnl, hbefore⟩ := hwin.memchrNl
        rw [Nat.sub_add_cancel (Nat.le_of_lt hsize)] at he
        refine Or.inr ⟨hret, rfl, e, hle, hnl, hbefore, ?_⟩
        rw [he]
        dsimp only
        rw [map_range_eq_bytesAt]
        have hmod := (Allocated.modify (s := { r.shell with
          bc := { b with ctx := { b.ctx with bfile := some got.pos, blinecnt := b.ctx.blinecnt + 1 } } ::
            rest, size := got.size }) ⟨halloc.nodup, halloc.live, halloc.fresh, halloc.old⟩ rfl
          fun c => { c with bpos := c.bpos + (e + 1) }).1
        rw [hmod, Option.bind_some, ← strAt_line]
        rfl

/-- A context stays one of a batch file as long as the strings are left alone. -/
theorem IsBatch.congr {c c' : Context} (h : IsBatch c) (hfor : c'.forvar = c.forvar)
    (hnam : c'.bfnam = c.bfnam) (hfirst : c'.bfirst = c.bfirst) (hparams : c'.params = c.params) :
    IsBatch c' :=
  ⟨hfor ▸ h.forvar, hnam ▸ h.bfnam, hfirst ▸ h.bfirst, hparams ▸ h.params⟩

/-- A line is passed over, or executed. -/
theorem takeLine_continues (c : Context) (line : Str) {r : Reading} (h : r.Good bufsize) {b : Block}
    {rest : List Block} (hbc : r.shell.bc = b :: rest) (hb : IsBatch b.ctx) (hn : r.left < n) :
    Continues bufsize n (takeLine c line r) := by
  have hagain : Continues bufsize n (some (.again r)) := Or.inl ⟨r, rfl, h, hn⟩
  rw [takeLine]
  dsimp only
  split
  · exact hagain
  · split
    · split
      · exact hagain
      · split
        · obtain ⟨heq, hs⟩ := h.sound.modify (f := fun c => { c with blabel := none }) hbc
            (Or.inr (hb.congr rfl rfl rfl rfl))
          rw [heq, Option.map_some]
          refine Or.inl ⟨_, rfl, ⟨hs, h.guarded⟩, ?_⟩
          rw [Reading.left, hbc, turnsLeft_cons] at hn
          exact hn
        · exact hagain
    · split
      · exact hagain
      · exact Or.inr ⟨_, r, rfl, h.sound⟩

theorem Context.weight_open {files : Str → List UInt8} {c : Context} (hfor : c.forvar = none)
    (hrewind : c.brewind = false) {pos : ℕ} (hpos : c.bfile = some pos) :
    c.weight files = ((files (c.bfnam.getD [])).drop pos).length + 1 := by
  rw [Context.weight, if_neg (not_not.mpr hfor), hrewind, hpos]
  dsimp only
  rw [if_neg (by simp), Option.getD_some, List.length_drop]

theorem State.read_sound {s : State} (h : Sound s) {b : Block} {rest : List Block}
    (hbc : s.bc = b :: rest) (hb : IsBatch b.ctx) (got : Got) (n : ℕ) : Sound (s.read b rest got n) := by
  obtain ⟨-, hs⟩ := h.modify (f := fun c => { c with
    bfile := some got.pos, blinecnt := c.blinecnt + 1, bpos := c.bpos + n }) hbc
    (Or.inr (hb.congr rfl rfl rfl rfl))
  exact ⟨⟨hs.allocated.nodup, hs.allocated.live, hs.allocated.fresh, hs.allocated.old⟩, hs.kinds⟩

theorem Got.line_length_le (got : Got) (e : ℕ) : (got.line e).length ≤ e :=
  (rtrim_initial _).length_le.trans (bytesAt_length _ _ _).le

/-- The newline behind the window is not touched when a line is cut out in front of it. -/
theorem Window.guarded {data u : List UInt8} {got : Got} (h : Window data u bufsize got) (e : ℕ) :
    Guarded (Function.update got.buf (got.line e).length 0) got.size (e + 1) bufsize := by
  have hle := got.line_length_le e
  rcases Nat.lt_or_ge (e + 1) got.size with hlt | hge
  · exact Or.inr (Or.inr ⟨by rw [Function.update_of_ne (by omega)]; exact h.guard, h.size_le⟩)
  · exact Or.inr (Or.inl hge)

/-- What is left when the window has been filled, with a position in it. -/
theorem Reading.left_read (s : State) {b : Block} (rest : List Block) (got : Got) (k : ℕ) (w : World)
    (buf : Buf) (len : ℕ) (hfor : b.ctx.forvar = none) (hrewind : b.ctx.brewind = false) :
    Reading.left ⟨s.read b rest got k, w, buf, len⟩ = (ahead buf got.size len).length +
      (((w.files (b.ctx.bfnam.getD [])).drop got.pos).length + 1 + turnsLeft w.files rest) := by
  rw [Reading.left, State.read]
  dsimp only
  rw [turnsLeft_cons, Context.weight_open (by exact hfor) (by exact hrewind) rfl]

theorem lineTurn_continues {r : Reading} {size : ℕ} (hsize : 1 < size) (h : r.Good (size - 1))
    {b : Block} {rest : List Block} (hbc : r.shell.bc = b :: rest) (hb : IsBatch b.ctx)
    (hrewind : b.ctx.brewind = false) {pos : ℕ} (hpos : b.ctx.bfile = some pos) (hn : r.left ≤ n) :
    Continues (size - 1) n (lineTurn (b.ctx.bfnam.getD []) r size) := by
  have hleft : r.left = (ahead r.buf r.shell.size r.len).length +
      (((r.world.files (b.ctx.bfnam.getD [])).drop pos).length + 1 + turnsLeft r.world.files rest) := by
    rw [Reading.left, hbc, turnsLeft_cons, Context.weight_open hb.forvar hrewind hpos]
  rcases lineTurn_cases hsize h.sound.allocated h.guarded hbc with
    ⟨-, hturn⟩ | ⟨-, got, hwin, ⟨-, hturn⟩ | ⟨hret, -, e, hle, hnl, -, hturn⟩⟩
  · rw [hturn]
    exact leave_continues (r := { r with world := r.world.chkCBreak.2 }) ⟨h.sound, h.guarded⟩ hbc hn
  · rw [hturn]
    refine leave_continues (r := ⟨r.shell.read b rest got 0, _, got.buf, r.len⟩)
      ⟨State.read_sound h.sound hbc hb got 0, Or.inr (Or.inr ⟨hwin.guard, hwin.size_le⟩)⟩ rfl ?_
    have hlen := hwin.length_unread
    have hahead := ahead_length_le got.buf got.size r.len
    rw [List.length_append, hpos, Option.getD_some] at hlen
    rw [Reading.left_read _ _ _ _ _ _ _ hb.forvar hrewind]
    change _ + (((r.world.files _).drop _).length + 1 + turnsLeft r.world.files _) ≤ n
    omega
  · rw [hturn]
    refine takeLine_continues _ _ (r := ⟨r.shell.read b rest got (e + 1), _, _, e + 1⟩)
      ⟨State.read_sound h.sound hbc hb got (e + 1), hwin.guarded e⟩ rfl
      (hb.congr rfl rfl rfl rfl) ?_
    have hlen := hwin.length_unread
    have hahead := ahead_length_le (Function.update got.buf (got.line e).length 0) got.size (e + 1)
    rw [List.length_append, hpos, Option.getD_some] at hlen
    rw [hwin.ret] at hret
    rw [Reading.left_read _ _ _ _ _ _ _ hb.forvar hrewind]
    change _ + (((r.world.files _).drop _).length + 1 + turnsLeft r.world.files _) < n
    omega

/-- Where a context goes on reading its file. -/
def Context.start (c : Context) : ℕ := if c.brewind then 0 else c.bpos

/-- What `c'` has in common with `c`, once its file is open at `pos`. -/
structure Opened (c c' : Context) (pos : ℕ) : Prop where
  forvar : c'.forvar = c.forvar
  bfnam : c'.bfnam = c.bfnam
  bfirst : c'.bfirst = c.bfirst
  params : c'.params = c.params
  blabel : c'.blabel = c.blabel
  bfile : c'.bfile = some pos
  brewind : c'.brewind = false

theorem Opened.isBatch {c c' : Context} {pos : ℕ} (h : Opened c c' pos) (hc : IsBatch c) : IsBatch c' :=
  hc.congr h.forvar h.bfnam h.bfirst h.params

theorem reopen_opened (c : Context) : Opened c (reopen c) c.start := by
  rw [reopen, Context.start]
  cases hrewind : c.brewind with
  | true => exact ⟨rfl, rfl, rfl, rfl, rfl, rfl, rfl⟩
  | false => exact ⟨rfl, rfl, rfl, rfl, rfl, rfl, rfl⟩

theorem rewind_opened {c : Context} {pos : ℕ} (hpos : c.bfile = some pos) :
    Opened c (rewind c) (if c.brewind then 0 else pos) := by
  rw [rewind]
  cases hrewind : c.brewind with
  | true => exact ⟨rfl, rfl, rfl, rfl, rfl, rfl, rfl⟩
  | false => exact ⟨rfl, rfl, rfl, rfl, rfl, hpos, hrewind⟩

/-- A batch file is open when the line is read, and no more of it is left than there was. -/
theorem opened_continues {r : Reading} {size : ℕ} (hsize : 1 < size) (h : r.Good (size - 1))
    {b : Block} {rest : List Block} (hbc : r.shell.bc = b :: rest) (hb : IsBatch b.ctx)
    (hn : r.left ≤ n) {f : Context → Context} {pos : ℕ} (hf : Opened b.ctx (f b.ctx) pos) {w : World}
    (hw : w.files = r.world.files)
    (hle : ((r.world.files (b.ctx.bfnam.getD [])).drop pos).length + 1 ≤ b.ctx.weight r.world.files) :
    Continues (size - 1) n ((r.shell.modify f).bind fun s =>
      lineTurn (b.ctx.bfnam.getD []) { r with shell := s, world := w } size) := by
  obtain ⟨heq, hs⟩ := h.sound.modify hbc (Or.inr (hf.isBatch hb))
  rw [heq, Option.bind_some, ← hf.bfnam]
  refine lineTurn_continues (r := { r with
    shell := { r.shell with bc := { b with ctx := f b.ctx } :: rest }, world := w })
    (b := { b with ctx := f b.ctx }) hsize ⟨hs, h.guarded⟩ rfl (hf.isBatch hb) hf.brewind hf.bfile ?_
  rw [Reading.left, hbc, turnsLeft_cons] at hn
  rw [Reading.left]
  dsimp only
  rw [turnsLeft_cons, Context.weight_open (hf.isBatch hb).forvar hf.brewind hf.bfile, hf.bfnam, hw]
  omega

theorem batchTurn_continues {r : Reading} {size : ℕ} (hsize : 1 < size) (h : r.Good (size - 1))
    {b : Block} {rest : List Block} (hbc : r.shell.bc = b :: rest) (hb : IsBatch b.ctx)
    (hn : r.left ≤ n) : Continues (size - 1) n (batchTurn b r size) := by
  obtain ⟨name, hname⟩ := Option.ne_none_iff_exists'.mp hb.bfnam
  have hnam : b.ctx.bfnam.getD [] = name := by rw [hname, Option.getD_some]
  have hlength : ∀ pos, ((r.world.files (b.ctx.bfnam.getD [])).drop pos).length ≤
      (r.world.files (b.ctx.bfnam.getD [])).length := fun pos =>
    List.length_drop.trans_le (Nat.sub_le _ _)
  rw [batchTurn, hname]
  dsimp only
  rw [← hnam]
  cases hpos : b.ctx.bfile with
  | none =>
    rw [if_pos rfl]
    split
    · exact leave_continues (r := { r with world := r.world.open.2 }) ⟨h.sound, h.guarded⟩ hbc hn
    · refine opened_continues hsize h hbc hb hn (reopen_opened b.ctx) rfl ?_
      rw [Context.weight, if_neg (not_not.mpr hb.forvar)]
      dsimp only
      rw [if_pos (Or.inr hpos)]
      exact Nat.succ_le_succ (hlength _)
  | some pos =>
    rw [if_neg (Option.some_ne_none pos)]
    refine opened_continues hsize h hbc hb hn (rewind_opened hpos) rfl ?_
    cases hrewind : b.ctx.brewind with
    | true =>
      rw [Context.weight, if_neg (not_not.mpr hb.forvar)]
      dsimp only
      rw [if_pos (Or.inl hrewind)]
      exact Nat.succ_le_succ (hlength _)
    | false => exact (Context.weight_open hb.forvar hrewind hpos).ge

/-! ## The loop -/

/-- **A turn uses something up**, or ends the loop. -/
theorem turn_continues {r : Reading} {size : ℕ} (hsize : 1 < size) (h : r.Good (size - 1))
    (hn : r.left ≤ n) : Continues (size - 1) n (turn size r) := by
  rw [turn]
  cases hbc : r.shell.bc with
  | nil => exact Or.inr ⟨none, r, rfl, h.sound⟩
  | cons b rest =>
    rw [if_neg (List.cons_ne_nil b rest), h.sound.allocated.top hbc]
    dsimp only
    have hkind := h.sound.kinds b (hbc ▸ List.mem_cons_self)
    split
    · rename_i hfor
      exact forTurn_continues h hbc (.of_kind hkind hfor) hn
    · rename_i hfor
      exact batchTurn_continues hsize h hbc (.of_kind hkind (not_not.mp hfor)) hn

/-- **The loop ends**, if there are as many turns as may be left. -/
theorem loop_ends {size : ℕ} (hsize : 1 < size) : ∀ (fuel : ℕ) {r : Reading}, r.Good (size - 1) →
    r.left < fuel → ∃ line r', loop size fuel r = some (line, r') ∧ Sound r'.shell
  | 0, r, _, hfuel => absurd hfuel (Nat.not_lt_zero _)
  | fuel + 1, r, h, hfuel => by
    rw [loop]
    rcases turn_continues hsize h (Nat.le_refl _) with ⟨r', hturn, hgood, hless⟩ | ⟨line, r', hturn, hs⟩
    · rw [hturn]
      exact loop_ends hsize fuel hgood (Nat.lt_of_lt_of_le hless (Nat.le_of_lt_succ hfuel))
    · rw [hturn]
      exact ⟨line, r', rfl, hs⟩

theorem closeBatch_sound {s : State} (h : Sound s) : ∃ s', closeBatch s = some s' ∧ Sound s' := by
  rw [closeBatch]
  cases hbc : s.bc with
  | nil => exact ⟨s, rfl, h⟩
  | cons b rest =>
    dsimp only
    split
    · have hkind : Kind { b.ctx with bfile := none, bclose := false } := by
        rcases h.kinds b (hbc ▸ List.mem_cons_self) with hfor | hbatch
        · exact Or.inl ⟨hfor.forvar, hfor.forproto, hfor.params, hfor.shiftlevel⟩
        · exact Or.inr (hbatch.congr rfl rfl rfl rfl)
      obtain ⟨heq, hs⟩ := h.modify (f := fun c => { c with bfile := none, bclose := false }) hbc hkind
      exact ⟨_, heq, hs⟩
    · exact ⟨s, rfl, h⟩

/-- **`readbatchline` returns**, and leaves a sound shell. -/
theorem readbatchline_sound {s : State} (h : Sound s) {fuel size : ℕ} (hsize : 1 < size) (buf : Buf)
    {w : World} (hfuel : turnsLeft w.files s.bc < fuel) :
    ∃ line s' w', readbatchline fuel size buf s w = some (line, s', w') ∧ Sound s' := by
  obtain ⟨line, r, hloop, hs⟩ := loop_ends hsize fuel (r := ⟨s, w, buf, 0⟩) ⟨h, Or.inl rfl⟩ (by
    rw [Reading.left, ahead, if_pos rfl, List.length_nil, Nat.zero_add]
    exact hfuel)
  obtain ⟨s', hclose, hs'⟩ := closeBatch_sound hs
  exact ⟨line, s', r.world, by rw [readbatchline, hloop]; dsimp only; rw [hclose]; rfl, hs'⟩

/-! ## Runs -/

/-- A command is given, or a line is read from the batch files. -/
inductive Step where
  | command (w : World) (c : Command)
  | read (w : World) (fuel size : ℕ) (buf : Buf)

def serve (s : State) : Step → Option State
  | .command w c => (run c s w).map (·.1)
  | .read w fuel size buf => (readbatchline fuel size buf s w).map (·.2.1)

def serveAll (s : Option State) (step : Step) : Option State := s.bind fun s => serve s step

/-- The shell has no batch contexts. -/
def State.start (echo size : ℕ) : State := ⟨[], 0, [], echo, size⟩

/-- A command is one of those that leave the chain well formed, and the loop of `readbatchline` is
given the turns that it may take. -/
def StepAllowed : Option State → Step → Prop
  | none, _ => True
  | some s, .command w c => Allowed s w c
  | some s, .read w fuel size _ => 1 < size ∧ turnsLeft w.files s.bc < fuel

/-- A CALL leaves what it should. -/
def StepExact : Option State → Step → Prop
  | some s, .command w c => CallExact s w c
  | _, _ => True

/-- A command is safe, and a line is read with turns enough. -/
def StepSafe : Option State → Step → Prop
  | none, _ => True
  | some s, .command w c => Safe s w c
  | some s, .read w fuel size _ => 1 < size ∧ turnsLeft w.files s.bc < fuel

theorem StepAllowed.safe {o : Option State} {step : Step} (h : StepAllowed o step) :
    StepSafe o step := by
  cases o with
  | none => trivial
  | some s =>
    cases step with
    | command w c => exact Allowed.safe h
    | read => exact h

theorem serve_sound {s : State} (h : Sound s) {step : Step} (ha : StepSafe (some s) step) :
    ∃ s', serveAll (some s) step = some s' ∧ Sound s' := by
  cases step with
  | command w c =>
    obtain ⟨s', w', hrun, hs'⟩ := run_leaves h ha
    exact ⟨s', by rw [serveAll, Option.bind_some, serve, hrun]; rfl, hs'⟩
  | read w fuel size buf =>
    obtain ⟨line, s', w', hread, hs'⟩ := readbatchline_sound h ha.1 buf ha.2
    exact ⟨s', by rw [serveAll, Option.bind_some, serve, hread]; rfl, hs'⟩

theorem start_sound (echo size : ℕ) : Sound (State.start echo size) where
  allocated := ⟨List.nodup_nil, by simp [State.start], by simp [State.start], by simp [State.start]⟩
  kinds := by simp [State.start]

/-- **The contexts are well formed** all along a run of commands and lines read, and every CALL
leaves just what the called command does, provided that CALL is given no FOR, no GOTO that it would
lose, and no batch file that cannot be started. -/
theorem contexts_wellFormed (echo size : ℕ) (steps : List Step)
    (h : Along serveAll StepAllowed (some (State.start echo size)) steps) :
    (∀ pre, pre <+: steps → ∃ s, runSteps serveAll (some (State.start echo size)) pre = some s ∧
      WellFormed s) ∧
    Along serveAll StepExact (some (State.start echo size)) steps := by
  have hstep : ∀ o step, (∃ s, o = some s ∧ Sound s) → StepAllowed o step →
      (∃ s, serveAll o step = some s ∧ Sound s) ∧ StepExact o step := by
    rintro o step ⟨s, rfl, hs⟩ ha
    refine ⟨serve_sound hs ha.safe, ?_⟩
    cases step with
    | command w c => exact run_callExact hs ha
    | read => trivial
  have hstart : ∃ s, some (State.start echo size) = some s ∧ Sound s := ⟨_, rfl, start_sound echo size⟩
  refine ⟨fun pre hpre => ?_, Along.of_inv hstep hstart h⟩
  obtain ⟨s, hrun, hs⟩ := inv_run (fun o step ho ha => (hstep o step ho ha).1) hstart (h.of_prefix hpre)
  exact ⟨s, hrun, hs.wellFormed⟩

/-- A world in which all goes well, and every file has two lines. -/
def calm : World := ⟨[], [], [], [], fun _ => [101, 10, 102, 10]⟩

/-- `FOR %x IN (y) DO x` -/
def forXinY : ForCommand := ⟨[120], [37, 120], [[121]], 0⟩

/-- The context of a batch file. -/
def batchContext (name : Str) : Context :=
  { initContext with bfnam := some name, bfirst := some name, params := some [], echo := 1 }

/-- A batch file is started. -/
def inA : State := ⟨[⟨0, batchContext [97]⟩], 1, [], 1, 0⟩

theorem serve_batch :
    serveAll (some (State.start 1 0)) (.command calm (.batch (some [97]) [97] [])) = some inA := by
  decide +kernel

/-- The batch file has called another one. -/
def inB : State := ⟨[⟨1, batchContext [98]⟩, ⟨0, batchContext [97]⟩], 2, [], 1, 0⟩

theorem serve_call_batch :
    serveAll (some inA) (.command calm (.call true (.batch (some [98]) [98] []))) = some inB := by
  decide +kernel

/-- A batch file starts, calls another one, and a line of that is read. -/
theorem contexts_wellFormed_calls :
    let steps : List Step :=
      [.command calm (.batch (some [97]) [97] []), .command calm (.call true (.batch (some [98]) [98] [])),
        .read calm 50 20 (fun _ => 0)]
    (∀ pre, pre <+: steps → ∃ s, runSteps serveAll (some (State.start 1 0)) pre = some s ∧
      WellFormed s) ∧
    Along serveAll StepExact (some (State.start 1 0)) steps := by
  refine contexts_wellFormed 1 0 _ ⟨trivial, ?_⟩
  rw [serve_batch]
  refine ⟨Or.inr ⟨rfl, Or.inr (Or.inl rfl)⟩, ?_⟩
  rw [serve_call_batch]
  exact ⟨⟨by decide, by decide +kernel⟩, trivial⟩

/-- `CALL FOR` leaves the freed context of CALL on the chain, and loses that of FOR; and `CALL
GOTO` loses the label. -/
theorem call_dangles :
    (∃ s, runSteps serveAll (some (State.start 1 0)) [.command calm (.call true (.for (some forXinY)))] =
      some s ∧ ¬ WellFormed s) ∧
    ¬ StepExact (some (State.start 1 0)) (.command calm (.call true (.for (some forXinY)))) ∧
    ¬ StepExact (some inA) (.command calm (.call true (.goto [108]))) := by
  have hcall : serveAll (some (State.start 1 0)) (.command calm (.call true (.for (some forXinY)))) =
      some ⟨[⟨0, { initContext with echo := 1 }⟩], 2, [0], 1, 0⟩ := by decide +kernel
  refine ⟨⟨_, hcall, fun h => (h _ (List.mem_singleton_self _)).1 (by decide)⟩, fun h => ?_, fun h => ?_⟩
  · exact absurd (h rfl) (by decide +kernel)
  · exact absurd (h rfl) (by decide +kernel)

end Shell
end BurdahDos
